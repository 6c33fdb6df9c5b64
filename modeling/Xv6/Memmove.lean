import Mathlib

/-!
# `memmove`

The kernel and the user library have a `memmove` each, and choose the direction
of the copy by different tests.  Memory is a function of 64-bit addresses, and
pointers wrap around.
-/

namespace Xv6
namespace Memmove

open Function (update update_apply)

abbrev Memory := BitVec 64 → UInt8

/-- `while(n-- > 0) *d++ = *s++;` -/
def copyUp (m : Memory) (d s : BitVec 64) : ℕ → Memory
  | 0 => m
  | n + 1 => copyUp (update m d (m s)) (d + 1) (s + 1) n

/-- `while(n-- > 0) *--d = *--s;` -/
def copyDown (m : Memory) (d s : BitVec 64) : ℕ → Memory
  | 0 => m
  | n + 1 => copyDown (update m (d - 1) (m (s - 1))) (d - 1) (s - 1) n

/-- The kernel's `memmove`, with `n` a `uint`: what it returns, and memory. -/
def Kernel.memmove (m : Memory) (dst src : BitVec 64) (n : BitVec 32) : BitVec 64 × Memory :=
  if n = 0 then (dst, m)
  else if src < dst ∧ src + n.setWidth 64 > dst then
    (dst, copyDown m (dst + n.setWidth 64) (src + n.setWidth 64) n.toNat)
  else (dst, copyUp m dst src n.toNat)

/-- The library's `memmove`, with `n` an `int`: a loop that counts down from a
negative number ends at once. -/
def User.memmove (m : Memory) (vdst vsrc : BitVec 64) (n : BitVec 32) : BitVec 64 × Memory :=
  if vsrc > vdst then (vdst, copyUp m vdst vsrc n.toInt.toNat)
  else
    (vdst, copyDown m (vdst + n.signExtend 64) (vsrc + n.signExtend 64) n.toInt.toNat)

/-- The `n` bytes at `dst` are those that were at `src`, and all others are as
they were. -/
structure Moved (m : Memory) (dst src : BitVec 64) (n : ℕ) (m' : Memory) : Prop where
  copied : ∀ i < n, m' (dst + BitVec.ofNat 64 i) = m (src + BitVec.ofNat 64 i)
  other : ∀ a, (∀ i < n, a ≠ dst + BitVec.ofNat 64 i) → m' a = m a

section

variable {m m' m'' : Memory} {d s : BitVec 64} {n : ℕ}

theorem Moved.unique (h : Moved m d s n m') (h' : Moved m d s n m'') : m' = m'' := by
  funext a
  by_cases ha : ∃ i < n, a = d + BitVec.ofNat 64 i
  · obtain ⟨i, hi, rfl⟩ := ha
    rw [h.copied i hi, h'.copied i hi]
  · push Not at ha
    rw [h.other a ha, h'.other a ha]

/-- The first byte is moved before the others: they are not read from where it
goes. -/
theorem Moved.first
    (hd : d.toNat + (n + 1) ≤ 2 ^ 64) (hread : ∀ i ≤ n, 0 < i → s + BitVec.ofNat 64 i ≠ d)
    (h : Moved (update m d (m s)) (d + 1) (s + 1) n m') : Moved m d s (n + 1) m' := by
  have hshift (a : BitVec 64) (i : ℕ) :
      a + BitVec.ofNat 64 (i + 1) = a + 1 + BitVec.ofNat 64 i := by
    bv_omega
  constructor
  · intro i hi
    cases i with
    | zero =>
      have hfirst : ∀ j < n, d ≠ d + 1 + BitVec.ofNat 64 j := by
        intro j hj
        bv_omega
      simp only [BitVec.add_zero]
      rw [h.other d hfirst, update_apply, if_pos rfl]
    | succ i =>
      have hne := hread (i + 1) (by omega) (by omega)
      rw [hshift] at hne
      rw [hshift, hshift, h.copied i (by omega), update_apply, if_neg hne]
  · intro a ha
    have hne : a ≠ d := by simpa using ha 0 (by omega)
    rw [h.other a, update_apply, if_neg hne]
    intro i hi
    rw [← hshift]
    exact ha (i + 1) (by omega)

/-- The last byte is moved before the others. -/
theorem Moved.last (hd : d.toNat + (n + 1) ≤ 2 ^ 64)
    (hread : ∀ i < n, s + BitVec.ofNat 64 i ≠ d + BitVec.ofNat 64 n)
    (h : Moved (update m (d + BitVec.ofNat 64 n) (m (s + BitVec.ofNat 64 n))) d s n m') :
    Moved m d s (n + 1) m' := by
  constructor
  · intro i hi
    by_cases hin : i = n
    · subst hin
      have hlast : ∀ j < i, d + BitVec.ofNat 64 i ≠ d + BitVec.ofNat 64 j := by
        intro j hj
        bv_omega
      rw [h.other _ hlast, update_apply, if_pos rfl]
    · have hlt : i < n := by omega
      rw [h.copied i hlt, update_apply, if_neg (hread i hlt)]
  · intro a ha
    rw [h.other a fun i hi => ha i (by omega), update_apply, if_neg (ha n (by omega))]

theorem copyUp_moved (hd : d.toNat + n ≤ 2 ^ 64) (hs : s.toNat + n ≤ 2 ^ 64)
    (hsafe : d.toNat ≤ s.toNat ∨ s.toNat + n ≤ d.toNat) : Moved m d s n (copyUp m d s n) := by
  induction n generalizing m d s with
  | zero => exact ⟨by simp, fun _ _ => rfl⟩
  | succ n ih =>
    apply Moved.first hd
    · intro i hi hpos
      bv_omega
    · apply ih <;> bv_omega

theorem copyDown_moved (hd : d.toNat + n ≤ 2 ^ 64)
    (hs : s.toNat + n ≤ 2 ^ 64) (hsafe : s.toNat ≤ d.toNat ∨ d.toNat + n ≤ s.toNat) :
    Moved m d s n (copyDown m (d + BitVec.ofNat 64 n) (s + BitVec.ofNat 64 n) n) := by
  induction n generalizing m with
  | zero => exact ⟨by simp, fun _ _ => rfl⟩
  | succ n ih =>
    have hback (a : BitVec 64) : a + BitVec.ofNat 64 (n + 1) - 1 = a + BitVec.ofNat 64 n := by
      bv_omega
    apply Moved.last hd
    · intro i hi
      bv_omega
    · rw [copyDown, hback, hback]
      apply ih <;> omega

end

theorem Kernel.memmove_moved (m : Memory) {dst src : BitVec 64}
    {n : BitVec 32} (hdst : dst.toNat + n.toNat ≤ 2 ^ 64) (hsrc : src.toNat + n.toNat ≤ 2 ^ 64) :
    Moved m dst src n.toNat (Kernel.memmove m dst src n).2 := by
  have hn := n.isLt
  have hwide : n.setWidth 64 = BitVec.ofNat 64 n.toNat := by bv_omega
  unfold Kernel.memmove
  split_ifs with hzero hdown
  · subst hzero
    exact ⟨by simp, fun _ _ => rfl⟩
  · rw [hwide]
    apply copyDown_moved hdst hsrc
    bv_omega
  · apply copyUp_moved hdst hsrc
    bv_omega

theorem signExtend_eq {n : BitVec 32} (hn : 0 ≤ n.toInt) :
    n.signExtend 64 = BitVec.ofNat 64 n.toNat ∧ n.toInt.toNat = n.toNat := by
  have hmsb : n.msb = false := by simpa [BitVec.msb_eq_toInt] using hn
  rw [BitVec.signExtend_eq_setWidth_of_msb_false hmsb, BitVec.toInt_eq_toNat_of_msb hmsb]
  exact ⟨by bv_omega, rfl⟩

theorem User.memmove_moved (m : Memory) {dst src : BitVec 64} {n : BitVec 32}
    (hdst : dst.toNat + n.toInt.toNat ≤ 2 ^ 64) (hsrc : src.toNat + n.toInt.toNat ≤ 2 ^ 64) :
    Moved m dst src n.toInt.toNat (User.memmove m dst src n).2 := by
  unfold User.memmove
  split_ifs with hup
  · apply copyUp_moved hdst hsrc
    bv_omega
  · by_cases hn : 0 ≤ n.toInt
    · obtain ⟨hwide, hlength⟩ := signExtend_eq hn
      rw [hlength] at hdst hsrc ⊢
      rw [hwide]
      apply copyDown_moved hdst hsrc
      bv_omega
    · rw [Int.toNat_of_nonpos (by omega)]
      exact ⟨by simp, fun _ _ => rfl⟩

/-- Both move every range that does not wrap around, whatever the overlap, and
agree on every length that an `int` can hold. -/
theorem memmove_moves (m : Memory) (dst src : BitVec 64) :
    (∀ n : BitVec 32, dst.toNat + n.toNat ≤ 2 ^ 64 → src.toNat + n.toNat ≤ 2 ^ 64 →
      Moved m dst src n.toNat (Kernel.memmove m dst src n).2) ∧
    (∀ n : BitVec 32, dst.toNat + n.toInt.toNat ≤ 2 ^ 64 → src.toNat + n.toInt.toNat ≤ 2 ^ 64 →
      Moved m dst src n.toInt.toNat (User.memmove m dst src n).2) ∧
    ∀ n : BitVec 32, 0 ≤ n.toInt → dst.toNat + n.toNat ≤ 2 ^ 64 → src.toNat + n.toNat ≤ 2 ^ 64 →
      Kernel.memmove m dst src n = User.memmove m dst src n := by
  refine ⟨fun n hdst hsrc => Kernel.memmove_moved m hdst hsrc,
    fun n hdst hsrc => User.memmove_moved m hdst hsrc, ?_⟩
  intro n hn hdst hsrc
  have hlength := (signExtend_eq hn).2
  have hkernel := Kernel.memmove_moved m hdst hsrc
  rw [← hlength] at hdst hsrc hkernel
  have hmem := hkernel.unique (User.memmove_moved m hdst hsrc)
  refine Prod.ext ?_ hmem
  unfold Kernel.memmove User.memmove
  split_ifs <;> rfl

/-- Three bytes up by one. -/
theorem memmove_moves_up : (Kernel.memmove (fun a => UInt8.ofBitVec (a.setWidth 8)) 1 0 3).2 3 = 2 ∧
      Kernel.memmove (fun a => UInt8.ofBitVec (a.setWidth 8)) 1 0 3 =
        User.memmove (fun a => UInt8.ofBitVec (a.setWidth 8)) 1 0 3 := by
  obtain ⟨hkernel, -, hsame⟩ := memmove_moves (fun a => UInt8.ofBitVec (a.setWidth 8)) 1 0
  exact ⟨(hkernel 3 (by decide) (by decide)).copied 2 (by decide),
    hsame 3 (by decide) (by decide) (by decide)⟩

end Memmove
end Xv6
