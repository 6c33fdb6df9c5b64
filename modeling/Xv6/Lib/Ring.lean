import Mathlib

/-!
# Ring buffers with wrapping counters

A ring has `N` slots and two counters that only ever grow, kept modulo `M`.
The slot of a counter value is its remainder modulo `N`.  When `N` divides
`M` the two reductions agree, and the entries between the read and the write
counter behave as a queue however often the counters wrap.
-/

namespace Ring

variable {α : Type*} {N : ℕ} [NeZero N]

/-- How far the write counter `w` is ahead of the read counter `r`. -/
def count (M r w : ℕ) : ℕ := (M - r + w) % M

/-- The entries from the read counter up to the write counter, oldest
first. -/
def window (M : ℕ) (data : Fin N → α) (r w : ℕ) : List α :=
  (List.range (count M r w)).map fun k => data (Fin.ofNat N ((r + k) % M))

@[simp] theorem length_window (M : ℕ) (data : Fin N → α) (r w : ℕ) :
    (window M data r w).length = count M r w := by
  simp [window]

variable {M r w : ℕ}

theorem count_self (hr : r < M) : count M r r = 0 := by
  unfold count
  rw [Nat.sub_add_cancel hr.le, Nat.mod_self]

theorem count_eq_zero_iff (hr : r < M) (hw : w < M) : count M r w = 0 ↔ r = w := by
  constructor
  · intro hzero
    unfold count at hzero
    obtain ⟨q, hq⟩ := Nat.dvd_of_mod_eq_zero hzero
    have hq1 : q = 1 := by
      have hpos : 0 < q := by
        rcases Nat.eq_zero_or_pos q with rfl | hpos
        · omega
        · exact hpos
      have hlt : q < 2 := by
        by_contra hge
        have : M * 2 ≤ M * q := Nat.mul_le_mul_left M (by omega)
        omega
      omega
    subst hq1
    omega
  · rintro rfl
    exact count_self hr

theorem count_succ_write (hlt : count M r w + 1 < M) :
    count M r ((w + 1) % M) = count M r w + 1 := by
  unfold count at hlt ⊢
  rw [Nat.add_mod_mod, ← Nat.add_assoc, Nat.add_mod,
    Nat.mod_eq_of_lt (a := 1) (by omega), Nat.mod_eq_of_lt hlt]

theorem count_succ_read (hr : r < M) (hw : w < M) (hpos : 0 < count M r w) :
    count M ((r + 1) % M) w + 1 = count M r w := by
  unfold count at hpos ⊢
  by_cases hwrap : r + 1 = M
  · have hr' : (r + 1) % M = 0 := by rw [hwrap, Nat.mod_self]
    have hsub : M - r + w = w + 1 := by omega
    rw [hsub] at hpos
    rw [hr', hsub]
    have hw1 : w + 1 < M := by
      by_contra hge
      have : w + 1 = M := by omega
      rw [this, Nat.mod_self] at hpos
      exact Nat.lt_irrefl 0 hpos
    rw [Nat.mod_eq_of_lt hw1, Nat.sub_zero, Nat.add_mod_left, Nat.mod_eq_of_lt hw]
  · have hr' : (r + 1) % M = r + 1 := Nat.mod_eq_of_lt (by omega)
    rw [hr']
    have hsub : M - r + w = (M - (r + 1) + w) + 1 := by omega
    rw [hsub] at hpos ⊢
    have hlt : (M - (r + 1) + w) % M + 1 < M := by
      have hmod := Nat.mod_lt (M - (r + 1) + w) (by omega : 0 < M)
      by_contra hge
      have heq : (M - (r + 1) + w) % M + 1 = M := by omega
      have : (M - (r + 1) + w + 1) % M = 0 := by
        rw [← Nat.mod_add_mod, heq, Nat.mod_self]
      omega
    rw [← Nat.mod_add_mod (M - (r + 1) + w) M 1, Nat.mod_eq_of_lt hlt]

theorem ofNat_mod_eq (hdvd : N ∣ M) (x : ℕ) : Fin.ofNat N (x % M) = Fin.ofNat N x := by
  apply Fin.ext
  simp only [Fin.ofNat]
  exact Nat.mod_mod_of_dvd x hdvd

theorem ofNat_count_ne {k : ℕ} (hdvd : N ∣ M) (hr : r < M) (hk : k < count M r w)
    (hcount : count M r w < N) : Fin.ofNat N ((r + k) % M) ≠ Fin.ofNat N w := by
  rw [ofNat_mod_eq hdvd]
  intro heq
  have hmod : (r + k) % N = w % N := congrArg Fin.val heq
  have hw : (r + count M r w) % N = w % N := by
    rw [← Nat.mod_mod_of_dvd (r + count M r w) hdvd, count, Nat.add_mod_mod,
      show r + (M - r + w) = M + w by omega, Nat.add_mod_left, Nat.mod_mod_of_dvd w hdvd]
  rw [← hw] at hmod
  have hdiff : (k : ℕ) ≡ count M r w [MOD N] := Nat.ModEq.add_left_cancel' r hmod
  have := Nat.ModEq.eq_of_lt_of_lt hdiff (by omega) hcount
  omega

theorem window_push (data : Fin N → α)
    (a : α) (hdvd : N ∣ M) (hN : N < M) (hr : r < M) (hcount : count M r w < N) : window M
    (Function.update data (Fin.ofNat N w) a) r ((w + 1) % M) = window M data r w ++ [a] := by
  unfold window
  rw [count_succ_write (by omega), List.range_succ, List.map_append, List.map_singleton]
  congr 1
  · apply List.map_congr_left
    intro k hk
    rw [Function.update_of_ne (ofNat_count_ne hdvd hr (List.mem_range.mp hk) hcount)]
  · have hslot : (r + count M r w) % M = w % M := by
      rw [count, Nat.add_mod_mod, show r + (M - r + w) = M + w by omega, Nat.add_mod_left]
    rw [hslot, ofNat_mod_eq hdvd, Function.update_self]

theorem window_pop (data : Fin N → α) (hr : r < M) (hw : w < M) (hpos : 0 < count M r w) :
    window M data r w = data (Fin.ofNat N r) :: window M data ((r + 1) % M) w := by
  unfold window
  rw [← count_succ_read hr hw hpos, List.range_succ_eq_map, List.map_cons,
    List.map_map, Nat.add_zero, Nat.mod_eq_of_lt hr]
  congr 1
  apply List.map_congr_left
  intro k _
  simp only [Function.comp_apply, Nat.succ_eq_add_one, Nat.mod_add_mod]
  rw [show r + (k + 1) = r + 1 + k by omega]

theorem window_eq_take {e : ℕ} (data : Fin N → α) (hle : count M r w ≤ count M r e) :
    window M data r w = (window M data r e).take (count M r w) := by
  unfold window
  rw [← List.map_take, List.take_range, Nat.min_eq_left hle]

theorem window_eq_drop {e : ℕ} (data : Fin N → α) (hr : r < M) (hw : w < M)
    (hle : count M r w ≤ count M r e) :
    window M data w e = (window M data r e).drop (count M r w) := by
  have hslot : (r + count M r w) % M = w := by
    rw [count, Nat.add_mod_mod, show r + (M - r + w) = M + w by omega,
      Nat.add_mod_left, Nat.mod_eq_of_lt hw]
  have hcount : count M w e = count M r e - count M r w := by
    have hlt : count M r e < M := Nat.mod_lt _ (by omega)
    have hsum : (count M r w + count M w e) % M = count M r e := by
      unfold count
      rw [← Nat.add_mod, show M - r + w + (M - w + e) = M - r + e + M by omega, Nat.add_mod_right]
    have hlt' : count M w e < M := Nat.mod_lt _ (by omega)
    by_cases hwrap : count M r w + count M w e < M
    · rw [Nat.mod_eq_of_lt hwrap] at hsum
      omega
    · rw [Nat.mod_eq_sub_mod (by omega), Nat.mod_eq_of_lt (by omega)] at hsum
      omega
  unfold window
  rw [hcount, ← List.map_drop]
  apply List.ext_getElem
  · simp
  · intro k _ _
    simp only [List.getElem_map, List.getElem_range, List.getElem_drop]
    rw [← Nat.add_assoc, ← Nat.mod_add_mod (r + count M r w), hslot]

end Ring
