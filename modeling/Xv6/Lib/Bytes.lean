import Mathlib

/-!
# Little-endian fields in a byte array

`readLE` and `writeLE` are the meaning of loading and storing an unsigned
integer of `k` bytes at a byte offset.  The laws are those of a lens: a read
after a write of the same field gives the value back, modulo its width, and a
write leaves every disjoint field alone.
-/

namespace Bytes

variable {N : ℕ}

/-- The byte at offset `i`; reads past the end give zero. -/
def byteAt (b : Fin N → UInt8) (i : ℕ) : UInt8 := if h : i < N then b ⟨i, h⟩ else 0

def readLE (b : Fin N → UInt8) (off : ℕ) : ℕ → ℕ
  | 0 => 0
  | k + 1 => (byteAt b off).toNat + 256 * readLE b (off + 1) k

def writeLE (b : Fin N → UInt8) (off k v : ℕ) : Fin N → UInt8 := fun j =>
    if off ≤ j.val ∧ j.val < off + k then
      UInt8.ofNat (v / 256 ^ (j.val - off))
    else b j

theorem readLE_lt (b : Fin N → UInt8) (off k : ℕ) : readLE b off k < 256 ^ k := by
  induction k generalizing off with
  | zero => simp [readLE]
  | succ k ih =>
    have hbyte : (byteAt b off).toNat < 256 := (byteAt b off).toNat_lt
    have hrest := ih (off + 1)
    rw [readLE, pow_succ]
    omega

theorem readLE_congr {b c : Fin N → UInt8} {off k : ℕ} (hsame : ∀ i, off ≤ i →
    i < off + k → byteAt b i = byteAt c i) : readLE b off k = readLE c off k := by
  induction k generalizing off with
  | zero => rfl
  | succ k ih =>
    rw [readLE, readLE, hsame off (by omega) (by omega),
      ih fun i hlo hhi => hsame i (by omega) (by omega)]

theorem byteAt_writeLE_of_mem (b : Fin N → UInt8) {off k v i : ℕ} (hi : i < N) (hlo : off ≤ i)
    (hhi : i < off + k) : byteAt (writeLE b off k v) i = UInt8.ofNat (v / 256 ^ (i - off)) := by
  simp [byteAt, writeLE, hi, hlo, hhi]

theorem byteAt_writeLE_of_not_mem (b : Fin N → UInt8)
    {off k v i : ℕ} (hout : i < off ∨ off + k ≤ i) : byteAt (writeLE b off k v) i = byteAt b i := by
  have hnot : ¬(off ≤ i ∧ i < off + k) := by omega
  unfold byteAt writeLE
  split <;> rfl

theorem readLE_writeLE_disjoint (b : Fin N → UInt8) {off k v off' k' : ℕ} (hdisj : off' + k' ≤ off ∨
    off + k ≤ off') : readLE (writeLE b off k v) off' k' = readLE b off' k' := by
  apply readLE_congr
  intro i hlo hhi
  apply byteAt_writeLE_of_not_mem
  omega

theorem readLE_writeLE_suffix (b : Fin N → UInt8) {off k v i m : ℕ} (hbound : off + k ≤ N)
    (hm : i + m = k) : readLE (writeLE b off k v) (off + i) m = v / 256 ^ i % 256 ^ m := by
  induction m generalizing i with
  | zero => simp [readLE, Nat.mod_one]
  | succ m ih =>
    rw [readLE, byteAt_writeLE_of_mem b (by omega) (by omega) (by omega),
      show off + i + 1 = off + (i + 1) by omega, ih (by omega),
      Nat.add_sub_cancel_left, pow_succ 256 i, ← Nat.div_div_eq_div_mul,
      pow_succ 256 m, Nat.mul_comm (256 ^ m) 256, Nat.mod_mul]
    simp

theorem readLE_writeLE_self (b : Fin N → UInt8) {off k v : ℕ} (hbound : off + k ≤ N) :
    readLE (writeLE b off k v) off k = v % 256 ^ k := by
  simpa using readLE_writeLE_suffix b (v := v) (i := 0) hbound (Nat.zero_add k)

/-! ## One byte of a word -/

/-- Byte `k` of the word is replaced by `b`. -/
def replaceByte (w k b : ℕ) : ℕ := w - (w >>> (8 * k) % 256) <<< (8 * k) + b <<< (8 * k)

theorem exists_digits (w k : ℕ) : ∃ high d low, d < 256 ∧ low < 2 ^ (8 * k) ∧
      w = 2 ^ (8 * k) * (256 * high + d) + low := by
  refine ⟨w / 2 ^ (8 * k) / 256, w / 2 ^ (8 * k) % 256, w % 2 ^ (8 * k),
    Nat.mod_lt _ (by decide), Nat.mod_lt _ (by positivity), ?_⟩
  rw [Nat.div_add_mod, Nat.div_add_mod]

theorem digits_div {high d low k : ℕ} (hlow : low < 2 ^ (8 * k)) :
    (2 ^ (8 * k) * (256 * high + d) + low) / 2 ^ (8 * k) = 256 * high + d := by
  rw [Nat.mul_add_div (by positivity), Nat.div_eq_of_lt hlow, Nat.add_zero]

theorem replaceByte_digits {high d low k : ℕ} (b : ℕ) (hd : d < 256) (hlow : low < 2 ^ (8 * k)) :
    replaceByte (2 ^ (8 * k) * (256 * high + d) + low) k b =
      2 ^ (8 * k) * (256 * high + b) + low := by
  have hdigit : (256 * high + d) % 256 = d := by omega
  unfold replaceByte
  rw [Nat.shiftRight_eq_div_pow, digits_div hlow, hdigit, Nat.shiftLeft_eq, Nat.shiftLeft_eq]
  have hsplit (x : ℕ) : 2 ^ (8 * k) * (256 * high + x) + low =
      2 ^ (8 * k) * (256 * high) + low + x * 2 ^ (8 * k) := by ring
  rw [hsplit d, hsplit b, Nat.add_sub_cancel]

theorem replaceByte_self (w k : ℕ) {b : ℕ} (hb : b < 256) :
    replaceByte w k b >>> (8 * k) % 256 = b := by
  obtain ⟨high, d, low, hd, hlow, rfl⟩ := exists_digits w k
  rw [replaceByte_digits b hd hlow, Nat.shiftRight_eq_div_pow, digits_div hlow]
  omega

theorem digits_low {high d low k j : ℕ} (hj : j < k) :
    (2 ^ (8 * k) * (256 * high + d) + low) / 2 ^ (8 * j) % 256 = low / 2 ^ (8 * j) % 256 := by
  obtain ⟨r, rfl⟩ := Nat.exists_eq_add_of_lt hj
  have hpow : 2 ^ (8 * (j + r + 1)) = 2 ^ (8 * j) * (256 * 2 ^ (8 * r)) := by
    rw [show 8 * (j + r + 1) = 8 * j + (8 + 8 * r) by ring, pow_add, pow_add]
    rfl
  rw [hpow, Nat.mul_assoc, Nat.mul_add_div (by positivity), Nat.mul_assoc]
  exact Nat.mul_add_mod _ _ _

theorem digits_high {high d low k j : ℕ} (hd : d < 256) (hlow : low < 2 ^ (8 * k)) (hj : k < j) :
    (2 ^ (8 * k) * (256 * high + d) + low) / 2 ^ (8 * j) = high / 2 ^ (8 * (j - k - 1)) := by
  obtain ⟨r, rfl⟩ := Nat.exists_eq_add_of_lt hj
  have hpow : 2 ^ (8 * (k + r + 1)) = 2 ^ (8 * k) * 256 * 2 ^ (8 * r) := by
    rw [show 8 * (k + r + 1) = 8 * k + 8 + 8 * r by ring, pow_add, pow_add]
    rfl
  have hdigit : (256 * high + d) / 256 = high := by omega
  have hindex : k + r + 1 - k - 1 = r := by omega
  rw [hpow, ← Nat.div_div_eq_div_mul, ← Nat.div_div_eq_div_mul, digits_div hlow, hdigit, hindex]

theorem replaceByte_of_ne (w : ℕ) {k j b : ℕ} (hb : b < 256) (hne : j ≠ k) :
    replaceByte w k b >>> (8 * j) % 256 = w >>> (8 * j) % 256 := by
  obtain ⟨high, d, low, hd, hlow, rfl⟩ := exists_digits w k
  rw [replaceByte_digits b hd hlow, Nat.shiftRight_eq_div_pow, Nat.shiftRight_eq_div_pow]
  rcases Nat.lt_or_gt_of_ne hne with hlt | hgt
  · rw [digits_low hlt, digits_low hlt]
  · rw [digits_high hb hlow hgt, digits_high hd hlow hgt]

end Bytes
