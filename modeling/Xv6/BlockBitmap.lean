import Xv6.Block

/-!
# The bitmap of disk blocks

`balloc` and `bfree` on the blocks as the buffer cache has them.
-/

namespace Xv6

open Function (update update_self update_of_ne)

instance : NeZero bsize := ⟨by decide⟩

/-- `BPB`. -/
def bpb : ℕ := bsize * 8

/-- The fields of the super block that say where the bitmap is. -/
structure BitmapArea where
  size : ℕ
  bmapstart : ℕ
  size_lt : size < 2 ^ 31

/-- `BBLOCK(b, sb)`. -/
def BitmapArea.bblock (sb : BitmapArea) (b : ℕ) : ℕ := b / bpb + sb.bmapstart

/-- `1 << (bi % 8)`. -/
def bitMask (bi : ℕ) : UInt8 := ⟨BitVec.twoPow 8 (bi % 8)⟩

/-- `data[bi/8]` is changed. -/
def Block.modifyByte (d : Block) (bi : ℕ) (f : UInt8 → UInt8) : Block :=
  update d (Fin.ofNat bsize (bi / 8)) (f (d (Fin.ofNat bsize (bi / 8))))

/-- `(data[bi/8] & m) != 0`. -/
def Block.bit (d : Block) (bi : ℕ) : Bool := d (Fin.ofNat bsize (bi / 8)) &&& bitMask bi != 0

/-- The blocks, and those given to `log_write`. -/
structure BlockStore where
  data : ℕ → Block
  logged : Finset ℕ

/-- The block is changed and `log_write` called. -/
def BlockStore.write (s : BlockStore) (b : ℕ) (d : Block) : BlockStore :=
  ⟨update s.data b d, insert b s.logged⟩

/-- The inner loop of `balloc`. -/
def ballocInner (sb : BitmapArea) (d : Block) (b : ℕ) : Option ℕ :=
  (List.range bpb).find? fun bi => b + bi < sb.size && !d.bit bi

/-- The outer loop of `balloc`, with a bound on the rounds that are left. -/
def ballocLoop (sb : BitmapArea) (s : BlockStore) : ℕ → ℕ → Option ℕ
  | 0, _ => none
  | rounds + 1, b =>
    if b < sb.size then
      ((ballocInner sb (s.data (sb.bblock b)) b).map (b + ·)).or
        (ballocLoop sb s rounds (b + bpb))
    else none

def bzero (b : ℕ) (s : BlockStore) : BlockStore := s.write b fun _ => 0

def balloc (sb : BitmapArea) (s : BlockStore) : ℕ × BlockStore :=
  match ballocLoop sb s (sb.size / bpb + 1) 0 with
  | none => (0, s)
  | some b =>
    (b, bzero b (s.write (sb.bblock b)
      ((s.data (sb.bblock b)).modifyByte (b % bpb) (· ||| bitMask b))))

/-- `none` is `panic("freeing free block")`. -/
def bfree (sb : BitmapArea) (b : ℕ) (s : BlockStore) : Option BlockStore :=
  let d := s.data (sb.bblock b)
  if d.bit (b % bpb) then
    some (s.write (sb.bblock b) (d.modifyByte (b % bpb) (· &&& ~~~bitMask b)))
  else none

/-- The bit of block `b`. -/
def BlockStore.used (sb : BitmapArea) (s : BlockStore) (b : ℕ) : Bool :=
  (s.data (sb.bblock b)).bit (b % bpb)

theorem bitMask_mod (b : ℕ) : bitMask (b % bpb) = bitMask b := by
  unfold bitMask bpb bsize
  congr 2
  omega

/-! ## Bits -/

theorem and_bitMask (x : UInt8) (bi : ℕ) :
    (x &&& bitMask bi != 0) = x.toBitVec.getLsbD (bi % 8) := by
  have hlt : bi % 8 < 8 := Nat.mod_lt _ (by decide)
  have hand : (x &&& bitMask bi).toBitVec = if x.toBitVec.getLsbD
    (bi % 8) then BitVec.twoPow 8 (bi % 8) else 0#8 := BitVec.and_twoPow x.toBitVec (bi % 8)
  have hone : BitVec.twoPow 8 (bi % 8) ≠ 0#8 := by
    intro h
    have := congrArg (·.getLsbD (bi % 8)) h
    simp [hlt] at this
  rw [Bool.eq_iff_iff, bne_iff_ne, ne_eq, ← UInt8.toBitVec_inj, hand]
  split_ifs with h
  · simp [h, hone]
  · simp [h]

theorem Block.bit_modifyByte (d : Block) {i j : ℕ} (hi : i < bpb)
    (hj : j < bpb) (f : UInt8 → UInt8) : (d.modifyByte i f).bit j = if i / 8 = j / 8 then f
    (d (Fin.ofNat bsize (j / 8))) &&& bitMask j != 0
      else d.bit j := by
  unfold Block.modifyByte Block.bit
  split_ifs with h
  · rw [h, update_self]
  · rw [update_of_ne]
    intro heq
    rw [Fin.ext_iff, Fin.val_ofNat, Fin.val_ofNat] at heq
    unfold bpb bsize at *
    omega

theorem getLsbD_bitMask {i j : ℕ} (hdiv : i / 8 = j / 8) :
    (bitMask i).toBitVec.getLsbD (j % 8) = (j == i) := by
  rw [bitMask, BitVec.getLsbD_twoPow, Bool.eq_iff_iff]
  simp only [Bool.and_eq_true, decide_eq_true_eq, beq_iff_eq]
  omega

theorem Block.bit_set (d : Block) {i j : ℕ} (hi : i < bpb) (hj : j < bpb) :
    (d.modifyByte i (· ||| bitMask i)).bit j = (d.bit j || j == i) := by
  rw [Block.bit_modifyByte d hi hj, Block.bit, and_bitMask, and_bitMask]
  split_ifs with hdiv
  · rw [UInt8.toBitVec_or, BitVec.getLsbD_or, getLsbD_bitMask hdiv]
  · have hne : j ≠ i := by rintro rfl; exact hdiv rfl
    rw [beq_false_of_ne hne, Bool.or_false]

theorem Block.bit_clear (d : Block) {i j : ℕ} (hi : i < bpb) (hj : j < bpb) :
    (d.modifyByte i (· &&& ~~~bitMask i)).bit j = (d.bit j && !(j == i)) := by
  rw [Block.bit_modifyByte d hi hj, Block.bit, and_bitMask, and_bitMask]
  split_ifs with hdiv
  · have hlt : j % 8 < 8 := Nat.mod_lt _ (by decide)
    rw [UInt8.toBitVec_and, UInt8.toBitVec_not, BitVec.getLsbD_and,
      BitVec.getLsbD_not, getLsbD_bitMask hdiv, decide_eq_true hlt, Bool.true_and]
  · have hne : j ≠ i := by rintro rfl; exact hdiv rfl
    rw [beq_false_of_ne hne, Bool.not_false, Bool.and_true]

/-! ## What `balloc` and `bfree` do -/

section

variable {sb : BitmapArea} {s : BlockStore} {b c : ℕ}

theorem used_add (hb : b % bpb = 0) {bi : ℕ} (hbi : bi < bpb) :
    s.used sb (b + bi) = (s.data (sb.bblock b)).bit bi := by
  have hdiv : (b + bi) / bpb = b / bpb ∧ (b + bi) % bpb = bi := by
    unfold bpb bsize at *
    omega
  rw [BlockStore.used, BitmapArea.bblock, BitmapArea.bblock, hdiv.1, hdiv.2]

theorem used_of_skipped (hb : b % bpb = 0) (hle : b ≤ c) (hlt : c < b + bpb) (hsize : c < sb.size)
    (h : (!(decide (b + (c - b) < sb.size) &&
      !(s.data (sb.bblock b)).bit (c - b))) = true) : s.used sb c = true := by
  rw [Nat.add_sub_cancel' hle, decide_eq_true hsize, Bool.true_and, Bool.not_not] at h
  rw [← Nat.add_sub_cancel' hle, used_add hb (by omega), h]

theorem ballocInner_some (hb : b % bpb = 0)
    {bi : ℕ} (h : ballocInner sb (s.data (sb.bblock b)) b = some bi) : b + bi < sb.size ∧
    s.used sb (b + bi) = false ∧ ∀ c, b ≤ c → c < b + bi → s.used sb c = true := by
  rw [ballocInner, List.find?_range_eq_some] at h
  obtain ⟨hbi, hmem, hmin⟩ := h
  rw [Bool.and_eq_true, decide_eq_true_eq, Bool.not_eq_true'] at hbi
  rw [List.mem_range] at hmem
  refine ⟨hbi.1, (used_add hb hmem).trans hbi.2, ?_⟩
  intro c hle hlt
  exact used_of_skipped hb hle (by omega) (by omega) (hmin (c - b) (by omega))

theorem ballocInner_none (hb : b % bpb = 0) (h : ballocInner sb (s.data (sb.bblock b)) b = none)
    (hle : b ≤ c) (hlt : c < b + bpb) (hsize : c < sb.size) : s.used sb c = true := by
  rw [ballocInner, List.find?_range_eq_none] at h
  exact used_of_skipped hb hle hlt hsize (h (c - b) (by omega))

/-- `b` is the first free block. -/
def BlockStore.FirstFree (sb : BitmapArea) (s : BlockStore) (b : ℕ) : Prop :=
  b < sb.size ∧ s.used sb b = false ∧ ∀ c < b, s.used sb c = true

theorem ballocLoop_spec (rounds : ℕ) (hb : b % bpb = 0) (hrounds : sb.size ≤ b + rounds * bpb)
    (hbelow : ∀ c < b, c < sb.size → s.used sb c = true) : (∀ c, ballocLoop sb s rounds b = some c →
    s.FirstFree sb c) ∧ (ballocLoop sb s rounds b = none → ∀ c < sb.size, s.used sb c = true) := by
  induction rounds generalizing b with
  | zero => exact ⟨nofun, fun _ c hc => hbelow c (by omega) hc⟩
  | succ rounds ih =>
    rw [ballocLoop]
    by_cases hlt : b < sb.size
    · rw [if_pos hlt]
      cases h : ballocInner sb (s.data (sb.bblock b)) b with
      | some bi =>
        obtain ⟨hsize, hfree, hmin⟩ := ballocInner_some hb h
        refine ⟨?_, nofun⟩
        rintro _ ⟨⟩
        refine ⟨hsize, hfree, ?_⟩
        intro c hc
        by_cases hcb : c < b
        · exact hbelow c hcb (by omega)
        · exact hmin c (by omega) hc
      | none =>
        refine ih (by rw [Nat.add_mod_right]; exact hb) (by rw [Nat.succ_mul] at hrounds; omega) ?_
        intro c hc hsize
        by_cases hcb : c < b
        · exact hbelow c hcb hsize
        · exact ballocInner_none hb h (by omega) hc hsize
    · rw [if_neg hlt]
      exact ⟨nofun, fun _ c hc => hbelow c (by omega) hc⟩

theorem BlockStore.FirstFree.unique (hb : s.FirstFree sb b) (hc : s.FirstFree sb c) : b = c := by
  rcases Nat.lt_trichotomy b c with hlt | rfl | hlt
  · exact absurd (hc.2.2 b hlt) (by simp [hb.2.1])
  · rfl
  · exact absurd (hb.2.2 c hlt) (by simp [hc.2.1])

/-- The state after `balloc` has found block `b`. -/
def BlockStore.taken (sb : BitmapArea) (s : BlockStore) (b : ℕ) : BlockStore :=
  bzero b (s.write (sb.bblock b) ((s.data (sb.bblock b)).modifyByte (b % bpb) (· ||| bitMask b)))

theorem balloc_cases (sb : BitmapArea) (s : BlockStore) :
    (∃ b, s.FirstFree sb b ∧ balloc sb s = (b, s.taken sb b)) ∨
      (∀ b < sb.size, s.used sb b = true) ∧ balloc sb s = (0, s) := by
  have hrounds : sb.size ≤ 0 + (sb.size / bpb + 1) * bpb := by
    unfold bpb bsize
    omega
  have hspec := ballocLoop_spec (s := s) _ (Nat.zero_mod bpb) hrounds nofun
  unfold balloc
  cases h : ballocLoop sb s (sb.size / bpb + 1) 0 with
  | none => exact Or.inr ⟨hspec.2 h, rfl⟩
  | some b => exact Or.inl ⟨b, hspec.1 b h, rfl⟩

theorem used_write {d : Block} (f : Bool → Bool → Bool) (hf : ∀ x, f x false = x)
    (hd : ∀ k < bpb, d.bit k = f ((s.data (sb.bblock b)).bit k) (k == b % bpb)) :
    (s.write (sb.bblock b) d).used sb c = f (s.used sb c) (c == b) := by
  have hlt : c % bpb < bpb := Nat.mod_lt _ (by decide)
  unfold BlockStore.used BlockStore.write
  dsimp only
  by_cases hblock : sb.bblock c = sb.bblock b
  · rw [hblock, update_self, hd _ hlt]
    congr 1
    rw [Bool.eq_iff_iff, beq_iff_eq, beq_iff_eq]
    unfold BitmapArea.bblock bpb bsize at *
    omega
  · have hne : c ≠ b := by rintro rfl; exact hblock rfl
    rw [update_of_ne hblock, beq_false_of_ne hne, hf]

theorem used_bfree (hb : s.used sb b = true) : ∃ t, bfree sb b s = some t ∧
      (∀ c, t.used sb c = (s.used sb c && !(c == b))) ∧
      ∀ n, n ≠ sb.bblock b → t.data n = s.data n := by
  refine ⟨_, if_pos hb, fun c => ?_, fun n hn => update_of_ne hn _ _⟩
  refine used_write (fun x y => x && !y) (fun x => by simp) fun k hk => ?_
  rw [← bitMask_mod]
  exact Block.bit_clear _ (Nat.mod_lt _ (by decide)) hk

/-- Block 0 and the blocks of the bitmap are marked. -/
def BlockStore.MetaUsed (sb : BitmapArea) (s : BlockStore) : Prop :=
  ∀ b < sb.size, (b = 0 ∨ ∃ c < sb.size, b = sb.bblock c) → s.used sb b = true

theorem BlockStore.FirstFree.apart (h : s.MetaUsed sb)
    (hb : s.FirstFree sb b) : b ≠ 0 ∧ ∀ c < sb.size, sb.bblock c ≠ b := by
  have hnot := h b hb.1
  rw [hb.2.1] at hnot
  refine ⟨fun h0 => by simpa using hnot (Or.inl h0), ?_⟩
  rintro c hc rfl
  simpa using hnot (Or.inr ⟨c, hc, rfl⟩)

theorem BlockStore.FirstFree.taken (h : s.MetaUsed sb) (hb : s.FirstFree sb b) :
    (∀ k < bpb, ((s.taken sb b).data (sb.bblock b)).bit k =
        ((s.data (sb.bblock b)).bit k || k == b % bpb)) ∧
      ∀ c < sb.size, (s.taken sb b).used sb c = (s.used sb c || c == b) := by
  have hset : ∀ k < bpb, ((s.data (sb.bblock b)).modifyByte (b % bpb) (· ||| bitMask b)).bit k =
        ((s.data (sb.bblock b)).bit k || k == b % bpb) := by
    intro k hk
    rw [← bitMask_mod]
    exact Block.bit_set _ (Nat.mod_lt _ (by decide)) hk
  -- The block that is zeroed is not one of the bitmap.
  have hzero : ∀ c < sb.size, (s.taken sb b).data (sb.bblock c) =
    (s.write (sb.bblock b) ((s.data (sb.bblock b)).modifyByte (b % bpb) (· ||| bitMask b))).data
    (sb.bblock c) := fun c hc => update_of_ne ((hb.apart h).2 c hc) _ _
  constructor
  · intro k hk
    rw [hzero b hb.1, ← hset k hk]
    congr 1
    exact update_self _ _ _
  · intro c hc
    rw [BlockStore.used, hzero c hc]
    exact used_write (· || ·) Bool.or_false hset

/-- `balloc` takes the first free block and nothing else, and `bfree` gives a
block back. -/
theorem bitmap_allocator (sb : BitmapArea) (s : BlockStore)
    (hmeta : ∀ b < sb.size, (b = 0 ∨ ∃ c < sb.size, b = sb.bblock c) → s.used sb b = true) :
    (balloc sb s = (0, s) ↔ ∀ b < sb.size, s.used sb b = true) ∧
    (∀ b < sb.size, s.used sb b = false → (∀ c < b, s.used sb c = true) → (balloc sb s).1 = b ∧
      (∀ k < bpb, ((balloc sb s).2.data (sb.bblock b)).bit k =
        ((s.data (sb.bblock b)).bit k || k == b % bpb)) ∧
      (∀ c < sb.size, (balloc sb s).2.used sb c = (s.used sb c || c == b)) ∧
      (balloc sb s).2.data b = (fun _ => 0) ∧
      (∀ n, n ≠ b → n ≠ sb.bblock b → (balloc sb s).2.data n = s.data n) ∧
      ∃ t, bfree sb b (balloc sb s).2 = some t ∧ ∀ c < sb.size, t.used sb c = s.used sb c) ∧
    ∀ b < sb.size, s.used sb b = true → ∃ t, bfree sb b s = some t ∧
        (∀ c, t.used sb c = (s.used sb c && !(c == b))) ∧
        (∀ n, n ≠ sb.bblock b → t.data n = s.data n) ∧
        ((∀ c < b, s.used sb c = true) → (balloc sb t).1 = b) := by
  refine ⟨⟨?_, ?_⟩, ?_, ?_⟩
  · intro h
    rcases balloc_cases sb s with ⟨b, hb, heq⟩ | ⟨hfull, -⟩
    · rw [heq, Prod.mk.injEq] at h
      exact absurd h.1 (hb.apart hmeta).1
    · exact hfull
  · intro hfull
    rcases balloc_cases sb s with ⟨b, hb, -⟩ | ⟨-, heq⟩
    · exact absurd (hfull b hb.1) (by simp [hb.2.1])
    · exact heq
  · intro b hsize hfree hmin
    have hb : s.FirstFree sb b := ⟨hsize, hfree, hmin⟩
    rcases balloc_cases sb s with ⟨b', hb', heq⟩ | ⟨hfull, -⟩
    · obtain rfl := hb.unique hb'
      obtain ⟨hbits, hused⟩ := hb.taken hmeta
      rw [heq]
      have hself : (s.taken sb b).used sb b = true := by simp [hused b hsize]
      obtain ⟨t, ht, hclear, -⟩ := used_bfree hself
      refine ⟨rfl, hbits, hused, update_self _ _ _, ?_, t, ht, ?_⟩
      · intro n hn hn'
        exact (update_of_ne hn _ _).trans (update_of_ne hn' _ _)
      · intro c hc
        rw [hclear c, hused c hc]
        by_cases hcb : c = b
        · simp [hcb, hfree]
        · rw [beq_false_of_ne hcb, Bool.or_false, Bool.not_false, Bool.and_true]
    · exact absurd (hfull b hsize) (by simp [hfree])
  · intro b hsize hb
    obtain ⟨t, ht, hclear, hframe⟩ := used_bfree hb
    refine ⟨t, ht, hclear, hframe, ?_⟩
    intro hmin
    have hfirst : t.FirstFree sb b := by
      refine ⟨hsize, by simp [hclear b], fun c hc => ?_⟩
      rw [hclear c, hmin c hc, beq_false_of_ne hc.ne]
      rfl
    rcases balloc_cases sb t with ⟨b', hb', heq⟩ | ⟨hfull, -⟩
    · rw [heq, hfirst.unique hb']
    · exact absurd (hfull b hsize) (by simp [hfirst.2.1])

/-- A bitmap of one block, block 1, with the blocks below 2 marked. -/
def smallBitmap : BlockStore where
  data := update (fun _ _ => 0) 1 (update (fun _ => 0) 0 3)
  logged := ∅

theorem small_bitmap_allocator : (balloc ⟨100, 1, by decide⟩ smallBitmap).1 = 2 :=
  ((bitmap_allocator ⟨100, 1, by decide⟩ smallBitmap (by
    rintro b - (rfl | ⟨c, hc, rfl⟩)
    · decide
    · have hdiv : c / bpb = 0 := Nat.div_eq_of_lt (hc.trans (by decide))
      rw [BitmapArea.bblock, hdiv]
      decide)).2.1 2 (by decide) (by decide) (by decide)).1

end

end Xv6
