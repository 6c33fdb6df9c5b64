import Xv6.Lib.Ring

/-!
# The console's line discipline

`consoleintr` edits the line that is being typed, in `buf[w..e)`, and commits
it by moving `w`; `consoleread` takes committed bytes from `buf[r..w)`.  The
indices are 32-bit counters that wrap, and the slot of an index is its
remainder modulo `INPUT_BUF_SIZE`.

`Tty` says what the line discipline is for, on lists.
-/

namespace Xv6

def inputBufSize : ℕ := 128

instance : NeZero inputBufSize := ⟨by decide⟩

/-- `C(x)`. -/
def ctrl (x : Char) : UInt8 := UInt8.ofNat (x.toNat - '@'.toNat)

def newline : UInt8 := UInt8.ofNat '\n'.toNat

/-- `cons`, with the count of keyboard interrupts and what has been echoed. -/
structure Cons where
  buf : Fin inputBufSize → UInt8
  r : UInt32
  w : UInt32
  e : UInt32
  keyboardIntCnt : Int32
  echo : List UInt8

namespace Cons

def slot (c : UInt32) : Fin inputBufSize := Fin.ofNat inputBufSize c.toNat

/-- `cons.e--; consputc(BACKSPACE)`. -/
def erase (s : Cons) : Cons := { s with e := s.e - 1, echo := s.echo ++ [8, 32, 8] }

theorem sub_one_lt {s : Cons} (h : s.e ≠ s.w) :
    (s.erase.e - s.erase.w).toNat < (s.e - s.w).toNat := by
  have hne : s.e.toNat ≠ s.w.toNat := fun heq => h (UInt32.toNat_inj.mp heq)
  simp only [erase, UInt32.toNat_sub, UInt32.toNat_one]
  have := s.e.toNat_lt
  have := s.w.toNat_lt
  omega

/-- The loop of `C('U')`. -/
def killLine (s : Cons) : Cons :=
  if s.e ≠ s.w ∧ s.buf (slot (s.e - 1)) ≠ newline then s.erase.killLine
  else s
termination_by (s.e - s.w).toNat
decreasing_by
  rename_i h
  exact sub_one_lt h.1

/-- `consputc(c); cons.buf[cons.e++ % INPUT_BUF_SIZE] = c`. -/
def store (c : UInt8) (s : Cons) : Cons :=
  { s with
    buf := Function.update s.buf (slot s.e) c
    e := s.e + 1
    echo := s.echo ++ [c] }

/-- The second result says that `wakeup(&cons.r)` has been called. -/
def consoleintr (c : UInt8) (s : Cons) : Cons × Bool :=
  let s := { s with keyboardIntCnt := s.keyboardIntCnt + 1 }
  if c = ctrl 'P' then (s, false)
  else if c = ctrl 'U' then (s.killLine, false)
  else if c = ctrl 'H' ∨ c = 0x7f then
    (if s.e ≠ s.w then s.erase else s, false)
  else if c ≠ 0 ∧ s.e - s.r < UInt32.ofNat inputBufSize then
    let c := if c = UInt8.ofNat '\r'.toNat then newline else c
    let s := s.store c
    if c = newline ∨ c = ctrl 'D' ∨ s.e - s.r = UInt32.ofNat inputBufSize then
      ({ s with w := s.e }, true)
    else (s, false)
  else (s, false)

def unread (s : Cons) : List UInt8 := Ring.window (2 ^ 32) s.buf s.r.toNat s.w.toNat

def line (s : Cons) : List UInt8 := Ring.window (2 ^ 32) s.buf s.w.toNat s.e.toNat

end Cons

/-! ## The abstract line discipline -/

/-- `taken` of the committed bytes have been read. -/
structure Tty where
  committed : List UInt8
  line : List UInt8
  taken : ℕ

namespace Tty

def unread (t : Tty) : List UInt8 := t.committed.drop t.taken

def HasRoom (t : Tty) : Prop := t.unread.length + t.line.length < inputBufSize

instance (t : Tty) : Decidable t.HasRoom := Nat.decLt _ _

def commit (t : Tty) : Tty := { t with committed := t.committed ++ t.line, line := [] }

def append (c : UInt8) (t : Tty) : Tty := { t with line := t.line ++ [c] }

/-- An ordinary character: a line is committed by newline, by ^D and when
nothing more would fit. -/
def type (c : UInt8) (t : Tty) : Tty := if t.HasRoom then
    let t := t.append c
    if c = newline ∨ c = ctrl 'D' ∨ ¬t.HasRoom then t.commit else t
  else t

/-- What one character does; editing changes the line only. -/
def input (c : UInt8) (t : Tty) : Tty := if c = 0 ∨ c = ctrl 'P' then t
  else if c = ctrl 'U' then { t with line := [] }
  else if c = ctrl 'H' ∨ c = 0x7f then { t with line := t.line.dropLast }
  else t.type (if c = UInt8.ofNat '\r'.toNat then newline else c)

def take (t : Tty) : Tty := { t with taken := t.taken + 1 }

end Tty

/-! ## The buffer holds the lists -/

namespace Cons

/-- The buffer has the committed bytes, and after them the line. -/
structure Holds (s : Cons) (unread line : List UInt8) : Prop where
  committed : (s.w - s.r).toNat = unread.length
  edited : (s.e - s.r).toNat = unread.length + line.length
  fits : unread.length + line.length ≤ inputBufSize
  bytes : Ring.window (2 ^ 32) s.buf s.r.toNat s.e.toNat = unread ++ line

variable {s : Cons} {unread line : List UInt8} {c : UInt8}

theorem count_eq (a b : UInt32) : Ring.count (2 ^ 32) a.toNat b.toNat = (b - a).toNat :=
  (UInt32.toNat_sub b a).symm

section

variable (h : s.Holds unread line)
include h

theorem Holds.unread_eq : s.unread = unread := by
  have hle : Ring.count (2 ^ 32) s.r.toNat s.w.toNat ≤ Ring.count (2 ^ 32) s.r.toNat s.e.toNat := by
    rw [count_eq, count_eq, h.committed, h.edited]
    omega
  rw [Cons.unread, Ring.window_eq_take s.buf hle, h.bytes, count_eq, h.committed, List.take_left]

theorem Holds.line_eq : s.line = line := by
  have hle : Ring.count (2 ^ 32) s.r.toNat s.w.toNat ≤ Ring.count (2 ^ 32) s.r.toNat s.e.toNat := by
    rw [count_eq, count_eq, h.committed, h.edited]
    omega
  rw [Cons.line, Ring.window_eq_drop s.buf s.r.toNat_lt s.w.toNat_lt hle,
    h.bytes, count_eq, h.committed, List.drop_left]

theorem Holds.line_eq_nil_iff : s.e = s.w ↔ line = [] := by
  have hw := h.committed
  have he := h.edited
  rw [← List.length_eq_zero_iff]
  constructor
  · intro heq
    rw [heq] at he
    omega
  · intro hnil
    apply UInt32.toNat_inj.mp
    rw [UInt32.toNat_sub] at hw he
    have := s.e.toNat_lt
    have := s.w.toNat_lt
    have := s.r.toNat_lt
    omega

theorem Holds.unread_eq_nil_iff : s.r = s.w ↔ unread = [] := by
  have hw := h.committed
  rw [← List.length_eq_zero_iff]
  constructor
  · intro heq
    rw [← heq, UInt32.sub_self] at hw
    exact hw.symm
  · intro hnil
    apply UInt32.toNat_inj.mp
    rw [UInt32.toNat_sub] at hw
    have := s.w.toNat_lt
    have := s.r.toNat_lt
    omega

theorem Holds.lt_iff : s.e - s.r < UInt32.ofNat inputBufSize ↔
      unread.length + line.length < inputBufSize := by
  rw [UInt32.lt_iff_toNat_lt, h.edited]
  rfl

theorem Holds.full_iff : s.e - s.r = UInt32.ofNat inputBufSize ↔
      ¬unread.length + line.length < inputBufSize := by
  have hfits := h.fits
  rw [← UInt32.toNat_inj, h.edited]
  change _ = inputBufSize ↔ _
  omega

end

theorem Holds.erase (h : s.Holds unread (line ++ [c])) :
    s.buf (slot (s.e - 1)) = c ∧ s.erase.Holds unread line := by
  have he := h.edited
  have hfits := h.fits
  rw [List.length_append, List.length_singleton, ← Nat.add_assoc] at he hfits
  have he' : (s.e - 1 - s.r).toNat = unread.length + line.length := by
    simp only [UInt32.toNat_sub, UInt32.toNat_one] at he ⊢
    have := s.e.toNat_lt
    have := s.r.toNat_lt
    omega
  have hle : Ring.count (2 ^ 32) s.r.toNat (s.e - 1).toNat ≤
      Ring.count (2 ^ 32) s.r.toNat s.e.toNat := by
    rw [count_eq, count_eq, he, he']
    omega
  have hbytes := h.bytes
  constructor
  · have hlast := Ring.window_eq_drop s.buf s.r.toNat_lt (s.e - 1).toNat_lt hle
    rw [hbytes, count_eq, he', ← List.append_assoc, List.drop_left' List.length_append] at hlast
    have hone : Ring.count (2 ^ 32) (s.e - 1).toNat s.e.toNat = 1 := by
      rw [count_eq]
      simp only [UInt32.toNat_sub, UInt32.toNat_one]
      have := s.e.toNat_lt
      omega
    unfold Ring.window at hlast
    rw [hone] at hlast
    have hlt := (s.e - 1).toNat_lt
    simpa [slot, Nat.mod_eq_of_lt hlt] using hlast
  · refine ⟨h.committed, he', by omega, ?_⟩
    change Ring.window (2 ^ 32) s.buf s.r.toNat (s.e - 1).toNat = _
    rw [Ring.window_eq_take s.buf hle, hbytes, count_eq, he',
      ← List.append_assoc, List.take_left' List.length_append]

theorem Holds.killLine (h : s.Holds unread line) (hline : newline ∉ line) :
    s.killLine.Holds unread [] := by
  induction line using List.reverseRecOn generalizing s with
  | nil =>
    rw [Cons.killLine, if_neg]
    · exact h
    · exact fun hne => hne.1 (h.line_eq_nil_iff.mpr rfl)
  | append_singleton line c ih =>
    have hne : s.e ≠ s.w := by
      rw [ne_eq, h.line_eq_nil_iff]
      simp
    obtain ⟨hc, herase⟩ := h.erase
    rw [List.mem_append, List.mem_singleton, not_or] at hline
    rw [Cons.killLine, if_pos ⟨hne, hc ▸ Ne.symm hline.2⟩]
    exact ih herase hline.1

theorem Holds.store (h : s.Holds unread line) (hroom : unread.length + line.length < inputBufSize)
    (c : UInt8) : (s.store c).Holds unread (line ++ [c]) := by
  have he := h.edited
  have hsize : inputBufSize = 128 := rfl
  refine ⟨h.committed, ?_, by simpa [← Nat.add_assoc] using hroom, ?_⟩
  · change (s.e + 1 - s.r).toNat = _
    simp only [UInt32.toNat_sub, UInt32.toNat_add, UInt32.toNat_one,
      List.length_append, List.length_singleton] at he ⊢
    have := s.e.toNat_lt
    have := s.r.toNat_lt
    omega
  · change Ring.window (2 ^ 32) (Function.update s.buf (slot s.e) c) s.r.toNat (s.e + 1).toNat = _
    rw [UInt32.toNat_add, UInt32.toNat_one]
    have hpush := Ring.window_push (w := s.e.toNat) s.buf c (by decide : inputBufSize ∣ 2 ^ 32)
      (by decide) s.r.toNat_lt (by rw [count_eq, he]; exact hroom)
    rw [h.bytes, List.append_assoc] at hpush
    exact hpush

theorem Holds.commit (h : s.Holds unread line) :
    ({ s with w := s.e } : Cons).Holds (unread ++ line) [] := by
  have he := h.edited
  have hfits := h.fits
  refine ⟨?_, ?_, ?_, ?_⟩
  · simpa using he
  · simpa using he
  · simpa using hfits
  · simpa using h.bytes

theorem Holds.pop (h : s.Holds (c :: unread) line) : s.buf (slot s.r) = c ∧
      ({ s with r := s.r + 1 } : Cons).Holds unread line := by
  have hw := h.committed
  have he := h.edited
  have hfits := h.fits
  rw [List.length_cons] at hw he hfits
  have hpop := Ring.window_pop s.buf s.r.toNat_lt s.e.toNat_lt (by rw [count_eq, he]; omega)
  rw [h.bytes, List.cons_append, List.cons.injEq] at hpop
  have hr : (s.r + 1).toNat = (s.r.toNat + 1) % 2 ^ 32 := by
    rw [UInt32.toNat_add, UInt32.toNat_one]
  refine ⟨hpop.1.symm, ?_, ?_, by omega, ?_⟩
  · change (s.w - (s.r + 1)).toNat = _
    rw [UInt32.toNat_sub] at hw ⊢
    have := s.w.toNat_lt
    have := s.r.toNat_lt
    omega
  · change (s.e - (s.r + 1)).toNat = _
    rw [UInt32.toNat_sub] at he ⊢
    have := s.e.toNat_lt
    have := s.r.toNat_lt
    omega
  · change Ring.window (2 ^ 32) s.buf (s.r + 1).toNat s.e.toNat = _
    rw [hr]
    exact hpop.2.symm

end Cons

namespace Tty

/-- The buffer agrees with the lists, and the line has no newline. -/
structure Agrees (t : Tty) (s : Cons) : Prop where
  holds : s.Holds t.unread t.line
  line : newline ∉ t.line
  taken : t.taken ≤ t.committed.length

variable {t : Tty} {s : Cons}

theorem unread_commit (htaken : t.taken ≤ t.committed.length) :
    t.commit.unread = t.unread ++ t.line := by
  rw [unread, commit, List.drop_append_of_le_length htaken, unread]

theorem Agrees.type {c : UInt8} {w : Bool} {s' : Cons} (h : t.Agrees s)
    (hroom : s.e - s.r < UInt32.ofNat inputBufSize)
    (hs' : (if c = newline ∨ c = ctrl 'D' ∨
        (s.store c).e - (s.store c).r = UInt32.ofNat inputBufSize then
      ({ s.store c with w := (s.store c).e }, true)
    else (s.store c, false)) = (s', w)) : (t.type c).Agrees s' := by
  have hlt : t.HasRoom := h.holds.lt_iff.mp hroom
  have hstore := h.holds.store hlt c
  have hfull : (s.store c).e - (s.store c).r = UInt32.ofNat inputBufSize ↔
      ¬(t.append c).HasRoom := hstore.full_iff
  rw [Tty.type, if_pos hlt]
  dsimp only
  by_cases hend : c = newline ∨ c = ctrl 'D' ∨ ¬(t.append c).HasRoom
  · rw [if_pos (by rwa [hfull])] at hs'
    rw [if_pos hend]
    cases hs'
    refine ⟨?_, List.not_mem_nil, ?_⟩
    · rw [unread_commit (t := t.append c) h.taken]
      exact hstore.commit
    · change t.taken ≤ (t.committed ++ _).length
      rw [List.length_append]
      exact Nat.le_add_right_of_le h.taken
  · rw [if_neg (by rwa [hfull])] at hs'
    rw [if_neg hend]
    cases hs'
    refine ⟨hstore, ?_, h.taken⟩
    have hc : newline ≠ c := fun heq => hend (.inl heq.symm)
    simpa [append, hc] using h.line

theorem Agrees.dropLast (h : t.Agrees s) : ({ t with line := t.line.dropLast } : Tty).Agrees
      (if s.e ≠ s.w then s.erase else s) := by
  refine ⟨?_, fun hmem => h.line (List.mem_of_mem_dropLast hmem), h.taken⟩
  change (if s.e ≠ s.w then s.erase else s).Holds t.unread t.line.dropLast
  have hholds := h.holds
  by_cases hnil : t.line = []
  · rw [if_neg (not_not.mpr (hholds.line_eq_nil_iff.mpr hnil))]
    rw [hnil] at hholds ⊢
    exact hholds
  · rw [if_pos (hholds.line_eq_nil_iff.not.mpr hnil)]
    rw [← List.dropLast_append_getLast hnil] at hholds
    exact hholds.erase.2

theorem Agrees.input (h : t.Agrees s) (c : UInt8) : (t.input c).Agrees (s.consoleintr c).1 := by
  have h' : t.Agrees { s with keyboardIntCnt := s.keyboardIntCnt + 1 } :=
    ⟨⟨h.holds.committed, h.holds.edited, h.holds.fits, h.holds.bytes⟩, h.line, h.taken⟩
  unfold Cons.consoleintr
  generalize { s with keyboardIntCnt := s.keyboardIntCnt + 1 } = u at h'
  dsimp only
  unfold Tty.input
  by_cases hP : c = ctrl 'P'
  · simp only [if_pos hP, if_pos (Or.inr hP : c = 0 ∨ c = ctrl 'P')]
    exact h'
  by_cases hzero : c = 0
  · subst hzero
    exact h'
  simp only [if_neg hP, if_neg (not_or.mpr ⟨hzero, hP⟩)]
  by_cases hU : c = ctrl 'U'
  · simp only [if_pos hU]
    exact ⟨h'.holds.killLine h'.line, List.not_mem_nil, h'.taken⟩
  simp only [if_neg hU]
  by_cases hH : c = ctrl 'H' ∨ c = 0x7f
  · simp only [if_pos hH]
    exact h'.dropLast
  simp only [if_neg hH]
  by_cases hroom : c ≠ 0 ∧ u.e - u.r < UInt32.ofNat inputBufSize
  · rw [if_pos hroom]
    exact h'.type hroom.2 rfl
  · have hnot : ¬t.HasRoom := fun hlt => hroom ⟨hzero, h'.holds.lt_iff.mpr hlt⟩
    rw [if_neg hroom, Tty.type, if_neg hnot]
    exact h'

theorem input_committed (c : UInt8) (t : Tty) : (t.input c).taken = t.taken ∧
      t.committed <+: (t.input c).committed := by
  have htype : ∀ c, (t.type c).taken = t.taken ∧ t.committed <+: (t.type c).committed := by
    intro c
    unfold type
    dsimp only
    split
    · split
      · exact ⟨rfl, List.prefix_append _ _⟩
      · exact ⟨rfl, List.prefix_rfl⟩
    · exact ⟨rfl, List.prefix_rfl⟩
  unfold input
  split
  · exact ⟨rfl, List.prefix_rfl⟩
  split
  · exact ⟨rfl, List.prefix_rfl⟩
  split
  · exact ⟨rfl, List.prefix_rfl⟩
  · exact htype _

end Tty

end Xv6
