import Xv6.LogExclusive

/-!
# Buffers for `commit`

In runs in which only operations read blocks, `commit` never waits for a lock.
It needs one buffer beside the pinned ones, for a log block or the header; with
`NBUF` equal to `LOGSIZE` there is none exactly if the operations have logged
`NBUF` distinct blocks.
-/

namespace Xv6

open Function (update update_self)
open LogState LogPc LogGeometry Machine

/-- Operations do not end with as many logged blocks as there are buffers. -/
def BuffersLeft : LogLabel → LogState → Prop
  | .endOp _, s => (loggedBlocks s.ops).length ≠ nbuf
  | _, _ => True

instance : ∀ l s, Decidable (BuffersLeft l s)
  | .endOp _, _ => inferInstanceAs (Decidable (_ ≠ _))
  | .crash, _ | .beginOp _, _ | .finish _, _ | .bread .., _ | .acquire _, _
  | .fill _, _ | .modify .., _ | .logWrite .., _ | .bwrite .., _
  | .brelse .., _ | .drop _, _ | .exec _, _ => instDecidableTrue

def LogState.nextLabel (p : ℕ) (s : LogState) : LogLabel :=
  match s.call p with
  | .none => .exec p
  | .want _ _ => .acquire p
  | .check _ _ => .fill p
  | .drop _ => .drop p

/-! ## A free buffer -/

theorem CacheInv.exists_free {c : Bcache} {call : ℕ → Call} {pins : List ℕ}
    (h : CacheInv c call [] pins) (hroom : pins.length < nbuf) :
    ∃ i ∈ c.order, (c.buf i).refcnt = 0 := by
  by_contra hnone
  push Not at hnone
  -- then every buffer is pinned, and different buffers by different blocks
  have hpinned : ∀ i < nbuf, (c.buf i).dev = rootDev ∧ (c.buf i).blockno ∈ pins := by
    intro i hi
    have hrefcnt := h.refcnt i hi
    have hne := hnone i ((h.mem_order i).mpr hi)
    by_contra hnot
    rw [pinCount, if_neg hnot] at hrefcnt
    exact hne hrefcnt
  have hnodup : ((List.range nbuf).map fun i => (c.buf i).blockno).Nodup := by
    refine List.Nodup.map_on ?_ List.nodup_range
    intro i hi j hj heq
    have hi := List.mem_range.mp hi
    have hj := List.mem_range.mp hj
    exact h.unique i j hi hj (hpinned i hi).1 (hpinned j hj).1 heq
  have hsub : ((List.range nbuf).map fun i => (c.buf i).blockno) ⊆ pins := by
    intro b hb
    obtain ⟨i, hi, rfl⟩ := List.mem_map.mp hb
    exact (hpinned i (List.mem_range.mp hi)).2
  have hle := (hnodup.subperm hsub).length_le
  rw [List.length_map, List.length_range] at hle
  omega

theorem bget_ne_none_of_pinned {c : Bcache} {call : ℕ → Call} {refs : List (ℕ × ℕ)} {pins : List ℕ}
    {b : ℕ} (h : CacheInv c call refs pins) (hb : b ∈ pins) : bget rootDev b c ≠ none := by
  intro hnone
  obtain ⟨i, hi, hdev, hblock⟩ := h.pinned b hb
  exact (bget_eq_none.mp hnone).1 i ((h.mem_order i).mpr hi) hdev hblock

/-! ## `commit` on its own -/

/-- Process `p` runs `commit`, at statement `pc`, with a buffer to spare. -/
structure LogState.Solo
    (g : LogGeometry) (s : LogState) (p : ℕ) (pc : LogPc) : Prop where
  mode : s.mode p = .logging pc
  recovering : pc.recovering = false
  panic : s.panic = none
  sound : s.Sound g
  exclusive : s.Exclusive g
  room : s.pins.length < nbuf

def Call.rank : Call → ℕ
  | .none => 3
  | .want _ _ => 2
  | .check _ _ => 1
  | .drop _ => 1

def LogState.rank (p : ℕ) (s : LogState) : ℕ :=
  match s.mode p with
  | .logging pc => 4 * pc.stage s.log.lh.length + (s.call p).rank
  | _ => 0

variable {s s' : LogState} {g : LogGeometry}

theorem LogState.rank_lt {p : ℕ} {pc pc' : LogPc} {call call' : Call}
    (hmode : s.mode p = .logging pc) (hcall : s.call p = call)
    (hmode' : s'.mode p = .logging pc') (hcall' : s'.call p = call')
    (hlt : 4 * pc'.stage s'.log.lh.length + call'.rank <
      4 * pc.stage s.log.lh.length + call.rank) : s'.rank p < s.rank p := by
  simpa [LogState.rank, hmode, hcall, hmode', hcall'] using hlt

theorem LogPc.wanted_cases {lh : List ℕ} {pc : LogPc} {b : ℕ} (hrec : pc.recovering = false)
    (hrange : pc.inRange lh.length) (hwanted : pc.wanted g lh = some b) :
    pc.held g lh = [] ∨ b ∈ lh.drop (pc.unpinned lh.length) := by
  have hmem : ∀ k tail, k ≤ tail → tail < lh.length → lh.getD tail 0 ∈ lh.drop k := by
    intro k tail hle hlt
    rw [List.getD_eq_getElem _ _ hlt, List.mem_drop_iff_getElem]
    refine ⟨tail - k, by omega, ?_⟩
    congr 1
    omega
  cases pc with
  | writeLogFrom tail dst =>
    obtain rfl := Option.some.inj hwanted
    exact Or.inr (hmem 0 tail (Nat.zero_le _) hrange)
  | installDst r tail lbuf =>
    obtain rfl := Option.some.inj hwanted
    exact Or.inr (hmem tail tail (le_refl _) hrange)
  | _ => first | contradiction | exact Or.inl rfl

theorem LogPc.wanted_not_held {lh : List ℕ} {pc : LogPc} {b : ℕ}
    (hlist : LogList g lh) (hrange : pc.inRange lh.length)
    (hwanted : pc.wanted g lh = some b) : ∀ h ∈ pc.held g lh, h.2 ≠ b := by
  have hne : ∀ tail, tail < lh.length → g.logBlock tail ≠ lh.getD tail 0 := by
    intro tail hlt heq
    have hspace := hlist.space
    rw [List.getD_eq_getElem _ _ hlt] at heq
    apply hlist.home _ (List.getElem_mem hlt)
    rw [← heq]
    unfold inLog logBlock
    omega
  cases pc with
  | writeLogFrom tail dst | installDst r tail lbuf =>
    obtain rfl := Option.some.inj hwanted
    simpa [LogPc.held] using hne tail hrange
  | _ => first | contradiction | simp [LogPc.held]

section

variable {g : LogGeometry} {s : LogState} {p : ℕ} {pc : LogPc}

theorem LogState.Solo.list (h : s.Solo g p pc) : LogList g s.log.lh := h.sound.journal.list
    (h.sound.admission.booted_of_commit h.mode h.recovering)

theorem LogState.Solo.at (h : s.Solo g p pc) : s.LoggerAt g p pc :=
  h.sound.journal.logger p pc h.mode

theorem LogState.Solo.of_step {s' : LogState}
    {l : LogLabel} {pc' : LogPc} (h : s.Solo g p pc) (hstep : logStep g l s = some s')
    (honly : OperationsOnly l s) (hmode : s'.mode p = .logging pc') (hrec : pc'.recovering = false)
    (hpanic : s'.panic = none) (hroom : s'.pins.length ≤ s.pins.length) : s'.Solo g p pc' := by
  have hmove := (logStep_move hstep).1
  exact ⟨hmode, hrec, hpanic, hmove.sound h.sound, hmove.exclusive h.exclusive h.sound honly,
    lt_of_le_of_lt hroom h.room⟩

theorem LogState.Solo.bget_ne_none {b : ℕ} (h : s.Solo g p pc) (hcall : s.call p = .none)
    (hwanted : pc.wanted g s.log.lh = some b) : Xv6.bget rootDev b s.bcache ≠ none := by
  have hrange := h.at.range
  rw [hcall] at hrange
  rcases wanted_cases h.recovering hrange hwanted with hheld | hpinned
  · -- nothing is locked, so that only the pins count
    have hrefs : s.refs = [] := by
      rw [List.eq_nil_iff_forall_not_mem]
      rintro ⟨q, i⟩ hmem
      obtain rfl : q = p := h.exclusive.refs_of_logger h.sound.admission h.mode _ hmem
      have hcount := h.sound.cache.refs_count q i
      have hpos := List.count_pos_iff.mpr hmem
      have hunlocked : (s.bcache.buf i).lock ≠ some q := by
        intro hlock
        have hlocks := (h.exclusive.logger q pc h.mode).locks i hlock
        rw [hcall] at hlocks
        simp [LogPc.seen, hheld] at hlocks
      rw [if_neg hunlocked, hcall] at hcount
      simp only [Call.holds] at hcount
      omega
    have hcache := h.sound.cache
    rw [hrefs] at hcache
    obtain ⟨i, hi, hzero⟩ := hcache.exists_free h.room
    intro hnone
    exact (bget_eq_none.mp hnone).2 i hi hzero
  · apply bget_ne_none_of_pinned h.sound.cache
    rw [h.at.phase.pins h.recovering]
    exact hpinned

theorem LogState.Solo.unlocked {i b : ℕ} (h : s.Solo g p pc)
    (hcall : s.call p = .want i b) : (s.buf i).lock = none := by
  have hwanted := h.at.wanted i b hcall
  have hrange := h.at.range
  have hlocked := h.at.locked
  rw [hcall] at hrange hlocked
  cases hlock : (s.buf i).lock with
  | none => rfl
  | some q =>
    obtain rfl : q = p := h.exclusive.refs_of_logger h.sound.admission h.mode _
        (h.sound.cache.mem_refs_of_lock hlock)
    have hlocks := (h.exclusive.logger q pc h.mode).locks i hlock
    rw [hcall] at hlocks
    obtain ⟨held, hmem, rfl⟩ := List.mem_map.mp hlocks
    have hblock := (hlocked held hmem).2
    have hwant := h.sound.cache.want q held.1 b hcall
    exact absurd (hblock.symm.trans hwant) (wanted_not_held h.list hrange hwanted held hmem)

theorem logStep_exec (hpanic : s.panic = none)
    (hmode : s.mode p = .logging pc) (hcall : s.call p = .none) (hdone : ∀ r, pc ≠ .done r) :
    logStep g (.exec p) s = some (s.exec g p pc) := by
  cases pc with
  | done r => exact absurd rfl (hdone r)
  | _ => simp only [logStep, hpanic, hmode, hcall]

theorem LogState.Solo.exec (h : s.Solo g p pc) (hcall : s.call p = .none)
    (hdone : ∀ r, pc ≠ .done r) :
    ∃ s' pc', logStep g (.exec p) s = some s' ∧ s'.Solo g p pc' ∧ s'.rank p < s.rank p := by
  have hstep : logStep g (.exec p) s = some (s.exec g p pc) :=
    logStep_exec h.panic h.mode hcall hdone
  have hrange := h.at.range
  have hlocked := h.at.locked
  rw [hcall] at hrange hlocked
  cases hwanted : pc.wanted g s.log.lh with
  | some b =>
    rw [exec_wanted hwanted] at hstep
    rcases s.bget_cases p b with ⟨hnone, _⟩ | ⟨i, c, _, heq⟩
    · exact absurd hnone (h.bget_ne_none hcall hwanted)
    · rw [heq] at hstep
      refine ⟨_, pc, hstep, ?_, ?_⟩
      · exact h.of_step hstep trivial h.mode h.recovering h.panic (le_refl _)
      · refine rank_lt h.mode hcall h.mode (update_self _ _ _) ?_
        simp [Call.rank]
  | none =>
  cases hreleasing : pc.releasing with
  | some i =>
    rw [exec_releasing hreleasing] at hstep
    obtain ⟨b, hheld⟩ : ∃ b, pc.held g s.log.lh = (i, b) :: pc.afterBrelse.held g s.log.lh :=
      held_afterBrelse hreleasing
    have hlock := (hlocked (i, b) (by simp [LogPc.seen, hheld])).1
    rcases s.releasesleep_cases p i with ⟨_, heq⟩ | ⟨hnot, _⟩
    · rw [heq] at hstep
      refine ⟨_, pc, hstep, ?_, ?_⟩
      · exact h.of_step hstep trivial h.mode h.recovering h.panic (le_refl _)
      · refine rank_lt h.mode hcall h.mode (update_self _ _ _) ?_
        simp [Call.rank, setBuf]
    · exact absurd hlock hnot
  | none =>
    obtain ⟨t, pc', hlocal⟩ := exists_local p hwanted hreleasing hdone
    rw [hlocal.exec] at hstep
    have hmode' : (t.goto p pc').mode p = .logging pc' := update_self _ _ _
    have hcall' : (t.goto p pc').call p = .none := by
      change t.call p = .none
      rw [hlocal.call, hcall]
    have hpanic' : (t.goto p pc').panic = none := by
      change t.panic = none
      rw [hlocal.panic fun held hmem => (hlocked held hmem).1, h.panic]
    refine ⟨_, pc', hstep, ?_, ?_⟩
    · exact h.of_step hstep trivial hmode'
        (hlocal.recovering.trans h.recovering) hpanic' hlocal.pins
    · have hstage := hlocal.stage hrange (by
        rintro buf rfl
        exact absurd h.recovering (by simp [LogPc.recovering]))
      apply rank_lt h.mode hcall hmode' hcall'
      change 4 * pc'.stage t.log.lh.length + _ < _
      omega

theorem LogState.Solo.progress (h : s.Solo g p pc) (hdone : ∀ r, pc ≠ .done r) :
    ∃ s' pc', logStep g (s.nextLabel p) s = some s' ∧ s'.Solo g p pc' ∧ s'.rank p < s.rank p := by
  cases hcall : s.call p with
  | none =>
    have hnext : s.nextLabel p = .exec p := by simp [nextLabel, hcall]
    rw [hnext]
    exact h.exec hcall hdone
  | want i b =>
    have hnext : s.nextLabel p = .acquire p := by simp [nextLabel, hcall]
    have hstep : logStep g (.acquire p) s = some (s.acquiresleep p i b) := by
      simp [logStep, h.panic, hcall, h.unlocked hcall]
    rw [hnext]
    refine ⟨_, pc, hstep, ?_, ?_⟩
    · exact h.of_step hstep trivial h.mode h.recovering h.panic (le_refl _)
    · refine rank_lt h.mode hcall h.mode (update_self _ _ _) ?_
      simp [Call.rank, acquiresleep, setBuf]
  | check i b =>
    have hnext : s.nextLabel p = .fill p := by simp [nextLabel, hcall]
    have hstep : logStep g (.fill p) s = some { s.fill p i with
          mode := update s.mode p
            (.logging (pc.afterBread i)) } := by
      simp [logStep, h.panic, hcall, h.mode, Mode.afterBread]
    have hwanted := (h.exclusive.logger p pc h.mode).check i b hcall
    rw [hnext]
    refine ⟨_, pc.afterBread i, hstep, ?_, ?_⟩
    · exact h.of_step hstep trivial
        (update_self _ _ _) (by rw [recovering_afterBread, h.recovering]) h.panic (le_refl _)
    · have hstage : (pc.afterBread i).stage s.log.lh.length <
          pc.stage s.log.lh.length := stage_afterBread hwanted i
      refine rank_lt h.mode hcall (update_self _ _ _) (update_self _ _ _) ?_
      change 4 * (pc.afterBread i).stage s.log.lh.length + 3 < 4 * pc.stage s.log.lh.length + 1
      omega
  | drop i =>
    have hnext : s.nextLabel p = .drop p := by simp [nextLabel, hcall]
    have hstep : logStep g (.drop p) s = some { s.drop p i with
          mode := update s.mode p
            (.logging pc.afterBrelse) } := by
      simp [logStep, h.panic, hcall, h.mode, Mode.afterBrelse]
    have hreleasing := (h.exclusive.logger p pc h.mode).drop i hcall
    have hrange := h.at.range
    rw [hcall] at hrange
    rw [hnext]
    refine ⟨_, pc.afterBrelse, hstep, ?_, ?_⟩
    · exact h.of_step hstep trivial
        (update_self _ _ _) (by rw [recovering_afterBrelse, h.recovering]) h.panic (le_refl _)
    · have hstage : pc.afterBrelse.stage s.log.lh.length < pc.stage s.log.lh.length :=
        stage_afterBrelse hreleasing hrange
      refine rank_lt h.mode hcall (update_self _ _ _) (update_self _ _ _) ?_
      change 4 * pc.afterBrelse.stage s.log.lh.length + 3 < 4 * pc.stage s.log.lh.length + 1
      omega

end

/-! ## When `commit` completes -/

/-- Process `p`, on its own, brings `commit` to its end without a panic. -/
def LogState.Completes (g : LogGeometry) (s : LogState) (p : ℕ) : Prop :=
  ∃ n s', Machine.follow (LogState.nextLabel p) (logStep g) n s = some s' ∧
    s'.panic = none ∧ s'.mode p = .logging (.done false)

section

variable {g : LogGeometry} {s : LogState} {p : ℕ} {pc : LogPc}

theorem LogState.Solo.completes (h : s.Solo g p pc) : s.Completes g p := by
  have hprogress : ∀ t : LogState, (∃ pc, t.Solo g p pc) → ¬t.mode p = .logging (.done false) →
      ∃ t', logStep g (t.nextLabel p) t = some t' ∧
        (∃ pc, t'.Solo g p pc) ∧ t'.rank p < t.rank p := by
    rintro t ⟨pc', ht⟩ hdone
    have hnot : ∀ r, pc' ≠ .done r := by
      rintro r rfl
      cases r with
      | false => exact hdone ht.mode
      | true => exact absurd ht.recovering (by simp [LogPc.recovering])
    obtain ⟨t', pc'', hstep, ht', hlt⟩ := ht.progress hnot
    exact ⟨t', hstep, ⟨pc'', ht'⟩, hlt⟩
  obtain ⟨n, t, hfollow, ⟨pc', ht⟩, hdone⟩ := follow_reaches hprogress ⟨pc, h⟩
  exact ⟨n, t, hfollow, ht.panic, hdone⟩

theorem LogState.Exclusive.call_none (h : s.Exclusive g) (hsound : s.Sound g)
    (hmode : s.mode p = .logging pc) (hwanted : pc.wanted g s.log.lh = none)
    (hreleasing : pc.releasing = none) : s.call p = .none := by
  have hexact := h.logger p pc hmode
  cases hcall : s.call p with
  | none => rfl
  | want j b =>
    have := (hsound.journal.logger p _ hmode).wanted j b hcall
    simp [hwanted] at this
  | check j b =>
    have := hexact.check j b hcall
    simp [hwanted] at this
  | drop j =>
    have := hexact.drop j hcall
    simp [hreleasing] at this

theorem CacheInv.all_pinned {c : Bcache} {call : ℕ → Call} {refs : List (ℕ × ℕ)} {pins : List ℕ}
    (h : CacheInv c call refs pins) (hfull : pins.length = nbuf) :
    ∀ i < nbuf, (c.buf i).dev = rootDev ∧ (c.buf i).blockno ∈ pins := by
  let P : Finset ℕ := (Finset.range nbuf).filter fun i =>
    (c.buf i).dev = rootDev ∧ (c.buf i).blockno ∈ pins
  have hsub : pins.toFinset ⊆ P.image fun i => (c.buf i).blockno := by
    intro b hb
    have hb := List.mem_toFinset.mp hb
    obtain ⟨i, hi, hdev, hblock⟩ := h.pinned b hb
    refine Finset.mem_image.mpr ⟨i, ?_, hblock⟩
    exact Finset.mem_filter.mpr ⟨Finset.mem_range.mpr hi, hdev, hblock.symm ▸ hb⟩
  have hcard : nbuf ≤ P.card := by
    calc
      nbuf = pins.toFinset.card := by
        rw [List.toFinset_card_of_nodup h.pins_nodup, hfull]
      _ ≤ (P.image fun i => (c.buf i).blockno).card := Finset.card_le_card hsub
      _ ≤ P.card := Finset.card_image_le
  have hall : P = Finset.range nbuf := by
    apply Finset.eq_of_subset_of_card_le (Finset.filter_subset _ _)
    rw [Finset.card_range]
    exact hcard
  intro i hi
  have hmem : i ∈ P := hall ▸ Finset.mem_range.mpr hi
  exact (Finset.mem_filter.mp hmem).2

theorem CacheInv.bget_none_of_full {c : Bcache}
    {call : ℕ → Call} {refs : List (ℕ × ℕ)} {pins : List ℕ} {b : ℕ} (h : CacheInv c call refs pins)
    (hfull : pins.length = nbuf) (hb : b ∉ pins) : Xv6.bget rootDev b c = none := by
  have hpinned := h.all_pinned hfull
  refine bget_eq_none.mpr ⟨?_, ?_⟩
  · rintro i hi _ rfl
    exact hb (hpinned i ((h.mem_order i).mp hi)).2
  · intro i hi
    have hi := (h.mem_order i).mp hi
    have := h.refcnt_pos_of_pinned hi (hpinned i hi).1 (hpinned i hi).2
    omega

theorem follow_exec {n : ℕ}
    {t : LogState} (hfollow : Machine.follow (LogState.nextLabel p) (logStep g) n s = some t)
    (hdone : t.mode p = .logging (.done false))
    (hmode : s.mode p = .logging pc) (hcall : s.call p = .none) (hpc : pc ≠ .done false) :
    ∃ m, Machine.follow (LogState.nextLabel p) (logStep g) m (s.exec g p pc) = some t := by
  cases n with
  | zero =>
    obtain rfl := Option.some.inj hfollow
    rw [hmode] at hdone
    cases hdone
    contradiction
  | succ n =>
    obtain ⟨s', hstep, hfollow⟩ := Machine.follow_succ_eq_some.mp hfollow
    have hnext : s.nextLabel p = .exec p := by
      simp [LogState.nextLabel, hcall]
    rw [hnext] at hstep
    cases (logStep_move hstep).1 with
    | exec _ pc' hmode' _ _ =>
      rw [hmode] at hmode'
      cases hmode'
      exact ⟨n, hfollow⟩

theorem follow_panic {n : ℕ} {t : LogState} {e : Panic} (hpanic : s.panic = some e)
    (hfollow : Machine.follow (LogState.nextLabel p) (logStep g) n s =
      some t) : t.panic = some e := by
  cases n with
  | zero =>
    obtain rfl := Option.some.inj hfollow
    exact hpanic
  | succ n =>
    obtain ⟨s', hstep, _⟩ := Machine.follow_succ_eq_some.mp hfollow
    rcases (logStep_move hstep).2 with hcrash | hnone
    · unfold LogState.nextLabel at hcrash
      split at hcrash <;> contradiction
    · rw [hpanic] at hnone
      contradiction

theorem not_completes_of_full (hsound : s.Sound g) (hexclusive : s.Exclusive g)
    (hmode : s.mode p = .logging .commit) (hfull : s.log.lh.length = nbuf) : ¬s.Completes g p := by
  rintro ⟨n, t, hfollow, hpanic, hdone⟩
  have hcall : s.call p = .none := hexclusive.call_none hsound hmode rfl rfl
  have hlist := hsound.journal.list (hsound.admission.booted_of_commit hmode rfl)
  have hpins : s.pins = s.log.lh := (hsound.journal.logger p _ hmode).phase.pins rfl
  have hspace := hlist.space
  have hlength : s.log.lh.length = 30 := hfull
  have hnot : g.logBlock 0 ∉ s.pins := by
    intro hmem
    rw [hpins] at hmem
    apply hlist.home _ hmem
    unfold inLog logBlock
    omega
  have hnone : Xv6.bget rootDev (g.logBlock 0) s.bcache = none :=
    hsound.cache.bget_none_of_full (by rw [hpins, hfull]) hnot
  -- the two statements before the call only move the process on
  have hpos : 0 < s.log.lh.length := by omega
  obtain ⟨n, hfollow⟩ := follow_exec hfollow hdone hmode hcall (by simp)
  simp only [LogState.exec, if_pos hpos] at hfollow
  obtain ⟨n, hfollow⟩ := follow_exec hfollow hdone (update_self _ _ _) hcall (by simp)
  have hpos' : 0 < (LogState.goto { s with
      started := s.started ++ [s.log.lh.map fun b => (b, s.latest b)] } p
        (.writeLogTest 0)).log.lh.length := hpos
  simp only [LogState.exec, if_pos hpos'] at hfollow
  obtain ⟨n, hfollow⟩ := follow_exec hfollow hdone (update_self _ _ _) hcall (by simp)
  have hend := follow_panic (e := .noBuffers) ?_ hfollow
  · rw [hend] at hpanic
    contradiction
  · change (LogState.bget _ p (g.logBlock 0)).panic = some .noBuffers
    rcases LogState.bget_cases _ p (g.logBlock 0) with
      ⟨_, heq⟩ | ⟨i, c, hget, _⟩
    · rw [heq]
    · cases hnone.symm.trans hget

end

/-! ## Whole runs -/

def LogState.Spare (s : LogState) : Prop := s.log.committing = true →
    s.pins.length < nbuf ∧ s.panic ≠ some .noBuffers

theorem LogState.Spare.of_same (h : s.Spare) (hlog : s'.log = s.log)
    (hpins : s'.pins = s.pins) (hpanic : s'.panic ≠ some .noBuffers) : s'.Spare := by
  intro hcommitting
  rw [hlog] at hcommitting
  rw [hpins]
  exact ⟨(h hcommitting).1, hpanic⟩

theorem LogState.Spare.endOp {p : ℕ} (hsound : s.Sound g) (hinside : s.mode p = .inside)
    (hpanic : s.panic = none) (hleft : (loggedBlocks s.ops).length ≠ nbuf) : (s.endOp p).Spare := by
  obtain ⟨hbooted, hnone⟩ := hsound.admission.idle_of_inside hinside
  obtain ⟨hpins, hlogged⟩ := hsound.journal.idle hnone
  have hlist := hsound.journal.list hbooted
  have hcount := length_loggedBlocks hlist.nodup hlogged
  have hlength : s.log.lh.length ≤ nbuf := hlist.length
  have hcommitting : ¬s.log.committing = true := by
    rw [hsound.admission.committing]
    rintro ⟨q, pc, hq, _⟩
    exact hnone q pc hq
  have hroom : s.pins.length < nbuf := by
    rw [hpins]
    omega
  unfold LogState.endOp
  dsimp only
  rw [if_neg hcommitting]
  split <;> exact fun _ => ⟨hroom, by simp [hpanic]⟩

theorem LogMove.spare {l : LogLabel} (h : s.Spare) (hsound : s.Sound g)
    (hexclusive : s.Exclusive g) (hstep : logStep g l s = some s')
    (honly : OperationsOnly l s) (hleft : BuffersLeft l s) : s'.Spare := by
  obtain ⟨hmove, hpanic⟩ := logStep_move hstep
  cases hmove with
  | crash =>
    intro hcommitting
    simp [LogState.crash, LogState.boot] at hcommitting
  | beginOp p hbooted hcall hmode =>
    have hnone := hpanic.resolve_left (by simp)
    intro hcommitting
    unfold LogState.beginOp at hcommitting ⊢
    split at hcommitting
    · rename_i hc
      rw [if_pos hc]
      exact ⟨(h hc).1, by simp [hnone]⟩
    · rename_i hc
      split at hcommitting <;> exact absurd hcommitting hc
  | endOp p hmode hcall =>
    exact .endOp hsound hmode (hpanic.resolve_left (by simp)) hleft
  | finish p r hmode =>
    have hnone := hpanic.resolve_left (by simp)
    cases r with
    | true => exact h.of_same rfl rfl (by simp [LogState.finish, hnone])
    | false =>
      intro hcommitting
      simp [LogState.finish] at hcommitting
  | bread p b hfree hb =>
    intro hcommitting
    have hnot := (hsound.admission.idle_of_inside honly).2
    have hsame : (s.bget p b).log = s.log := by
      rcases s.bget_cases p b with ⟨_, heq⟩ | ⟨i, c, _, heq⟩ <;> rw [heq]
    rw [hsame, hsound.admission.committing] at hcommitting
    obtain ⟨q, pc, hq, _⟩ := hcommitting
    exact absurd hq (hnot q pc)
  | acquire p i b hcall hlock =>
    have hnone := hpanic.resolve_left (by simp)
    refine h.of_same rfl rfl ?_
    simp [acquiresleep, setBuf, hnone]
  | fill p i b hcall =>
    have hnone := hpanic.resolve_left (by simp)
    refine h.of_same rfl rfl ?_
    simp [LogState.fill, setBuf, hnone]
  | modify p i data hfree hlock hhome =>
    have hnone := hpanic.resolve_left (by simp)
    refine h.of_same rfl rfl ?_
    simp [LogState.store, setBuf, hnone]
  | logWrite p i hmode hfree hlock hhome =>
    intro hcommitting
    have hnot := (hsound.admission.idle_of_inside hmode).2
    have hsame : (s.logWrite g p i).log.committing = s.log.committing := by
      unfold LogState.logWrite
      split
      · rfl
      · split
        · rfl
        · split <;> rfl
    rw [hsame, hsound.admission.committing] at hcommitting
    obtain ⟨q, pc, hq, _⟩ := hcommitting
    exact absurd hq (hnot q pc)
  | bwrite p i hfree hhome =>
    have hnone := hpanic.resolve_left (by simp)
    refine h.of_same (by simp) (by simp) ?_
    rcases s.bwrite_cases p i with ⟨_, heq⟩ | ⟨_, heq⟩
    · simp [heq, hnone]
    · simp [heq]
  | brelse p i hfree =>
    have hnone := hpanic.resolve_left (by simp)
    rcases s.releasesleep_cases p i with ⟨_, heq⟩ | ⟨_, heq⟩
    · refine h.of_same (by rw [heq]; rfl) (by rw [heq]; rfl) ?_
      simp [heq, setBuf, hnone]
    · refine h.of_same (by rw [heq]) (by rw [heq]) ?_
      simp [heq]
  | drop p i hcall =>
    have hnone := hpanic.resolve_left (by simp)
    refine h.of_same rfl rfl ?_
    simp [LogState.drop, hnone]
  | exec p pc hmode hcall hdone =>
    have hnone := hpanic.resolve_left (by simp)
    intro hcommitting
    have hsound' := hsound.exec hmode hcall hdone
    have hrec : pc.recovering = false := by
      by_contra hrec
      have hbooted := hsound.admission.booted.mpr ⟨p, pc, hmode, by simpa using hrec⟩
      obtain ⟨q, qc, hq, hqrec⟩ := hsound'.admission.committing.mp hcommitting
      have := hsound'.admission.booted_of_commit hq hqrec
      rw [exec_booted, hbooted] at this
      contradiction
    have hold : s.log.committing = true := hsound.admission.committing.mpr ⟨p, pc, hmode, hrec⟩
    have hsolo : s.Solo g p pc := ⟨hmode, hrec, hnone, hsound, hexclusive, (h hold).1⟩
    obtain ⟨t, pc', hstep', ht, _⟩ := hsolo.exec hcall hdone
    rw [hstep] at hstep'
    obtain rfl := Option.some.inj hstep'
    exact ⟨ht.room, by simp [ht.panic]⟩

end Xv6
