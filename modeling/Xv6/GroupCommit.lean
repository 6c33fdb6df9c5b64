import Xv6.LogJournal

/-!
# Group commit

Every run of the machine keeps the bookkeeping of operations, the accounts of
the buffer cache and the account of the blocks in the log.  The three are
proved together, because pinning and unpinning keep the reference counts
right only for blocks that the log knows about.
-/

namespace Xv6

open Function (update update_of_ne update_self)
open LogState LogPc

/-- The three invariants that hold in every run. -/
structure LogState.Sound (g : LogGeometry) (s : LogState) : Prop where
  admission : s.Admission
  cache : CacheInv s.bcache s.call s.refs s.pins
  journal : s.Journal g

/-! ## Steps of single processes -/

section

variable {g : LogGeometry} {s : LogState} {p : ℕ}

theorem LogState.Sound.of_client (h : s.Sound g) {s' : LogState}
    (hmode : ∀ pc, s.mode p ≠ .logging pc) (hcache : CacheInv s'.bcache s'.call s'.refs s'.pins)
    (hmode' : s'.mode = s.mode) (hbooted : s'.booted = s.booted) (hlog : s'.log = s.log)
    (hpins : s'.pins = s.pins) (hops : s'.ops = s.ops) (hinstalled : s'.installed = s.installed)
    (hpanic : s'.panic ≠ some .committing ∧ s'.panic ≠ some .outsideTrans) (hcall : ∀ q, q ≠ p →
    s'.call q = s.call q) (hkeeps : ∀ q, q ≠ p → s.bcache.Keeps q s'.bcache) : s'.Sound g := by
  refine ⟨?_, hcache, ?_⟩
  · exact h.admission.of_same hmode' hlog hbooted (by rw [hops]) hpanic
  · refine h.journal.of_client ?_ hbooted hlog hpins hops hinstalled ?_
    · intro q pc
      rw [hmode']
    · intro q pc hq
      have hne : q ≠ p := by
        rintro rfl
        exact hmode pc hq
      exact ⟨hkeeps q hne, hcall q hne⟩

theorem LogState.Sound.bget (h : s.Sound g) (hcall : s.call p = .none)
    (hmode : ∀ pc, s.mode p ≠ .logging pc) (b : ℕ) : (s.bget p b).Sound g := by
  have hpanic := (h.admission.bget p b).panic
  rcases s.bget_cases p b with ⟨_, heq⟩ | ⟨i, c, hget, heq⟩
  · rw [heq] at hpanic ⊢
    exact h.of_client hmode h.cache rfl rfl rfl rfl rfl rfl hpanic
      (fun _ _ => rfl) fun q _ => .refl q _
  · rw [heq]
    refine h.of_client hmode (h.cache.bget hcall hget) rfl rfl rfl rfl rfl rfl
      h.admission.panic ?_ ?_
    · intro q hq
      exact update_of_ne hq _ _
    · exact fun q _ => .bget h.cache q hget

variable {i b : ℕ} {pc : LogPc}

theorem LogState.Sound.acquiresleep (h : s.Sound g) (hcall : s.call p = .want i b)
    (hfree : (s.buf i).lock = none) : (s.acquiresleep p i b).Sound g := by
  have hcache := h.cache.acquiresleep hcall hfree
  by_cases hlogger : ∃ pc, s.mode p = .logging pc
  · obtain ⟨pc, hmode⟩ := hlogger
    have hadmission : (s.acquiresleep p i b).Admission :=
      h.admission.of_same rfl rfl rfl rfl h.admission.panic
    refine ⟨hadmission, hcache, .of_logger hadmission hmode ?_ ?_⟩
    · exact (h.journal.logger p pc hmode).acquiresleep h.cache hcall hfree
    · exact h.journal.list
  · refine h.of_client (fun pc hmode => hlogger ⟨pc, hmode⟩) hcache rfl rfl
      rfl rfl rfl rfl h.admission.panic ?_ ?_
    · intro q hq
      exact update_of_ne hq _ _
    · intro q hq
      apply Bcache.Keeps.set
      · change (s.buf i).lock ≠ some q
        simp [hfree]
      · simpa using Ne.symm hq

theorem CacheInv.fill (h : CacheInv s.bcache s.call s.refs s.pins) (hcall : s.call p = .check i b) :
    CacheInv (s.fill p i).bcache (s.fill p i).call s.refs s.pins := by
  refine CacheInv.set_data (h.call_none hcall) ?_ ?_ ?_ ?_
  all_goals
    split <;> rfl

theorem LogState.Sound.fill (h : s.Sound g) (hcall : s.call p = .check i b) : ({ s.fill p i with
        mode := update s.mode p ((s.mode p).afterBread i) } :
      LogState).Sound g := by
  have hcache := h.cache.fill hcall
  by_cases hlogger : ∃ pc, s.mode p = .logging pc
  · obtain ⟨pc, hmode⟩ := hlogger
    have hadmission := LogMove.admission (g := g) h.admission (.fill p i b hcall)
    refine ⟨hadmission, hcache, ?_⟩
    rw [hmode] at hadmission ⊢
    refine .of_logger hadmission (update_self _ _ _) ?_ h.journal.list
    exact (h.journal.logger p pc hmode).fill hcall
  · have hnot : ∀ pc, s.mode p ≠ .logging pc := fun pc hmode =>
      hlogger ⟨pc, hmode⟩
    refine h.of_client hnot hcache ?_ rfl rfl rfl rfl rfl h.admission.panic ?_ ?_
    · cases hmode : s.mode p with
      | logging pc => exact absurd hmode (hnot pc)
      | _ => simp [Mode.afterBread, ← hmode]
    · intro q hq
      exact update_of_ne hq _ _
    · intro q hq
      have hlock := (h.cache.check p i b hcall).1
      have hother : (s.bcache.buf i).lock ≠ some q := by
        rw [hlock]
        simpa using Ne.symm hq
      apply Bcache.Keeps.set hother
      split <;> exact hother

theorem LogState.Sound.drop (h : s.Sound g) (hcall : s.call p = .drop i) : ({ s.drop p i with
        mode := update s.mode p (s.mode p).afterBrelse } :
      LogState).Sound g := by
  have hcache := h.cache.drop hcall
  by_cases hlogger : ∃ pc, s.mode p = .logging pc
  · obtain ⟨pc, hmode⟩ := hlogger
    have hadmission := LogMove.admission (g := g) h.admission (.drop p i hcall)
    refine ⟨hadmission, hcache, ?_⟩
    rw [hmode] at hadmission ⊢
    refine .of_logger hadmission (update_self _ _ _) ?_ h.journal.list
    exact (h.journal.logger p pc hmode).drop hcall
  · have hnot : ∀ pc, s.mode p ≠ .logging pc := fun pc hmode =>
      hlogger ⟨pc, hmode⟩
    refine h.of_client hnot hcache ?_ rfl rfl rfl rfl rfl h.admission.panic ?_ ?_
    · cases hmode : s.mode p with
      | logging pc => exact absurd hmode (hnot pc)
      | _ => simp [Mode.afterBrelse, ← hmode]
    · intro q hq
      exact update_of_ne hq _ _
    · exact fun q _ => .brelse q i s.bcache

theorem LogState.free_not_logging (hfree : s.free p = true) (pc : LogPc) :
    s.mode p ≠ .logging pc := by
  rcases (free_mode hfree).2.2 with hmode | hmode <;> simp [hmode]

theorem LogState.Sound.store (h : s.Sound g) (data : Block)
    (hfree : s.free p = true) (hlock : (s.buf i).lock = some p) : (s.store i data).Sound g := by
  refine h.of_client (free_not_logging hfree) ?_ rfl rfl rfl rfl rfl
    rfl h.admission.panic (fun _ _ => rfl) ?_
  · exact CacheInv.set_data h.cache rfl rfl rfl rfl
  · intro q hq
    have hother : (s.bcache.buf i).lock ≠ some q := by
      change (s.buf i).lock ≠ some q
      rw [hlock]
      simpa using Ne.symm hq
    exact Bcache.Keeps.set hother hother

theorem LogState.Sound.bwrite (h : s.Sound g) (hfree : s.free p = true)
    (i : ℕ) : (s.bwrite p i).Sound g := by
  have hpanic := (h.admission.bwrite p i).panic
  rcases s.bwrite_cases p i with ⟨_, heq⟩ | ⟨_, heq⟩
  · rw [heq]
    exact h.of_client (free_not_logging hfree) h.cache rfl rfl rfl
      rfl rfl rfl h.admission.panic (fun _ _ => rfl) fun q _ => .refl q _
  · rw [heq] at hpanic ⊢
    exact h.of_client (free_not_logging hfree) h.cache rfl rfl rfl
      rfl rfl rfl hpanic (fun _ _ => rfl) fun q _ => .refl q _

theorem LogState.Sound.releasesleep (h : s.Sound g)
    (hfree : s.free p = true) (i : ℕ) : (s.releasesleep p i).Sound g := by
  have hcall := (free_mode hfree).2.1
  have hpanic := (h.admission.releasesleep p i).panic
  rcases s.releasesleep_cases p i with ⟨hlock, heq⟩ | ⟨_, heq⟩
  · rw [heq]
    refine h.of_client (free_not_logging hfree)
      (h.cache.releasesleep hcall hlock) rfl rfl rfl rfl rfl rfl h.admission.panic ?_ ?_
    · intro q hq
      exact update_of_ne hq _ _
    · intro q hq
      apply Bcache.Keeps.set
      · change (s.buf i).lock ≠ some q
        rw [hlock]
        simpa using Ne.symm hq
      · simp
  · rw [heq] at hpanic ⊢
    exact h.of_client (free_not_logging hfree) h.cache rfl rfl rfl
      rfl rfl rfl hpanic (fun _ _ => rfl) fun q _ => .refl q _

/-! ## The log's own code -/

theorem CacheInv.exec (h : CacheInv s.bcache s.call s.refs s.pins)
    (hat : s.LoggerAt g p pc) (hcall : s.call p = .none) : CacheInv
    (s.exec g p pc).bcache (s.exec g p pc).call (s.exec g p pc).refs (s.exec g p pc).pins := by
  cases hwanted : pc.wanted g s.log.lh with
  | some b =>
    rw [exec_wanted hwanted]
    rcases s.bget_cases p b with ⟨_, heq⟩ | ⟨i, c, hget, heq⟩
    · rw [heq]
      exact h
    · rw [heq]
      exact h.bget hcall hget
  | none =>
  cases hreleasing : pc.releasing with
  | some i =>
    rw [exec_releasing hreleasing]
    rcases s.releasesleep_cases p i with ⟨hlock, heq⟩ | ⟨_, heq⟩
    · rw [heq]
      exact h.releasesleep hcall hlock
    · rw [heq]
      exact h
  | none =>
  cases pc with
  | commit | writeLogTest tail | installTest r tail =>
    simp only [LogState.exec]
    split <;> exact h
  | writeLogCopy tail dst src | headFill use buf =>
    exact h.set_data rfl rfl rfl rfl
  | writeLogWrite tail dst src =>
    simpa [LogState.exec, LogState.goto] using h
  | headWrite use buf =>
    cases use with
    | _ => simpa [LogState.exec, LogState.goto] using h
  | installCopy r tail lbuf dbuf =>
    cases r with
    | _ => exact h.set_data rfl rfl rfl rfl
  | installWrite r tail lbuf dbuf =>
    cases r with
    | _ => simpa [LogState.exec, LogState.goto] using h
  | installUnpin tail lbuf dbuf =>
    have hlocked := hat.locked
    have hrange := hat.range
    rw [hcall] at hlocked hrange
    obtain ⟨hlock, hblock⟩ := hlocked (dbuf, s.log.lh.getD tail 0)
      (by simp [LogPc.seen, LogPc.held])
    obtain ⟨hi, hdev⟩ := h.refs_ok _ (h.mem_refs_of_lock hlock)
    apply h.bunpin hi hdev
    -- it is the first of the blocks that are still pinned
    have hpins : s.pins = s.log.lh.drop tail := hat.phase.pins rfl
    have hmem : s.log.lh.getD tail 0 ∈ s.log.lh.drop tail := by
      rw [List.getD_eq_getElem _ _ hrange, List.drop_eq_getElem_cons hrange]
      exact List.mem_cons_self
    rw [hpins]
    exact hblock ▸ hmem
  | clear r | recoverHead buf | done r => exact h
  | _ => contradiction

theorem LogList.exec (h : LogList g s.log.lh) (hrec : pc.recovering = false) :
    LogList g (s.exec g p pc).log.lh := by
  cases hwanted : pc.wanted g s.log.lh with
  | some b =>
    rw [exec_wanted hwanted]
    rcases s.bget_cases p b with ⟨_, heq⟩ | ⟨i, c, hget, heq⟩ <;>
      rw [heq] <;> exact h
  | none =>
  cases hreleasing : pc.releasing with
  | some i =>
    rw [exec_releasing hreleasing]
    rcases s.releasesleep_cases p i with ⟨hlock, heq⟩ | ⟨_, heq⟩ <;>
      rw [heq] <;> exact h
  | none =>
  cases pc with
  | commit | writeLogTest tail | installTest r tail =>
    simp only [LogState.exec]
    split <;> exact h
  | headWrite use buf =>
    cases use with
    | _ => simpa [LogState.exec, LogState.goto] using h
  | installCopy r tail lbuf dbuf =>
    cases r with
    | _ => exact h
  | installWrite r tail lbuf dbuf =>
    cases r with
    | _ => simpa [LogState.exec, LogState.goto] using h
  | clear r => exact LogList.nil g
  | recoverHead buf => contradiction
  | writeLogWrite tail dst src =>
    simpa [LogState.exec, LogState.goto] using h
  | writeLogCopy tail dst src | headFill use buf | installUnpin tail lbuf dbuf
  | done r => exact h
  | _ => contradiction

theorem LogState.Admission.not_recovering (h : s.Admission)
    (hbooted : s.booted = true) (hmode : s.mode p = .logging pc) : pc.recovering = false := by
  by_contra hrec
  have := h.booted.mpr ⟨p, pc, hmode, by simpa using hrec⟩
  rw [hbooted] at this
  contradiction

theorem LogState.Admission.booted_of_commit (h : s.Admission)
    (hmode : s.mode p = .logging pc) (hrec : pc.recovering = false) : s.booted = true := by
  by_contra hbooted
  obtain ⟨q, qc, hq, hqrec⟩ := h.booted.mp (by simpa using hbooted)
  obtain rfl := h.unique q p qc pc hq hmode
  rw [hmode] at hq
  cases hq
  rw [hrec] at hqrec
  contradiction

theorem LogState.exec_booted (s : LogState) (p : ℕ) (pc : LogPc) :
    (s.exec g p pc).booted = s.booted := by
  cases hwanted : pc.wanted g s.log.lh with
  | some b =>
    rw [exec_wanted hwanted]
    rcases s.bget_cases p b with ⟨_, heq⟩ | ⟨i, c, hget, heq⟩ <;> rw [heq]
  | none =>
  cases hreleasing : pc.releasing with
  | some i =>
    rw [exec_releasing hreleasing]
    rcases s.releasesleep_cases p i with ⟨hlock, heq⟩ | ⟨_, heq⟩
    · rw [heq]
      rfl
    · rw [heq]
  | none =>
  cases pc with
  | commit | writeLogTest tail | installTest r tail =>
    simp only [LogState.exec]
    split <;> rfl
  | writeLogWrite tail dst src => simp [LogState.exec, LogState.goto]
  | headWrite use buf =>
    cases use with
    | _ => simp [LogState.exec, LogState.goto]
  | installCopy r tail lbuf dbuf =>
    cases r with
    | _ => rfl
  | installWrite r tail lbuf dbuf =>
    cases r with
    | _ => simp [LogState.exec, LogState.goto]
  | _ => first | rfl | contradiction

theorem LogState.Sound.exec (h : s.Sound g) (hmode : s.mode p = .logging pc)
    (hcall : s.call p = .none) (hdone : ∀ r, pc ≠ .done r) : (s.exec g p pc).Sound g := by
  have hat := h.journal.logger p pc hmode
  have hadmission := h.admission.exec g hmode
  refine ⟨hadmission, h.cache.exec hat hcall, ?_⟩
  obtain ⟨pc', hmode', hat'⟩ := hat.exec h.cache hmode hcall hdone
    fun hrec => (h.journal.list (h.admission.booted_of_commit hmode hrec)).nodup
  refine .of_logger hadmission hmode' hat' ?_
  rw [exec_booted]
  intro hbooted
  exact (h.journal.list hbooted).exec (h.admission.not_recovering hbooted hmode)

/-! ## Operations -/

theorem LogState.Sound.beginOp (h : s.Sound g) (hbooted : s.booted = true)
    (hmode : s.mode p = .outside ∨ s.mode p = .ready) : (s.beginOp p).Sound g := by
  have hold : s.mode p ≠ .inside ∧ ∀ pc, s.mode p ≠ .logging pc := by
    rcases hmode with hmode | hmode <;> simp [hmode]
  have hadmission := h.admission.beginOp hbooted hold
  have hsleep : ({ s with
      mode := update s.mode p .asleep } : LogState).Journal g := by
    refine h.journal.of_client ?_ rfl rfl rfl rfl rfl fun q pc _ => ⟨.refl _ _, rfl⟩
    intro q pc
    by_cases hq : q = p
    · subst hq
      simp [hold.2 pc]
    · simp [hq]
  unfold LogState.beginOp at hadmission ⊢
  split at hadmission
  · rename_i hcommitting
    rw [if_pos hcommitting]
    exact ⟨hadmission, h.cache, hsleep⟩
  · rename_i hcommitting
    rw [if_neg hcommitting]
    split at hadmission
    · rename_i hspace
      rw [if_pos hspace]
      exact ⟨hadmission, h.cache, hsleep⟩
    · rename_i hspace
      rw [if_neg hspace]
      have hidle := h.admission.idle_not_logging hbooted (by simpa using hcommitting)
      obtain ⟨hpins, hlogged⟩ := h.journal.idle hidle
      refine ⟨hadmission, h.cache, .of_idle ?_ (h.journal.list hbooted) hpins ?_⟩
      · exact hadmission.idle_not_logging hbooted (by simpa using hcommitting)
      · intro b
        rw [logged_append_new]
        exact hlogged b

theorem LogState.Admission.idle_of_inside (h : s.Admission) (hinside : s.mode p = .inside) :
    s.booted = true ∧ ∀ q pc, s.mode q ≠ .logging pc := by
  have hmem := (h.inside p).mp hinside
  have hnone : ∀ q pc, s.mode q ≠ .logging pc := by
    intro q pc hq
    rw [h.quiet q pc hq] at hmem
    simp at hmem
  refine ⟨?_, hnone⟩
  by_contra hb
  obtain ⟨q, pc, hq, _⟩ := h.booted.mp (by simpa using hb)
  exact hnone q pc hq

theorem LogState.Sound.logWrite (h : s.Sound g) (hinside : s.mode p = .inside)
    (hlock : (s.buf i).lock = some p) (hhome : ¬g.inLog (s.buf i).blockno) :
    (s.logWrite g p i).Sound g := by
  have hadmission := h.admission.logWrite g hinside i
  obtain ⟨hbooted, hnone⟩ := h.admission.idle_of_inside hinside
  obtain ⟨hpins, hlogged⟩ := h.journal.idle hnone
  have hlist := h.journal.list hbooted
  have hlive := (h.admission.inside p).mp hinside
  unfold LogState.logWrite at hadmission ⊢
  split at hadmission
  · rename_i hfull
    rw [if_pos hfull]
    exact ⟨hadmission, h.cache, .of_idle hnone hlist hpins hlogged⟩
  · rename_i hfull
    rw [if_neg hfull]
    split at hadmission
    · rename_i hout
      rw [if_pos hout]
      exact ⟨hadmission, h.cache, .of_idle hnone hlist hpins hlogged⟩
    · rename_i hout
      rw [if_neg hout]
      split at hadmission
      · rename_i habsorb
        rw [if_pos habsorb]
        refine ⟨hadmission, h.cache, .of_idle hnone hlist hpins ?_⟩
        intro b
        rw [logged_map_log hlive, ← hlogged b]
        constructor
        · exact Or.inl
        · rintro (hb | rfl)
          · exact hb
          · exact habsorb
      · rename_i hnew
        rw [if_neg hnew]
        refine ⟨hadmission, ?_, .of_idle hnone ?_ ?_ ?_⟩
        · refine h.cache.bpin (h.cache.mem_refs_of_lock hlock) ?_
          rw [hpins]
          exact hnew
        · exact hlist.append hnew hhome (fun hle => hfull (Or.inl hle))
            fun hle => hfull (Or.inr hle)
        · simp [hpins]
        · intro b
          rw [logged_map_log hlive, ← hlogged b]
          simp

theorem LogState.Sound.endOp (h : s.Sound g)
    (hinside : s.mode p = .inside) (hcall : s.call p = .none) : (s.endOp p).Sound g := by
  have hadmission := h.admission.endOp hinside
  obtain ⟨hbooted, hnone⟩ := h.admission.idle_of_inside hinside
  obtain ⟨hpins, hlogged⟩ := h.journal.idle hnone
  have hlist := h.journal.list hbooted
  have hlogged' : ∀ b, b ∈ s.log.lh ↔ Logged (s.ops.map (Op.close p)) b := by
    intro b
    rw [logged_map_close]
    exact hlogged b
  have hcommitting : ¬s.log.committing = true := by
    rw [h.admission.committing]
    rintro ⟨q, pc, hq, _⟩
    exact hnone q pc hq
  unfold LogState.endOp at hadmission ⊢
  dsimp only at hadmission ⊢
  rw [if_neg hcommitting] at hadmission ⊢
  split at hadmission
  · rename_i hzero
    rw [if_pos hzero]
    refine ⟨hadmission, h.cache, .of_logger hadmission (update_self _ _ _) ?_ fun _ => hlist⟩
    -- `commit` starts with no lock held by the log's code
    constructor
    · simp [hcall, LogPc.seen, LogPc.held]
    · simp [hcall, LogPc.seen, LogPc.held]
    · simp [hcall]
    · simp [hcall, LogPc.seen, inRange]
    · constructor
      · simp [cleared]
      · simp [recovering]
      · exact fun _ => hpins
      · exact fun _ _ => hlogged'
      · exact fun _ _ => rfl
      · simp [cleared]
  · rename_i hrest
    rw [if_neg hrest]
    refine ⟨hadmission, h.cache, .of_idle ?_ hlist hpins hlogged'⟩
    exact hadmission.idle_not_logging hbooted (by simpa using hcommitting)

theorem LogState.Sound.finish {r : Bool} (h : s.Sound g)
    (hmode : s.mode p = .logging (.done r)) : (s.finish p r).Sound g := by
  have hadmission := h.admission.finish hmode
  have hphase := (h.journal.logger p _ hmode).phase
  have hempty : s.log.lh = [] := hphase.cleared rfl
  cases r with
  | true =>
    obtain ⟨hpins, hops⟩ := hphase.recovering rfl
    refine ⟨hadmission, h.cache, .of_idle ?_ ?_ ?_ ?_⟩
    · refine hadmission.idle_not_logging rfl ?_
      by_contra hcommitting
      obtain ⟨q, pc, hq, hrec⟩ :=
        h.admission.committing.mp (Bool.eq_true_of_not_eq_false hcommitting)
      obtain rfl := h.admission.unique q p pc _ hq hmode
      rw [hmode] at hq
      cases hq
      contradiction
    · change LogList g s.log.lh
      rw [hempty]
      exact LogList.nil g
    · exact hpins.trans hempty.symm
    · intro b
      change b ∈ s.log.lh ↔ Logged s.ops b
      simp [hempty, hops]
  | false =>
    refine ⟨hadmission, h.cache, .of_idle ?_ ?_ ?_ ?_⟩
    · exact hadmission.idle_not_logging (h.admission.booted_of_commit hmode rfl) rfl
    · change LogList g s.log.lh
      rw [hempty]
      exact LogList.nil g
    · change s.pins = s.log.lh
      rw [hphase.pins rfl, hempty, List.drop_nil]
    · intro b
      change b ∈ s.log.lh ↔ Logged [] b
      simp [hempty]

end

/-! ## Whole runs -/

theorem LogState.boot_sound (g : LogGeometry) (disk : ℕ → Block) (started : List (List (ℕ × Block)))
    (committed : ℕ) : (LogState.boot disk started committed).Sound g := by
  have hadmission := boot_admission disk started committed
  have hmode : (LogState.boot disk started committed).mode 0 =
      .logging .recoverRead := by simp [LogState.boot]
  refine ⟨hadmission, binit_cacheInv, .of_logger hadmission hmode ?_ ?_⟩
  · constructor
    · simp [LogState.boot, LogPc.seen, LogPc.held]
    · simp [LogState.boot, LogPc.seen, LogPc.held]
    · simp [LogState.boot]
    · simp [LogState.boot, LogPc.seen, inRange]
    · exact .of_recovering rfl (by simp [cleared]) rfl rfl
  · intro hbooted
    contradiction

theorem LogMove.sound {g : LogGeometry} {s s' : LogState} {l : LogLabel} (h : s.Sound g)
    (hmove : LogMove g s l s') : s'.Sound g := by
  cases hmove with
  | crash => exact boot_sound g _ _ _
  | beginOp p hbooted hcall hmode => exact h.beginOp hbooted hmode
  | endOp p hmode hcall => exact h.endOp hmode hcall
  | finish p r hmode => exact h.finish hmode
  | bread p b hfree hb =>
    exact h.bget (free_mode hfree).2.1 (free_not_logging hfree) b
  | acquire p i b hcall hlock => exact h.acquiresleep hcall hlock
  | fill p i b hcall => exact h.fill hcall
  | modify p i data hfree hlock hhome => exact h.store data hfree hlock
  | logWrite p i hmode hfree hlock hhome => exact h.logWrite hmode hlock hhome
  | bwrite p i hfree hhome => exact h.bwrite hfree i
  | brelse p i hfree => exact h.releasesleep hfree i
  | drop p i hcall => exact h.drop hcall
  | exec p pc hmode hcall hdone => exact h.exec hmode hcall hdone

theorem logRun_sound {g : LogGeometry} {disk : ℕ → Block}
    {started : List (List (ℕ × Block))} {committed : ℕ} {ls : List LogLabel} {s : LogState}
    (hrun : Machine.run (logStep g) ls (.boot disk started committed) = some s) : s.Sound g := by
  apply Machine.run_invariant _ (boot_sound g disk started committed) hrun
  intro l t t' ht hstep
  exact (logStep_move hstep).1.sound ht

theorem LogState.Admission.no_live {s : LogState} (h : s.Admission) {p : ℕ} {pc : LogPc}
    (hmode : s.mode p = .logging pc) : ∀ o ∈ s.ops, o.live = false := by
  intro o hmem
  by_contra hlive
  have : o.pid ∈ livePids s.ops :=
    List.mem_map_of_mem (List.mem_filter.mpr ⟨hmem, by simpa using hlive⟩)
  rw [h.quiet p pc hmode] at this
  simp at this

/-- While a commit is in progress there is no operation and none is admitted,
the two panics that would show an overlap do not happen, and what a commit
writes is what the operations since the previous commit have logged. -/
theorem group_commit {g : LogGeometry} {disk : ℕ → Block} {ls : List LogLabel} {s : LogState}
    (hrun : Machine.run (logStep g) ls (.boot disk [] 0) = some s) :
    (s.log.committing = true → s.log.outstanding = 0 ∧ (∀ p, s.mode p ≠ .inside) ∧
          ∀ p s', logStep g (.beginOp p) s = some s' →
            s'.mode p = .asleep ∧ s'.log = s.log ∧ s'.ops = s.ops) ∧
      s.panic ≠ some .committing ∧
      s.panic ≠ some .outsideTrans ∧
      (∀ p pc, s.mode p = .logging pc → pc.recovering = false → (∀ o ∈ s.ops, o.live = false) ∧
          (pc.cleared = false → ∀ b, b ∈ s.log.lh ↔ ∃ o ∈ s.ops, b ∈ o.blocks)) ∧
      ∀ p, s.mode p = .logging (.done false) → s.installed.Nodup ∧
          ∀ b, b ∈ s.installed ↔ ∃ o ∈ s.ops, b ∈ o.blocks := by
  have h := logRun_sound hrun
  refine ⟨?_, h.admission.panic.1, h.admission.panic.2, ?_, ?_⟩
  · intro hcommitting
    obtain ⟨p, pc, hmode, _⟩ := h.admission.committing.mp hcommitting
    have hquiet := h.admission.quiet p pc hmode
    refine ⟨?_, ?_, ?_⟩
    · rw [h.admission.outstanding, hquiet, List.length_nil]
    · intro q hinside
      have hmem := (h.admission.inside q).mp hinside
      rw [hquiet] at hmem
      simp at hmem
    · intro q s' hstep
      have hmove := (logStep_move hstep).1
      cases hmove with
      | beginOp _ _ _ _ => simp [LogState.beginOp, hcommitting]
  · intro p pc hmode hrec
    refine ⟨h.admission.no_live hmode, fun hcleared => ?_⟩
    exact (h.journal.logger p pc hmode).phase.logged hrec hcleared
  · intro p hmode
    exact (h.journal.logger p _ hmode).phase.installed rfl rfl

theorem group_commit_one_block : ∃ s, Machine.run (logStep { logstart := 2, nlog := 31 })
        (recoverLabels ++ [.beginOp 1] ++
          updateLabels 1 40 1 (fun _ => 7) ++ [.endOp 1] ++ commitLabels 1)
        (.boot zeroDisk [] 0) = some s ∧
      s.installed = [40] ∧
      ∀ b, b ∈ s.installed ↔ ∃ o ∈ s.ops, b ∈ o.blocks := by
  refine Machine.exists_run (P := fun s => decide (s.mode 1 = .logging (.done false) ∧
      s.installed = [40]))
    (by decide +kernel) ?_
  intro s hrun hs
  obtain ⟨hmode, hinstalled⟩ := of_decide_eq_true hs
  exact ⟨hinstalled, ((group_commit hrun).2.2.2.2 1 hmode).2⟩

end Xv6
