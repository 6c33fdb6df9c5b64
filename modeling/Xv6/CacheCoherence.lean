import Xv6.LogCopies

/-!
# Coherence of the buffer cache

`bread` returns what the most recent change has made of a block, as long as no
process changes a block in `log.lh` during a commit.  Operations cannot, because
none is in progress then; a process outside any operation that used `bwrite`
could, and `install_trans` would undo its change.
-/

namespace Xv6

open Function (update update_of_ne update_self)
open Machine

structure LogState.Coherent (g : LogGeometry) (s : LogState) : Prop where
  contents : Contents s.disk s.latest s.bcache s.call s.dirty s.pins
  logger : ∀ p pc, s.mode p = .logging pc → s.CopiedAt g p pc

/-- What a process changes it logs or writes before it releases the
buffer. -/
def CleanRelease : LogLabel → LogState → Prop
  | .brelse _ i, s => i ∉ s.dirty
  | _, _ => True

instance (l : LogLabel) (s : LogState) : Decidable (CleanRelease l s) := by
  unfold CleanRelease
  split <;> infer_instance

/-- Moreover, nobody changes a block in `log.lh` during a commit. -/
def Disciplined : LogLabel → LogState → Prop
  | .modify _ i _, s =>
    ¬(s.log.committing = true ∧ (s.buf i).blockno ∈ s.log.lh)
  | .brelse _ i, s => i ∉ s.dirty
  | _, _ => True

instance (l : LogLabel) (s : LogState) : Decidable (Disciplined l s) := by
  unfold Disciplined
  split <;> infer_instance

/-! ## Steps -/

section

variable {g : LogGeometry} {s s' : LogState} {p : ℕ} {pc : LogPc}

theorem LogState.Coherent.of_client
    (h : s.Coherent g) (hsound : s.Sound g) (hnot : ∀ pc, s.mode p ≠ .logging pc)
    (hcontents : Contents s'.disk s'.latest s'.bcache s'.call s'.dirty s'.pins)
    (hmode : ∀ q pc, s'.mode q = .logging pc → s.mode q = .logging pc)
    (hlog : s'.log = s.log) (hcall : ∀ q, q ≠ p → s'.call q = s.call q)
    (hdirty : ∀ i ∈ s'.dirty, i ∈ s.dirty ∨ (s.buf i).lock = some p)
    (harea : ∀ b, g.inLog b → s'.disk b = s.disk b ∧ s'.latest b = s.latest b)
    (hblocks : s.log.committing = true → ∀ b ∈ s.log.lh, s'.latest b = s.latest b ∧
    (s.disk b = s.latest b → s'.disk b = s.latest b)) : s'.Coherent g := by
  refine ⟨hcontents, ?_⟩
  intro q pc hq
  have hq := hmode q pc hq
  have hne : q ≠ p := by
    rintro rfl
    exact hnot pc hq
  refine (h.logger q pc hq).of_client (hsound.journal.logger q pc hq)
    ?_ (hcall q hne) hlog ?_ harea ?_
  · exact fun hrec => hsound.journal.list (hsound.admission.booted_of_commit hq hrec)
  · intro i hlock hmem
    rcases hdirty i hmem with hmem | hother
    · exact hmem
    · rw [hlock] at hother
      exact absurd (Option.some.inj hother) hne
  · exact fun hrec =>
      hblocks (hsound.admission.committing.mpr ⟨q, pc, hq, hrec⟩)

theorem LogState.Coherent.of_idle
    (h : s.Coherent g) (hsound : s.Sound g) (hnot : ∀ pc, s.mode p ≠ .logging pc)
    (hcontents : Contents s'.disk s'.latest s'.bcache s'.call s'.dirty s'.pins)
    (hmode : ∀ q pc, s'.mode q = .logging pc → s.mode q = .logging pc) (hlog : s'.log = s.log)
    (hcall : ∀ q, q ≠ p → s'.call q = s.call q) (hdirty : s'.dirty = s.dirty)
    (hdisk : s'.disk = s.disk) (hlatest : s'.latest = s.latest) : s'.Coherent g := by
  refine h.of_client hsound hnot hcontents hmode hlog hcall ?_ ?_ ?_
  · rw [hdirty]
    exact fun i hi => Or.inl hi
  · rw [hdisk, hlatest]
    exact fun _ _ => ⟨rfl, rfl⟩
  · rw [hdisk, hlatest]
    exact fun _ _ _ => ⟨rfl, id⟩

theorem LogState.Coherent.of_logger (hadmission : s'.Admission) (hmode : s'.mode p = .logging pc)
    (hat : s'.CopiedAt g p pc)
    (hcontents : Contents s'.disk s'.latest s'.bcache s'.call s'.dirty
      s'.pins) : s'.Coherent g := by
  refine ⟨hcontents, ?_⟩
  intro q pc' hq
  obtain rfl := hadmission.unique q p pc' pc hq hmode
  rw [hmode] at hq
  cases hq
  exact hat

theorem LogState.Coherent.bget (h : s.Coherent g) (hsound : s.Sound g)
    (hfree : s.free p = true) (b : ℕ) : (s.bget p b).Coherent g := by
  have hcall := (free_mode hfree).2.1
  have hnot := free_not_logging hfree
  rcases s.bget_cases p b with ⟨_, heq⟩ | ⟨i, c, hget, heq⟩
  · rw [heq]
    exact h.of_idle hsound hnot h.contents (fun _ _ hq => hq) rfl (fun _ _ => rfl) rfl rfl rfl
  · rw [heq]
    exact h.of_idle hsound hnot (h.contents.bget hsound.cache hcall hget)
      (fun _ _ hq => hq) rfl (fun q hq => update_of_ne hq _ _) rfl rfl rfl

variable {i : ℕ}

section

variable (h : s.Coherent g)
include h

section

variable (hsound : s.Sound g)
include hsound

theorem LogState.Coherent.acquiresleep {b : ℕ} (hcall : s.call p = .want i b)
    (hlock : (s.buf i).lock = none) : (s.acquiresleep p i b).Coherent g := by
  have hcontents := h.contents.acquiresleep hcall hlock
  by_cases hlogger : ∃ pc, s.mode p = .logging pc
  · obtain ⟨pc, hmode⟩ := hlogger
    refine .of_logger (hsound.acquiresleep hcall hlock).admission hmode ?_ hcontents
    exact (h.logger p pc hmode).acquiresleep
      (hsound.journal.logger p pc hmode) h.contents hcall hlock
  · exact h.of_idle hsound (fun pc hmode => hlogger ⟨pc, hmode⟩) hcontents
      (fun _ _ hq => hq) rfl (fun q hq => update_of_ne hq _ _) rfl rfl rfl

theorem LogState.Coherent.fill {b : ℕ} (hcall : s.call p = .check i b) : ({ s.fill p i with
        mode := update s.mode p ((s.mode p).afterBread i) } :
      LogState).Coherent g := by
  have hcontents := h.contents.fill hsound.cache hcall
  have hadmission := (hsound.fill hcall).admission
  by_cases hlogger : ∃ pc, s.mode p = .logging pc
  · obtain ⟨pc, hmode⟩ := hlogger
    rw [hmode] at hadmission ⊢
    exact .of_logger hadmission (update_self _ _ _) ((h.logger p pc hmode).fill hcall) hcontents
  · have hnot : ∀ pc, s.mode p ≠ .logging pc := fun pc hmode =>
      hlogger ⟨pc, hmode⟩
    refine h.of_idle hsound hnot hcontents ?_ rfl (fun q hq => update_of_ne hq _ _) rfl rfl rfl
    intro q pc hq
    by_cases hqp : q = p
    · subst hqp
      cases hmode : s.mode q with
      | logging pc' => exact absurd hmode (hnot pc')
      | _ => simp [Mode.afterBread, hmode] at hq
    · simpa [hqp] using hq

theorem LogState.Coherent.drop (hcall : s.call p = .drop i) : ({ s.drop p i with
        mode := update s.mode p (s.mode p).afterBrelse } :
      LogState).Coherent g := by
  have hcontents : Contents s.disk s.latest (brelse i s.bcache)
      (update s.call p .none) s.dirty s.pins := by
    refine h.contents.of_refcnt ?_ (update_call_check (by simp [hcall]))
    intro j
    rw [brelse_buf_eq]
    exact s.bcache.set_refcnt_same i _ j
  have hadmission := (hsound.drop hcall).admission
  by_cases hlogger : ∃ pc, s.mode p = .logging pc
  · obtain ⟨pc, hmode⟩ := hlogger
    rw [hmode] at hadmission ⊢
    exact .of_logger hadmission (update_self _ _ _) ((h.logger p pc hmode).drop hcall) hcontents
  · have hnot : ∀ pc, s.mode p ≠ .logging pc := fun pc hmode =>
      hlogger ⟨pc, hmode⟩
    refine h.of_idle hsound hnot hcontents ?_ rfl (fun q hq => update_of_ne hq _ _) rfl rfl rfl
    intro q pc hq
    by_cases hqp : q = p
    · subst hqp
      cases hmode : s.mode q with
      | logging pc' => exact absurd hmode (hnot pc')
      | _ => simp [Mode.afterBrelse, hmode] at hq
    · simpa [hqp] using hq

theorem LogState.Coherent.modify (hfree : s.free p = true) (data : Block)
    (hlock : (s.buf i).lock = some p) (hhome : ¬g.inLog (s.buf i).blockno)
    (hdisciplined : ¬(s.log.committing = true ∧ (s.buf i).blockno ∈ s.log.lh)) :
    (s.store i data).Coherent g := by
  have hcall := (free_mode hfree).2.1
  have hlatest : ∀ b, b ≠ (s.buf i).blockno → (s.store i data).latest b = s.latest b := fun b hb =>
    update_of_ne hb _ _
  refine h.of_client hsound (free_not_logging hfree)
    (h.contents.store hsound.cache data hlock hcall) (fun _ _ hq => hq) rfl
    (fun _ _ => rfl) ?_ ?_ ?_
  · intro j hj
    rcases List.mem_cons.mp hj with rfl | hj
    · exact Or.inr hlock
    · exact Or.inl hj
  · intro b hb
    exact ⟨rfl, hlatest b (ne_of_inLog hb hhome)⟩
  · intro hcommitting b hb
    refine ⟨hlatest b ?_, id⟩
    rintro rfl
    exact hdisciplined ⟨hcommitting, hb⟩

theorem LogState.Coherent.bwrite (hfree : s.free p = true)
    (hhome : ¬g.inLog (s.buf i).blockno) : (s.bwrite p i).Coherent g := by
  have hcall := (free_mode hfree).2.1
  have hnot := free_not_logging hfree
  rcases s.bwrite_cases p i with ⟨hlock, heq⟩ | ⟨_, heq⟩
  · have hdata : (s.buf i).data = s.latest (s.buf i).blockno :=
      h.contents.data_of_lock hsound.cache hlock (by simp [hcall])
    rw [heq]
    refine h.of_client hsound hnot
      (h.contents.bwrite hsound.cache hlock hcall) (fun _ _ hq => hq) rfl (fun _ _ => rfl) ?_ ?_ ?_
    · exact fun j hj => Or.inl (List.mem_of_mem_filter hj)
    · intro b hb
      exact ⟨update_of_ne (ne_of_inLog hb hhome) _ _, rfl⟩
    · intro _ b _
      refine ⟨rfl, fun hdisk => ?_⟩
      dsimp only
      by_cases hb : b = (s.buf i).blockno
      · subst hb
        rw [update_self]
        exact hdata
      · rw [update_of_ne hb]
        exact hdisk
  · rw [heq]
    exact h.of_idle hsound hnot h.contents (fun _ _ hq => hq) rfl (fun _ _ => rfl) rfl rfl rfl

theorem LogState.Coherent.releasesleep (hfree : s.free p = true)
    (hclean : i ∉ s.dirty) : (s.releasesleep p i).Coherent g := by
  have hcall := (free_mode hfree).2.1
  have hnot := free_not_logging hfree
  rcases s.releasesleep_cases p i with ⟨hlock, heq⟩ | ⟨_, heq⟩
  · rw [heq]
    exact h.of_idle hsound hnot (h.contents.releasesleep hcall hlock hclean) (fun _ _ hq => hq) rfl
      (fun q hq => update_of_ne hq _ _) rfl rfl rfl
  · rw [heq]
    exact h.of_idle hsound hnot h.contents (fun _ _ hq => hq) rfl (fun _ _ => rfl) rfl rfl rfl

theorem LogState.Coherent.beginOp (hbooted : s.booted = true)
    (hmode : s.mode p = .outside ∨ s.mode p = .ready) : (s.beginOp p).Coherent g := by
  have hnot : ∀ pc, s.mode p ≠ .logging pc := by
    rcases hmode with hmode | hmode <;> simp [hmode]
  have hsleep : ({ s with
      mode := update s.mode p .asleep } : LogState).Coherent g := by
    refine h.of_idle hsound hnot h.contents ?_ rfl (fun _ _ => rfl) rfl rfl rfl
    intro q pc hq
    by_cases hqp : q = p
    · subst hqp
      simp at hq
    · simpa [hqp] using hq
  have hadmission := (hsound.beginOp hbooted hmode).admission
  unfold LogState.beginOp at hadmission ⊢
  split at hadmission
  · rename_i hcommitting
    rw [if_pos hcommitting]
    exact hsleep
  · rename_i hcommitting
    rw [if_neg hcommitting]
    split at hadmission
    · rename_i hspace
      rw [if_pos hspace]
      exact hsleep
    · rename_i hspace
      rw [if_neg hspace]
      refine ⟨h.contents, ?_⟩
      intro q pc hq
      exact absurd hq (hadmission.idle_not_logging hbooted (by simpa using hcommitting) q pc)

theorem LogState.Coherent.logWrite (hinside : s.mode p = .inside) (hfree : s.free p = true)
    (hlock : (s.buf i).lock = some p) : (s.logWrite g p i).Coherent g := by
  have hcall := (free_mode hfree).2.1
  obtain ⟨_, hnone⟩ := hsound.admission.idle_of_inside hinside
  obtain ⟨hpins, _⟩ := hsound.journal.idle hnone
  have hidle : ∀ t : LogState, t.mode = s.mode →
      Contents t.disk t.latest t.bcache t.call t.dirty t.pins → t.Coherent g := by
    intro t hmode hcontents
    refine ⟨hcontents, ?_⟩
    intro q pc hq
    rw [hmode] at hq
    exact absurd hq (hnone q pc)
  unfold LogState.logWrite
  split
  · exact hidle _ rfl h.contents
  · split
    · exact hidle _ rfl h.contents
    · split
      · rename_i habsorb
        refine hidle _ rfl (h.contents.pin hsound.cache hlock hcall ?_)
        intro b
        constructor
        · exact Or.inl
        · rintro (hb | rfl)
          · exact hb
          · rw [hpins]
            exact habsorb
      · refine hidle _ rfl ?_
        have hpin : Contents s.disk s.latest s.bcache s.call
            (s.dirty.filter (· ≠ i)) (s.pins ++ [(s.buf i).blockno]) :=
          h.contents.pin hsound.cache hlock hcall (by simp [LogState.buf])
        exact hpin.of_refcnt (s.bcache.set_refcnt_same i _) fun _ _ _ hq => hq

theorem LogState.Coherent.endOp (hinside : s.mode p = .inside)
    (hcall : s.call p = .none) : (s.endOp p).Coherent g := by
  obtain ⟨hbooted, hnone⟩ := hsound.admission.idle_of_inside hinside
  have hadmission := hsound.admission.endOp hinside
  have hcommitting : ¬s.log.committing = true := by
    rw [hsound.admission.committing]
    rintro ⟨q, pc, hq, _⟩
    exact hnone q pc hq
  unfold LogState.endOp at hadmission ⊢
  dsimp only at hadmission ⊢
  rw [if_neg hcommitting] at hadmission ⊢
  split at hadmission
  · rename_i hzero
    rw [if_pos hzero]
    refine .of_logger hadmission (update_self _ _ _) ?_ h.contents
    constructor
    · simp [hcall, LogPc.seen, LogPc.held]
    · exact fun _ j hj => absurd hj (Nat.not_lt_zero j)
    · exact fun _ j hj => absurd hj (Nat.not_lt_zero j)
    · exact fun _ j hj => absurd hj (Nat.not_lt_zero j)
  · rename_i hrest
    rw [if_neg hrest]
    refine ⟨h.contents, ?_⟩
    intro q pc hq
    exact absurd hq (hadmission.idle_not_logging hbooted (by simpa using hcommitting) q pc)

theorem LogState.Coherent.finish {r : Bool}
    (hmode : s.mode p = .logging (.done r)) : (s.finish p r).Coherent g := by
  constructor
  · cases r with
    | _ => exact h.contents
  · intro q pc hq
    have hlog : s.mode q = .logging pc := by
      cases r with
      | true =>
        by_cases hqp : q = p
        · subst hqp
          simp [LogState.finish] at hq
        · simpa [LogState.finish, hqp] using hq
      | false =>
        by_cases hqp : q = p
        · subst hqp
          simp [LogState.finish] at hq
        · simpa [LogState.finish, hqp, wakeupLog_eq_logging] using hq
    obtain rfl := hsound.admission.unique q p pc _ hlog hmode
    exfalso
    cases r with
    | _ => simp [LogState.finish] at hq

theorem LogState.Coherent.exec (hmode : s.mode p = .logging pc)
    (hcall : s.call p = .none) (hdone : ∀ r, pc ≠ .done r) : (s.exec g p pc).Coherent g := by
  have hat := h.logger p pc hmode
  obtain ⟨pc', hmode', hat'⟩ := hat.exec hsound h.contents hmode hcall hdone
  exact .of_logger (hsound.exec hmode hcall hdone).admission hmode' hat'
    (hat.exec_contents hsound h.contents hmode hcall)

end

end

end

theorem LogState.boot_coherent (g : LogGeometry) (disk : ℕ → Block)
    (started : List (List (ℕ × Block))) (committed : ℕ) :
    (LogState.boot disk started committed).Coherent g := by
  have hmode : (LogState.boot disk started committed).mode 0 =
      .logging .recoverRead := by simp [LogState.boot]
  refine .of_logger (boot_admission disk started committed) hmode ?_ (binit_contents disk)
  refine .of_recovering rfl ?_
  simp [LogState.boot, LogPc.seen, LogPc.held]

variable {g : LogGeometry}

theorem LogMove.coherent {s s' : LogState} {l : LogLabel} (h : s.Coherent g) (hsound : s.Sound g)
    (hmove : LogMove g s l s') (hdisciplined : Disciplined l s) : s'.Coherent g := by
  cases hmove with
  | crash => exact LogState.boot_coherent g _ _ _
  | beginOp p hbooted hcall hmode => exact h.beginOp hsound hbooted hmode
  | endOp p hmode hcall => exact h.endOp hsound hmode hcall
  | finish p r hmode => exact h.finish hsound hmode
  | bread p b hfree hb => exact h.bget hsound hfree b
  | acquire p i b hcall hlock => exact h.acquiresleep hsound hcall hlock
  | fill p i b hcall => exact h.fill hsound hcall
  | modify p i data hfree hlock hhome =>
    exact h.modify hsound hfree data hlock hhome hdisciplined
  | logWrite p i hmode hfree hlock hhome =>
    exact h.logWrite hsound hmode hfree hlock
  | bwrite p i hfree hhome => exact h.bwrite hsound hfree hhome
  | brelse p i hfree => exact h.releasesleep hsound hfree hdisciplined
  | drop p i hcall => exact h.drop hsound hcall
  | exec p pc hmode hcall hdone => exact h.exec hsound hmode hcall hdone

theorem logRun_coherent {disk : ℕ → Block} {ls : List LogLabel} {s : LogState}
    (hrun : Machine.run (restrict Disciplined (logStep g)) ls
      (.boot disk [] 0) = some s) : s.Sound g ∧ s.Coherent g := by
  refine run_invariant (I := fun s => s.Sound g ∧ s.Coherent g) ?_
    ⟨LogState.boot_sound g disk [] 0, LogState.boot_coherent g disk [] 0⟩ hrun
  rintro l t t' ⟨hsound, hcoherent⟩ hstep
  obtain ⟨hdisciplined, hstep⟩ := Machine.restrict_eq_some.mp hstep
  have hmove := (logStep_move hstep).1
  exact ⟨hmove.sound hsound, hmove.coherent hcoherent hsound hdisciplined⟩

/-! ## What `bread` returns -/

theorem LogState.Sound.mem_pins {s : LogState} (h : s.Sound g) (hbooted : s.booted = true) {b : ℕ}
    (hb : b ∈ s.log.lh) (hinstalled : s.log.committing = true → b ∉ s.installed) : b ∈ s.pins := by
  by_cases hlogger : ∃ p pc, s.mode p = .logging pc
  · obtain ⟨p, pc, hmode⟩ := hlogger
    have hrec := h.admission.not_recovering hbooted hmode
    have hphase := (h.journal.logger p pc hmode).phase
    have hnot := hinstalled (h.admission.committing.mpr ⟨p, pc, hmode, hrec⟩)
    have hcleared : pc.cleared = false := by
      by_contra hc
      rw [hphase.cleared (by simpa using hc)] at hb
      simp at hb
    have hle : pc.unpinned s.log.lh.length ≤ pc.written s.log.lh.length := by
      cases pc with
      | installUnpin tail lbuf dbuf => exact Nat.le_succ tail
      | _ => exact le_refl _
    rw [hphase.pins hrec]
    rw [hphase.installing hrec hcleared] at hnot
    have hsplit : b ∈ s.log.lh.take (pc.written s.log.lh.length) ++
        s.log.lh.drop (pc.written s.log.lh.length) := by
      rw [List.take_append_drop]
      exact hb
    have hdrop := (List.mem_append.mp hsplit).resolve_left hnot
    exact List.drop_subset_drop_left _ hle hdrop
  · push Not at hlogger
    rw [(h.journal.idle hlogger).1]
    exact hb

end Xv6
