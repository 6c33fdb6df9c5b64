import Xv6.LogSystem

/-!
# Admission of operations

`begin_op` and `end_op` keep `outstanding` equal to the number of operations
in progress, and the log's own code runs only while there is none.  The
invariant below is about the processes' modes, `outstanding`, `committing` and
the list of operations alone; it needs nothing from the buffer cache.
-/

namespace Xv6

open Function (update update_of_ne update_self)

def livePids (ops : List Op) : List ℕ := (ops.filter fun o => o.live).map Op.pid

@[simp] theorem livePids_nil : livePids [] = [] := rfl

theorem livePids_append_live (ops : List Op) (p : ℕ) :
    livePids (ops ++ [{ pid := p, live := true, blocks := [] }]) = livePids ops ++ [p] := by
  simp [livePids]

@[simp] theorem Op.log_pid (p b : ℕ) (o : Op) : (o.log p b).pid = o.pid := by
  unfold Op.log
  split <;> rfl

@[simp] theorem Op.log_live (p b : ℕ) (o : Op) : (o.log p b).live = o.live := by
  unfold Op.log
  split <;> rfl

theorem livePids_map_log (ops : List Op) (p b : ℕ) :
    livePids (ops.map (Op.log p b)) = livePids ops := by
  induction ops with
  | nil => rfl
  | cons o ops ih =>
    unfold livePids at ih ⊢
    cases hlive : o.live with
    | false | true => simpa [hlive] using ih

theorem livePids_map_close (ops : List Op) (p : ℕ) :
    livePids (ops.map (Op.close p)) = (livePids ops).filter (· != p) := by
  induction ops with
  | nil => rfl
  | cons o ops ih =>
    unfold livePids at ih ⊢
    cases hlive : o.live with
    | false =>
      have hclose : o.close p = o := by simp [Op.close, hlive]
      simpa [hclose, hlive] using ih
    | true =>
      by_cases hpid : o.pid = p
      · have hclose : (o.close p).live = false := by
          simp [Op.close, hlive, hpid]
        simpa [hclose, hlive, hpid] using ih
      · have hclose : o.close p = o := by simp [Op.close, hpid]
        simpa [hclose, hlive, hpid] using ih

/-- Whether the statement belongs to `recover_from_log`. -/
def LogPc.recovering : LogPc → Bool
  | .headRead .recover => true
  | .headFill .recover _ => true
  | .headWrite .recover _ => true
  | .headRel .recover _ => true
  | .installTest r _ => r
  | .installLog r _ => r
  | .installDst r _ _ => r
  | .installCopy r _ _ _ => r
  | .installWrite r _ _ _ => r
  | .installRelLog r _ _ _ => r
  | .installRelDst r _ _ => r
  | .clear r => r
  | .recoverRead => true
  | .recoverHead _ => true
  | .recoverRel _ => true
  | .done r => r
  | _ => false

@[simp] theorem LogPc.recovering_afterBread (pc : LogPc) (i : ℕ) :
    (pc.afterBread i).recovering = pc.recovering := by
  cases pc with
  | headRead use => cases use <;> rfl
  | _ => rfl

@[simp] theorem LogPc.recovering_afterBrelse (pc : LogPc) :
    pc.afterBrelse.recovering = pc.recovering := by
  cases pc with
  | headRel use buf => cases use <;> rfl
  | _ => rfl

structure LogState.Admission (s : LogState) : Prop where
  unique : ∀ p q pc pc', s.mode p = .logging pc → s.mode q = .logging pc' → p = q
  committing : s.log.committing = true ↔ ∃ p pc, s.mode p = .logging pc ∧ pc.recovering = false
  booted : s.booted = false ↔ ∃ p pc, s.mode p = .logging pc ∧ pc.recovering = true
  quiet : ∀ p pc, s.mode p = .logging pc → livePids s.ops = []
  outstanding : s.log.outstanding = (livePids s.ops).length
  inside : ∀ p, s.mode p = .inside ↔ p ∈ livePids s.ops
  nodup : (livePids s.ops).Nodup
  panic : s.panic ≠ some .committing ∧ s.panic ≠ some .outsideTrans

/-! ## Moves of single processes -/

variable {s s' : LogState} {p : ℕ}

theorem LogState.Admission.of_modes (h : s.Admission) (hlogging : ∀ p pc, s'.mode p = .logging pc ↔
    s.mode p = .logging pc) (hinside : ∀ p, s'.mode p = .inside ↔ s.mode p = .inside)
    (hout : s'.log.outstanding = s.log.outstanding)
    (hcommitting : s'.log.committing = s.log.committing)
    (hbooted : s'.booted = s.booted) (hops : livePids s'.ops = livePids s.ops)
    (hpanic : s'.panic ≠ some .committing ∧ s'.panic ≠ some .outsideTrans) : s'.Admission := by
  constructor
  · simp only [hlogging]
    exact h.unique
  · simp only [hlogging, hcommitting]
    exact h.committing
  · simp only [hlogging, hbooted]
    exact h.booted
  · simp only [hlogging, hops]
    exact h.quiet
  · rw [hout, hops]
    exact h.outstanding
  · simp only [hinside, hops]
    exact h.inside
  · rw [hops]
    exact h.nodup
  · exact hpanic

theorem LogState.Admission.of_same
    (h : s.Admission) (hmode : s'.mode = s.mode) (hlog : s'.log = s.log)
    (hbooted : s'.booted = s.booted) (hops : livePids s'.ops = livePids s.ops)
    (hpanic : s'.panic ≠ some .committing ∧ s'.panic ≠ some .outsideTrans) : s'.Admission := by
  apply h.of_modes _ _ (by rw [hlog]) (by rw [hlog]) hbooted hops hpanic <;>
    simp [hmode]

theorem LogState.Admission.of_idle {m : Mode} (h : s.Admission) (hold : s.mode p ≠ .inside ∧
    ∀ pc, s.mode p ≠ .logging pc) (hnew : m ≠ .inside ∧ ∀ pc, m ≠ .logging pc) :
    ({ s with mode := update s.mode p m } : LogState).Admission := by
  refine Admission.of_modes (s := s) h ?_ ?_ rfl rfl rfl rfl h.panic
  · intro q pc
    by_cases hq : q = p
    · subst hq
      simp [hold.2 pc, hnew.2 pc]
    · simp [hq]
  · intro q
    by_cases hq : q = p
    · subst hq
      simp [hold.1, hnew.1]
    · simp [hq]

theorem LogState.Admission.of_no_logger
    (hbooted : s.booted = true) (hcommitting : s.log.committing = false)
    (hnone : ∀ p pc, s.mode p ≠ .logging pc) (hout : s.log.outstanding = (livePids s.ops).length)
    (hinside : ∀ p, s.mode p = .inside ↔ p ∈ livePids s.ops) (hnodup : (livePids s.ops).Nodup)
    (hpanic : s.panic ≠ some .committing ∧ s.panic ≠ some .outsideTrans) : s.Admission := by
  constructor
  · intro p q pc pc' hp
    exact absurd hp (hnone p pc)
  · simp [hcommitting, hnone]
  · simp [hbooted, hnone]
  · intro p pc hp
    exact absurd hp (hnone p pc)
  · exact hout
  · exact hinside
  · exact hnodup
  · exact hpanic

/-- The other way: the log's code is run by `p`, at `pc`. -/
theorem LogState.Admission.of_logger (pc : LogPc) (hmode : ∀ q qc, s.mode q = .logging qc ↔
    q = p ∧ qc = pc) (hcommitting : s.log.committing = !pc.recovering)
    (hbooted : s.booted = !pc.recovering) (hempty : livePids s.ops = [])
    (hout : s.log.outstanding = 0) (hinside : ∀ q, s.mode q ≠ .inside)
    (hpanic : s.panic ≠ some .committing ∧ s.panic ≠ some .outsideTrans) : s.Admission := by
  constructor
  · intro q q' pc pc' hq hq'
    rw [((hmode q pc).mp hq).1, ((hmode q' pc').mp hq').1]
  · simp [hmode, hcommitting]
  · simp [hmode, hbooted]
  · exact fun _ _ _ => hempty
  · rw [hempty, hout, List.length_nil]
  · simp [hinside, hempty]
  · simp [hempty]
  · exact hpanic

theorem update_ne_logging {f : ℕ → Mode} {m : Mode} (hm : ∀ pc, m ≠ .logging pc) (h : ∀ q, q ≠ p →
    ∀ pc, f q ≠ .logging pc) (q : ℕ) (pc : LogPc) : update f p m q ≠ .logging pc := by
  by_cases hq : q = p
  · rw [hq, update_self]
    exact hm pc
  · rw [update_of_ne hq]
    exact h q hq pc

theorem update_eq_logging {f : ℕ → Mode} {pc : LogPc} (h : ∀ q, q ≠ p → ∀ pc, f q ≠ .logging pc)
    (q : ℕ) (qc : LogPc) : update f p (.logging pc) q = .logging qc ↔ q = p ∧ qc = pc := by
  by_cases hq : q = p
  · simp [hq, eq_comm]
  · simp [hq, h q hq qc]

theorem wakeupLog_eq_logging (mode : ℕ → Mode) (p : ℕ) (pc : LogPc) :
    wakeupLog mode p = .logging pc ↔ mode p = .logging pc := by
  unfold wakeupLog
  cases mode p <;> simp

theorem wakeupLog_eq_inside (mode : ℕ → Mode) (p : ℕ) :
    wakeupLog mode p = .inside ↔ mode p = .inside := by
  unfold wakeupLog
  cases mode p <;> simp

theorem LogState.Admission.of_goto {pc pc' : LogPc} (h : s.Admission)
    (hpc : s.mode p = .logging pc) (hmode : s'.mode = update s.mode p (.logging pc'))
    (hrec : pc'.recovering = pc.recovering) (hout : s'.log.outstanding = s.log.outstanding)
    (hcommitting : s'.log.committing = s.log.committing) (hbooted : s'.booted = s.booted)
    (hops : s'.ops = s.ops) (hpanic : s'.panic ≠ some .committing ∧ s'.panic ≠ some .outsideTrans) :
    s'.Admission := by
  -- `p` is the only process in the log's code, before and after
  have hself : s'.mode p = .logging pc' := by rw [hmode, update_self]
  have hother : ∀ q, q ≠ p → s'.mode q = s.mode q := by
    intro q hq
    rw [hmode, update_of_ne hq]
  have honly : ∀ q qc, s'.mode q = .logging qc → q = p := by
    intro q qc hq
    by_contra hne
    rw [hother q hne] at hq
    exact hne (h.unique q p qc pc hq hpc)
  have hiff : ∀ r, (∃ q qc, s'.mode q = .logging qc ∧ qc.recovering = r) ↔
      ∃ q qc, s.mode q = .logging qc ∧ qc.recovering = r := by
    intro r
    constructor
    · rintro ⟨q, qc, hq, hr⟩
      obtain rfl := honly q qc hq
      rw [hself] at hq
      cases hq
      exact ⟨q, pc, hpc, hrec ▸ hr⟩
    · rintro ⟨q, qc, hq, hr⟩
      obtain rfl := h.unique q p qc pc hq hpc
      rw [hpc] at hq
      cases hq
      exact ⟨q, pc', hself, hrec.trans hr⟩
  constructor
  · intro q q' qc qc' hq hq'
    rw [honly q qc hq, honly q' qc' hq']
  · rw [hcommitting, hiff]
    exact h.committing
  · rw [hbooted, hiff]
    exact h.booted
  · intro _ _ _
    rw [hops]
    exact h.quiet p pc hpc
  · rw [hout, hops]
    exact h.outstanding
  · intro q
    rw [hops, ← h.inside q]
    by_cases hq : q = p
    · subst hq
      simp [hself, hpc]
    · rw [hother q hq]
  · rw [hops]
    exact h.nodup
  · exact hpanic

/-! ## The three primitives that branch -/

theorem LogState.bget_cases (s : LogState) (p b : ℕ) :
    (Xv6.bget rootDev b s.bcache = none ∧ s.bget p b = { s with panic := some .noBuffers }) ∨
    ∃ i c, Xv6.bget rootDev b s.bcache = some (i, c) ∧ s.bget p b = { s with
            bcache := c
            call := update s.call p (.want i b)
            refs := (p, i) :: s.refs } := by
  unfold LogState.bget
  cases hget : Xv6.bget rootDev b s.bcache with
  | none => exact Or.inl ⟨rfl, rfl⟩
  | some r => exact Or.inr ⟨r.1, r.2, rfl, rfl⟩

theorem LogState.bwrite_cases (s : LogState) (p i : ℕ) :
    ((s.buf i).lock = some p ∧ s.bwrite p i = { s with
            disk := update s.disk (s.buf i).blockno (s.buf i).data
            dirty := s.dirty.filter (· ≠ i) }) ∨
      ((s.buf i).lock ≠ some p ∧ s.bwrite p i = { s with panic := some .bwrite }) := by
  unfold LogState.bwrite
  by_cases hlock : (s.buf i).lock = some p
  · exact Or.inl ⟨hlock, by rw [if_pos hlock]⟩
  · exact Or.inr ⟨hlock, by rw [if_neg hlock]⟩

theorem LogState.releasesleep_cases (s : LogState) (p i : ℕ) :
    ((s.buf i).lock = some p ∧ s.releasesleep p i = { s.setBuf i { s.buf i with lock := none } with
            call := update s.call p (.drop i) }) ∨
      ((s.buf i).lock ≠ some p ∧ s.releasesleep p i = { s with panic := some .brelse }) := by
  unfold releasesleep
  by_cases hlock : (s.buf i).lock = some p
  · exact Or.inl ⟨hlock, by rw [if_pos hlock]⟩
  · exact Or.inr ⟨hlock, by rw [if_neg hlock]⟩

theorem LogState.Admission.bget (h : s.Admission) (p b : ℕ) : (s.bget p b).Admission := by
  rcases s.bget_cases p b with ⟨_, heq⟩ | ⟨i, c, _, heq⟩
  · rw [heq]
    exact h.of_same rfl rfl rfl rfl (by simp)
  · rw [heq]
    exact h.of_same rfl rfl rfl rfl h.panic

theorem LogState.Admission.bwrite (h : s.Admission) (p i : ℕ) : (s.bwrite p i).Admission := by
  rcases s.bwrite_cases p i with ⟨_, heq⟩ | ⟨_, heq⟩
  · rw [heq]
    exact h.of_same rfl rfl rfl rfl h.panic
  · rw [heq]
    exact h.of_same rfl rfl rfl rfl (by simp)

theorem LogState.Admission.releasesleep (h : s.Admission) (p i : ℕ) :
    (s.releasesleep p i).Admission := by
  rcases s.releasesleep_cases p i with ⟨_, heq⟩ | ⟨_, heq⟩
  · rw [heq]
    exact h.of_same rfl rfl rfl rfl h.panic
  · rw [heq]
    exact h.of_same rfl rfl rfl rfl (by simp)

@[simp] theorem LogState.bwrite_mode (s : LogState) (p i : ℕ) : (s.bwrite p i).mode = s.mode := by
  rcases s.bwrite_cases p i with ⟨_, heq⟩ | ⟨_, heq⟩ <;> rw [heq]

/-! ## The log's own code -/

theorem LogState.Admission.exec {pc : LogPc} (g : LogGeometry) (h : s.Admission)
    (hpc : s.mode p = .logging pc) : (s.exec g p pc).Admission := by
  have hwrite : ∀ i, (s.bwrite p i).mode p = .logging pc := by
    intro i
    rw [bwrite_mode]
    exact hpc
  have hjump : ∀ pc', pc'.recovering = pc.recovering → (s.goto p pc').Admission := fun pc' hrec =>
    h.of_goto hpc rfl hrec rfl rfl rfl rfl h.panic
  have hafter : ∀ i pc', pc'.recovering = pc.recovering →
      ((s.bwrite p i).goto p pc').Admission := fun i pc' hrec =>
    (h.bwrite p i).of_goto (hwrite i) rfl hrec rfl rfl rfl rfl
      (h.bwrite p i).panic
  cases pc with
  | commit =>
    simp only [LogState.exec]
    split
    · exact h.of_goto hpc rfl rfl rfl rfl rfl rfl h.panic
    · exact hjump _ rfl
  | writeLogTest tail | installTest r tail =>
    simp only [LogState.exec]
    split <;> exact hjump _ rfl
  | writeLogTo tail | writeLogFrom tail dst | headRead use | installLog r tail
  | installDst r tail lbuf | recoverRead => exact h.bget _ _
  | writeLogCopy tail dst src | installUnpin tail lbuf dbuf | recoverHead buf =>
    exact h.of_goto hpc rfl rfl rfl rfl rfl rfl h.panic
  | writeLogWrite tail dst src => exact hafter _ _ rfl
  | writeLogRelFrom tail dst src | writeLogRelTo tail dst | headRel use buf
  | installRelLog r tail lbuf dbuf | installRelDst r tail dbuf
  | recoverRel buf => exact h.releasesleep _ _
  | headFill use buf =>
    cases use with
    | _ => exact h.of_goto hpc rfl rfl rfl rfl rfl rfl h.panic
  | headWrite use buf =>
    cases use with
    | commit =>
      exact (h.bwrite p buf).of_goto (hwrite buf) rfl rfl rfl rfl rfl rfl (h.bwrite p buf).panic
    | erase | recover => exact hafter _ _ rfl
  | installCopy r tail lbuf dbuf | clear r =>
    cases r with
    | _ => exact h.of_goto hpc rfl rfl rfl rfl rfl rfl h.panic
  | installWrite r tail lbuf dbuf =>
    cases r with
    | true => exact hafter _ _ rfl
    | false =>
      exact (h.bwrite p dbuf).of_goto (hwrite dbuf) rfl rfl rfl rfl rfl rfl (h.bwrite p dbuf).panic
  | done r => exact h

/-! ## Beginning, logging and ending -/

theorem LogState.Admission.idle_not_logging (h : s.Admission) (hbooted : s.booted = true)
    (hcommitting : s.log.committing = false) (p : ℕ) (pc : LogPc) : s.mode p ≠ .logging pc := by
  intro hpc
  cases hrec : pc.recovering with
  | false =>
    have := h.committing.mpr ⟨p, pc, hpc, hrec⟩
    rw [hcommitting] at this
    contradiction
  | true =>
    have := h.booted.mpr ⟨p, pc, hpc, hrec⟩
    rw [hbooted] at this
    contradiction

theorem LogState.Admission.beginOp (h : s.Admission) (hbooted : s.booted = true)
    (hold : s.mode p ≠ .inside ∧ ∀ pc, s.mode p ≠ .logging pc) : (s.beginOp p).Admission := by
  unfold LogState.beginOp
  split
  · exact h.of_idle hold (by simp)
  · split
    · exact h.of_idle hold (by simp)
    · rename_i hcommitting _
      have hidle := h.idle_not_logging hbooted (by simpa using hcommitting)
      have hnew := update_ne_logging (p := p) (m := .inside) (by simp) fun q _ => hidle q
      have hfresh : p ∉ livePids s.ops := by
        rw [← h.inside p]
        exact hold.1
      refine .of_no_logger hbooted (by simpa using hcommitting) hnew ?_ ?_ ?_ h.panic
      · simp only [livePids_append_live, List.length_append, List.length_singleton, h.outstanding]
      · intro q
        simp only [livePids_append_live, List.mem_append, List.mem_singleton, ← h.inside q]
        by_cases hq : q = p
        · subst hq
          simp
        · simp [hq]
      · rw [livePids_append_live]
        refine List.Nodup.append h.nodup (List.nodup_singleton p) ?_
        simpa using hfresh

theorem LogState.Admission.logWrite (g : LogGeometry) (h : s.Admission)
    (hinside : s.mode p = .inside) (i : ℕ) : (s.logWrite g p i).Admission := by
  have hmem := (h.inside p).mp hinside
  have hpos : ¬s.log.outstanding < 1 := by
    rw [h.outstanding]
    have := List.length_pos_of_mem hmem
    omega
  unfold LogState.logWrite
  split
  · exact h.of_same rfl rfl rfl rfl (by simp)
  · split
    · exact h.of_same rfl rfl rfl (livePids_map_log _ _ _) h.panic
    · refine Admission.of_modes (s := s) h ?_ ?_ rfl rfl rfl
        (livePids_map_log _ _ _) h.panic <;> simp

theorem LogState.Admission.endOp (h : s.Admission)
    (hinside : s.mode p = .inside) : (s.endOp p).Admission := by
  have hmem := (h.inside p).mp hinside
  have hnone : ∀ q pc, s.mode q ≠ .logging pc := by
    intro q pc hq
    rw [h.quiet q pc hq] at hmem
    simp at hmem
  have hcommitting : ¬s.log.committing = true := by
    rw [h.committing]
    rintro ⟨q, pc, hq, _⟩
    exact hnone q pc hq
  have hbooted : s.booted = true := by
    by_contra hb
    obtain ⟨q, pc, hq, _⟩ := h.booted.mp (by simpa using hb)
    exact hnone q pc hq
  have hlen : (livePids (s.ops.map (Op.close p))).length + 1 = (livePids s.ops).length := by
    rw [livePids_map_close, ← h.nodup.erase_eq_filter p, List.length_erase_of_mem hmem]
    have := List.length_pos_of_mem hmem
    omega
  have hmemClose : ∀ q, q ∈ livePids (s.ops.map (Op.close p)) ↔ q ∈ livePids s.ops ∧ q ≠ p := by
    intro q
    simp [livePids_map_close]
  have hnodup : (livePids (s.ops.map (Op.close p))).Nodup := by
    rw [livePids_map_close]
    exact h.nodup.filter _
  have hout := h.outstanding
  unfold LogState.endOp
  dsimp only
  rw [if_neg hcommitting]
  split
  · -- the last operation: nobody is left inside, and `p` starts `commit`
    rename_i hzero
    have hempty : livePids (s.ops.map (Op.close p)) = [] := by
      apply List.eq_nil_of_length_eq_zero
      omega
    refine .of_logger _ (update_eq_logging fun q _ => hnone q) rfl hbooted hempty hzero ?_ h.panic
    intro q hq
    by_cases hqp : q = p
    · simp [hqp] at hq
    · simp only [update_of_ne hqp, h.inside q] at hq
      have hlive := (hmemClose q).mpr ⟨hq, hqp⟩
      simp [hempty] at hlive
  · -- others are still inside
    have hmode := update_ne_logging (p := p) (m := .outside) (by simp)
      fun q _ pc => (wakeupLog_eq_logging _ q pc).not.mpr (hnone q pc)
    refine .of_no_logger hbooted (by simpa using hcommitting) hmode ?_ ?_ hnodup h.panic
    · dsimp only
      omega
    · intro q
      simp only [hmemClose q, ← h.inside q]
      by_cases hq : q = p
      · subst hq
        simp
      · rw [update_of_ne hq, wakeupLog_eq_inside]
        simp [hq]

theorem LogState.Admission.finish {r : Bool} (h : s.Admission)
    (hpc : s.mode p = .logging (.done r)) : (s.finish p r).Admission := by
  have hlive := h.quiet p _ hpc
  have honly : ∀ q pc, s.mode q = .logging pc → q = p := fun q pc hq =>
    h.unique q p pc _ hq hpc
  have hother : ∀ q, q ≠ p → ∀ pc, s.mode q ≠ .logging pc :=
    fun q hq pc hlog => hq (honly q pc hlog)
  have hnone : ¬∃ q pc, s.mode q = .logging pc ∧ pc.recovering = !r := by
    rintro ⟨q, pc, hq, hrec⟩
    obtain rfl := honly q pc hq
    rw [hpc] at hq
    cases hq
    simp [LogPc.recovering] at hrec
  cases r with
  | true =>
    have hmode := update_ne_logging (p := p) (m := .outside) (by simp) hother
    have hcommitting : ¬s.log.committing = true := by
      rw [h.committing]
      exact hnone
    refine .of_no_logger rfl (Bool.eq_false_of_not_eq_true hcommitting)
      hmode h.outstanding ?_ h.nodup h.panic
    intro q
    change update s.mode p Mode.outside q = .inside ↔ q ∈ livePids s.ops
    rw [← h.inside q]
    by_cases hq : q = p
    · subst hq
      simp [hpc]
    · rw [update_of_ne hq]
  | false =>
    have hmode := update_ne_logging (p := p) (m := .outside) (by simp)
      fun q hq pc => (wakeupLog_eq_logging _ q pc).not.mpr (hother q hq pc)
    have hbooted : ¬s.booted = false := by
      rw [h.booted]
      exact hnone
    refine .of_no_logger (Bool.eq_true_of_not_eq_false hbooted) rfl
      hmode ?_ ?_ List.nodup_nil h.panic
    · change s.log.outstanding = 0
      rw [h.outstanding, hlive, List.length_nil]
    · intro q
      change update (wakeupLog s.mode) p Mode.outside q = .inside ↔ q ∈ livePids []
      simp only [livePids_nil, List.not_mem_nil, iff_false]
      intro hq
      by_cases hqp : q = p
      · subst hqp
        simp at hq
      · rw [update_of_ne hqp, wakeupLog_eq_inside, h.inside q, hlive] at hq
        simp at hq

/-! ## Whole runs -/

theorem LogState.boot_admission (disk : ℕ → Block) (started : List (List (ℕ × Block)))
    (committed : ℕ) : (LogState.boot disk started committed).Admission := by
  refine .of_logger .recoverRead (update_eq_logging (by simp)) rfl rfl rfl rfl
    ?_ (by simp [LogState.boot])
  intro q
  by_cases hq : q = 0 <;> simp [LogState.boot, hq]

theorem LogMove.admission {g : LogGeometry} {l : LogLabel} (h : s.Admission)
    (hmove : LogMove g s l s') : s'.Admission := by
  cases hmove with
  | crash => exact LogState.boot_admission _ _ _
  | beginOp p hbooted hcall hmode =>
    apply h.beginOp hbooted
    rcases hmode with hmode | hmode <;> simp [hmode]
  | endOp p hmode hcall => exact h.endOp hmode
  | finish p r hmode => exact h.finish hmode
  | bread p b hfree hb => exact h.bget p b
  | acquire p i b hcall hlock | modify p i data hfree hlock hhome =>
    exact h.of_same rfl rfl rfl rfl h.panic
  | fill p i b hcall =>
    cases hmode : s.mode p with
    | logging pc =>
      exact h.of_goto hmode rfl (pc.recovering_afterBread i) rfl rfl rfl rfl h.panic
    | _ =>
      refine h.of_same ?_ rfl rfl rfl h.panic
      simp [Mode.afterBread, ← hmode]
  | logWrite p i hmode hcall hlock hhome => exact h.logWrite g hmode i
  | bwrite p i hfree hhome => exact h.bwrite p i
  | brelse p i hfree => exact h.releasesleep p i
  | drop p i hcall =>
    cases hmode : s.mode p with
    | logging pc =>
      exact h.of_goto hmode rfl pc.recovering_afterBrelse rfl rfl rfl rfl h.panic
    | _ =>
      refine h.of_same ?_ rfl rfl rfl h.panic
      simp [Mode.afterBrelse, ← hmode]
  | exec p pc hmode hcall hdone => exact h.exec g hmode

end Xv6
