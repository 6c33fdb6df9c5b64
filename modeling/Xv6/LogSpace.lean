import Xv6.GroupCommit

/-!
# Reservation of log space

`begin_op` admits an operation only if the log has room for `MAXOPBLOCKS`
blocks of it and of every operation in progress.  The blocks in the log and the
unused part of these reservations therefore always fit into the log.  A block
that is new to the log is paid for by its operation's reservation; a block that
is already there needs no room, but `log_write` tests whether the log is full
before it looks for the block.
-/

namespace Xv6

open LogState Machine

/-- Log slots that the operations in progress may still use up. -/
def reserve (ops : List Op) : ℕ :=
  ((ops.filter fun o => o.live).map fun o =>
    maxOpBlocks - o.blocks.length).sum

/-- Each operation logs at most `MAXOPBLOCKS` distinct blocks. -/
def WithinBudget : LogLabel → LogState → Prop
  | .logWrite p i, s =>
    ∀ o ∈ s.ops, o.pid = p → o.live = true →
      (o.blocks.insert (s.buf i).blockno).length ≤ maxOpBlocks
  | _, _ => True

instance (l : LogLabel) (s : LogState) : Decidable (WithinBudget l s) := by
  unfold WithinBudget
  split <;> infer_instance

/-- The distinct blocks that the operations since the last commit have
logged. -/
def loggedBlocks (ops : List Op) : List ℕ := (ops.flatMap Op.blocks).dedup

/-- Nothing is logged, not even once more, when the operations since the last
commit have logged `LOGSIZE` distinct blocks. -/
def BelowCapacity : LogLabel → LogState → Prop
  | .logWrite _ _, s => (loggedBlocks s.ops).length < logSize
  | _, _ => True

instance (l : LogLabel) (s : LogState) : Decidable (BelowCapacity l s) := by
  unfold BelowCapacity
  split <;> infer_instance

/-! ## The reserve -/

theorem reserve_cons (o : Op) (ops : List Op) : reserve (o :: ops) =
      (if o.live = true then maxOpBlocks - o.blocks.length else 0) + reserve ops := by
  unfold reserve
  cases hlive : o.live with
  | false | true => simp [hlive]

theorem reserve_append (ops ops' : List Op) :
    reserve (ops ++ ops') = reserve ops + reserve ops' := by
  simp [reserve]

theorem reserve_le (ops : List Op) : reserve ops ≤ (livePids ops).length * maxOpBlocks := by
  induction ops with
  | nil => exact Nat.zero_le _
  | cons o ops ih =>
    rw [reserve_cons]
    cases hlive : o.live with
    | false =>
      have hpids : livePids (o :: ops) = livePids ops := by
        simp [livePids, hlive]
      rw [hpids]
      simpa using ih
    | true =>
      have hpids : livePids (o :: ops) = o.pid :: livePids ops := by
        simp [livePids, hlive]
      rw [hpids, List.length_cons, if_pos rfl]
      have hsub : maxOpBlocks - o.blocks.length ≤ maxOpBlocks := Nat.sub_le _ _
      calc
        maxOpBlocks - o.blocks.length + reserve ops ≤ maxOpBlocks +
          (livePids ops).length * maxOpBlocks := Nat.add_le_add hsub ih
        _ = ((livePids ops).length + 1) * maxOpBlocks := by ring

theorem Op.length_log (p b : ℕ) (o : Op) : o.blocks.length ≤ (o.log p b).blocks.length := by
  unfold Op.log
  split
  · by_cases hmem : b ∈ o.blocks <;> simp [hmem]
  · exact le_refl _

theorem reserve_map_log_le (ops : List Op) (p b : ℕ) :
    reserve (ops.map (Op.log p b)) ≤ reserve ops := by
  induction ops with
  | nil => exact le_refl _
  | cons o ops ih =>
    rw [List.map_cons, reserve_cons, reserve_cons, Op.log_live]
    apply Nat.add_le_add _ ih
    split
    · exact Nat.sub_le_sub_left (o.length_log p b) maxOpBlocks
    · exact le_refl _

variable {ops : List Op} {s s' : LogState} {g : LogGeometry}

theorem reserve_map_log_lt {p b : ℕ} {o : Op} (hmem : o ∈ ops) (hpid : o.pid = p)
    (hlive : o.live = true) (hnew : b ∉ o.blocks) (hroom : o.blocks.length < maxOpBlocks) :
    reserve (ops.map (Op.log p b)) + 1 ≤ reserve ops := by
  induction ops with
  | nil => simp at hmem
  | cons o' ops ih =>
    rw [List.map_cons, reserve_cons, reserve_cons, Op.log_live]
    rcases List.mem_cons.mp hmem with rfl | hmem
    · have hlog : (o.log p b).blocks.length = o.blocks.length + 1 := by
        simp [Op.log, hpid, hlive, hnew]
      have hrest := reserve_map_log_le ops p b
      rw [if_pos hlive, if_pos hlive, hlog]
      omega
    · have hrest := ih hmem
      have hfirst := o'.length_log p b
      split <;> omega

theorem reserve_map_close_le (ops : List Op) (p : ℕ) :
    reserve (ops.map (Op.close p)) ≤ reserve ops := by
  induction ops with
  | nil => exact le_refl _
  | cons o ops ih =>
    rw [List.map_cons, reserve_cons, reserve_cons, Op.close_blocks]
    apply Nat.add_le_add _ ih
    by_cases hclose : o.pid = p ∧ o.live = true <;> simp [Op.close, hclose]

theorem exists_live_op {p : ℕ} (hlive : p ∈ livePids ops) :
    ∃ o ∈ ops, o.pid = p ∧ o.live = true := by
  obtain ⟨o, hmem, hpid⟩ := List.mem_map.mp hlive
  obtain ⟨hmem, hlive⟩ := List.mem_filter.mp hmem
  exact ⟨o, hmem, hpid, hlive⟩

/-! ## The invariant -/

/-- The blocks in the log and the reserve fit into the log. -/
def LogState.Fits (s : LogState) : Prop :=
  s.booted = true → s.log.lh.length + reserve s.ops ≤ logSize

theorem LogState.Fits.of_same (h : s.Fits) (hbooted : s'.booted = s.booted)
    (hlh : s'.log.lh = s.log.lh) (hops : s'.ops = s.ops) : s'.Fits := by
  unfold Fits
  rw [hbooted, hlh, hops]
  exact h

theorem LogState.Fits.beginOp (h : s.Fits) (hadmission : s.Admission) (p : ℕ) :
    (s.beginOp p).Fits := by
  unfold LogState.beginOp
  split
  · exact h
  · split
    · exact h
    · rename_i hspace
      intro _
      have hreserve := reserve_le s.ops
      rw [← hadmission.outstanding] at hreserve
      have hnew : reserve [{ pid := p, live := true, blocks := [] }] = maxOpBlocks := rfl
      change s.log.lh.length + reserve (s.ops ++ [_]) ≤ logSize
      rw [reserve_append, hnew]
      rw [Nat.add_mul, Nat.one_mul] at hspace
      omega

theorem LogState.Fits.logWrite {p i : ℕ} (h : s.Fits) (hsound : s.Sound g)
    (hinside : s.mode p = .inside) (hbudget : WithinBudget (.logWrite p i) s) :
    (s.logWrite g p i).Fits := by
  have hold := h (hsound.admission.idle_of_inside hinside).1
  have hmono := reserve_map_log_le s.ops p (s.buf i).blockno
  unfold LogState.logWrite
  split
  · exact h
  · split
    · exact h
    · split
      · intro _
        change s.log.lh.length + reserve (s.ops.map _) ≤ logSize
        omega
      · rename_i hnew
        intro _
        obtain ⟨o, hmem, hpid, hlive⟩ := exists_live_op ((hsound.admission.inside p).mp hinside)
        have hnone := (hsound.admission.idle_of_inside hinside).2
        have hfresh : (s.buf i).blockno ∉ o.blocks := fun hb =>
          hnew (((hsound.journal.idle hnone).2 _).mpr ⟨o, hmem, hb⟩)
        have hroom := hbudget o hmem hpid hlive
        rw [List.insert_of_not_mem hfresh, List.length_cons] at hroom
        have hless := reserve_map_log_lt hmem hpid hlive hfresh hroom
        change (s.log.lh ++ [_]).length + reserve (s.ops.map _) ≤ logSize
        rw [List.length_append, List.length_singleton]
        omega

theorem LogState.Fits.endOp (h : s.Fits) (p : ℕ) : (s.endOp p).Fits := by
  have hmono := reserve_map_close_le s.ops p
  unfold LogState.endOp
  dsimp only
  split
  · exact h
  · split
    · intro hbooted
      have hold := h hbooted
      change s.log.lh.length + reserve (s.ops.map _) ≤ logSize
      omega
    · intro hbooted
      have hold := h hbooted
      change s.log.lh.length + reserve (s.ops.map _) ≤ logSize
      omega

theorem LogState.Fits.of_quiet (hsound : s.Sound g) (hquiet : livePids s.ops = []) : s.Fits := by
  intro hbooted
  have hreserve := reserve_le s.ops
  rw [hquiet, List.length_nil, Nat.zero_mul] at hreserve
  have hlength := (hsound.journal.list hbooted).length
  omega

theorem LogMove.fits {l : LogLabel} (h : s.Fits) (hsound : s.Sound g)
    (hmove : LogMove g s l s') (hbudget : WithinBudget l s) : s'.Fits := by
  have hsound' := hmove.sound hsound
  cases hmove with
  | crash => exact .of_quiet hsound' rfl
  | beginOp p hbooted hcall hmode => exact h.beginOp hsound.admission p
  | endOp p hmode hcall => exact h.endOp p
  | finish p r hmode =>
    refine .of_quiet hsound' ?_
    have hquiet := hsound.admission.quiet p _ hmode
    cases r with
    | true => exact hquiet
    | false => rfl
  | bread p b hfree hb =>
    rcases s.bget_cases p b with ⟨_, heq⟩ | ⟨i, c, _, heq⟩
    · rw [heq]
      exact h
    · rw [heq]
      exact h
  | acquire p i b hcall hlock | fill p i b hcall
  | modify p i data hfree hlock hhome | drop p i hcall => exact h
  | logWrite p i hmode hfree hlock hhome =>
    exact h.logWrite hsound hmode hbudget
  | bwrite p i hfree hhome =>
    exact h.of_same (by simp) (by simp) (by simp)
  | brelse p i hfree =>
    rcases s.releasesleep_cases p i with ⟨_, heq⟩ | ⟨_, heq⟩
    · rw [heq]
      exact h
    · rw [heq]
      exact h
  | exec p pc hmode hcall hdone =>
    obtain ⟨pc', hmode', _⟩ := (hsound.journal.logger p pc hmode).exec hsound.cache hmode hcall
      hdone fun hrec => (hsound.journal.list (hsound.admission.booted_of_commit hmode hrec)).nodup
    exact .of_quiet hsound' (hsound'.admission.quiet p pc' hmode')

theorem logRun_fits {disk : ℕ → Block} {ls : List LogLabel}
    (hrun : Machine.run (restrict WithinBudget (logStep g)) ls
      (.boot disk [] 0) = some s) : s.Sound g ∧ s.Fits := by
  have hboot := boot_sound g disk [] 0
  apply run_invariant (I := fun s => s.Sound g ∧ s.Fits) _ ⟨hboot, .of_quiet hboot rfl⟩ hrun
  intro l t t' ht hstep
  obtain ⟨hbudget, hstep⟩ := Machine.restrict_eq_some.mp hstep
  have hmove := (logStep_move hstep).1
  exact ⟨hmove.sound ht.1, hmove.fits ht.2 ht.1 hbudget⟩

/-! ## When `log_write` panics -/

theorem length_loggedBlocks {lh : List ℕ} (hnodup : lh.Nodup)
    (hlogged : ∀ b, b ∈ lh ↔ Logged ops b) : (loggedBlocks ops).length = lh.length := by
  apply List.Perm.length_eq
  rw [loggedBlocks, List.perm_ext_iff_of_nodup (List.nodup_dedup _) hnodup]
  intro b
  rw [hlogged b, List.mem_dedup, List.mem_flatMap]
  rfl

theorem LogState.logWrite_panic (hpanic : s.panic = none) (p i : ℕ) : (s.logWrite g p i).panic =
    some .tooBig ↔ s.log.lh.length ≥ logSize ∨ s.log.lh.length + 1 ≥ g.nlog := by
  unfold LogState.logWrite
  split
  · rename_i hfull
    simp [hfull]
  · rename_i hfull
    split
    · simp [hfull]
    · split <;> simp [hfull, hpanic]

theorem LogState.exec_panic (g : LogGeometry) (s : LogState) (p : ℕ) (pc : LogPc) :
    (s.exec g p pc).panic = s.panic ∨ (∃ b, pc.wanted g s.log.lh = some b ∧
    Xv6.bget rootDev b s.bcache = none ∧ (s.exec g p pc).panic = some .noBuffers) ∨
    (s.exec g p pc).panic = some .bwrite ∨ (s.exec g p pc).panic = some .brelse := by
  have hwrite : ∀ i, (s.bwrite p i).panic = s.panic ∨ (s.bwrite p i).panic = some .bwrite := by
    intro i
    rcases s.bwrite_cases p i with ⟨_, heq⟩ | ⟨_, heq⟩
    · exact Or.inl (by rw [heq])
    · exact Or.inr (by rw [heq])
  have hwrite' : ∀ i, (s.bwrite p i).panic = s.panic ∨ (∃ b, pc.wanted g s.log.lh = some b ∧
      Xv6.bget rootDev b s.bcache = none ∧ (s.bwrite p i).panic = some .noBuffers) ∨
      (s.bwrite p i).panic = some .bwrite ∨ (s.bwrite p i).panic = some .brelse := fun i =>
    (hwrite i).imp_right fun h => Or.inr (Or.inl h)
  cases hwanted : pc.wanted g s.log.lh with
  | some b =>
    rw [exec_wanted hwanted]
    rcases s.bget_cases p b with ⟨hget, heq⟩ | ⟨i, c, hget, heq⟩
    · exact Or.inr (Or.inl ⟨b, rfl, hget, by rw [heq]⟩)
    · exact Or.inl (by rw [heq])
  | none =>
  cases hreleasing : pc.releasing with
  | some i =>
    rw [exec_releasing hreleasing]
    rcases s.releasesleep_cases p i with ⟨_, heq⟩ | ⟨_, heq⟩
    · exact Or.inl (by rw [heq]; rfl)
    · exact Or.inr (Or.inr (Or.inr (by rw [heq])))
  | none =>
  rw [hwanted] at hwrite'
  cases pc with
  | commit | writeLogTest tail | installTest r tail =>
    simp only [LogState.exec]
    split <;> exact Or.inl rfl
  | writeLogWrite tail dst src => exact hwrite' dst
  | headWrite use buf =>
    cases use with
    | _ => exact hwrite' buf
  | installCopy r tail lbuf dbuf =>
    cases r with
    | _ => exact Or.inl rfl
  | installWrite r tail lbuf dbuf =>
    cases r with
    | _ => exact hwrite' dbuf
  | _ => first | exact Or.inl rfl | contradiction

theorem LogMove.tooBig {l : LogLabel} (hmove : LogMove g s l s') (hpanic : l = .crash ∨
    s.panic = none) (hbig : s'.panic = some .tooBig) : ∃ p i, l = .logWrite p i := by
  cases hmove with
  | crash => contradiction
  | logWrite p i hmode hfree hlock hhome => exact ⟨p, i, rfl⟩
  | beginOp p hbooted hcall hmode =>
    have hnone := hpanic.resolve_left (by simp)
    unfold LogState.beginOp at hbig
    split at hbig
    · simp [hnone] at hbig
    · split at hbig <;> simp [hnone] at hbig
  | endOp p hmode hcall =>
    have hnone := hpanic.resolve_left (by simp)
    unfold LogState.endOp at hbig
    dsimp only at hbig
    split at hbig
    · simp at hbig
    · split at hbig <;> simp [hnone] at hbig
  | finish p r hmode =>
    have hnone := hpanic.resolve_left (by simp)
    cases r with
    | _ => simp [LogState.finish, hnone] at hbig
  | bread p b hfree hb =>
    have hnone := hpanic.resolve_left (by simp)
    rcases s.bget_cases p b with ⟨_, heq⟩ | ⟨i, c, _, heq⟩
    · simp [heq] at hbig
    · simp [heq, hnone] at hbig
  | bwrite p i hfree hhome =>
    have hnone := hpanic.resolve_left (by simp)
    rcases s.bwrite_cases p i with ⟨_, heq⟩ | ⟨_, heq⟩
    · simp [heq, hnone] at hbig
    · simp [heq] at hbig
  | brelse p i hfree =>
    have hnone := hpanic.resolve_left (by simp)
    rcases s.releasesleep_cases p i with ⟨_, heq⟩ | ⟨_, heq⟩
    · simp [heq, setBuf, hnone] at hbig
    · simp [heq] at hbig
  | exec p pc hmode hcall hdone =>
    have hnone := hpanic.resolve_left (by simp)
    rcases s.exec_panic g p pc with h | ⟨_, _, _, h⟩ | h | h
    · simp [h, hnone] at hbig
    · simp [h] at hbig
    · simp [h] at hbig
    · simp [h] at hbig
  | acquire p i b hcall hlock =>
    have hnone := hpanic.resolve_left (by simp)
    simp [acquiresleep, setBuf, hnone] at hbig
  | fill p i b hcall =>
    have hnone := hpanic.resolve_left (by simp)
    simp [LogState.fill, setBuf, hnone] at hbig
  | modify p i data hfree hlock hhome =>
    have hnone := hpanic.resolve_left (by simp)
    simp [LogState.store, setBuf, hnone] at hbig
  | drop p i hcall =>
    have hnone := hpanic.resolve_left (by simp)
    simp [LogState.drop, hnone] at hbig

/-- Within the budget, a call of `log_write` panics exactly if the operations
since the last commit have already logged `LOGSIZE` distinct blocks. -/
theorem logWrite_tooBig (hnlog : logSize + 1 ≤ g.nlog) {p i : ℕ} (hsound : s.Sound g)
    (hfits : s.Fits) (hstep : logStep g (.logWrite p i) s = some s') : s'.panic = some .tooBig ↔
    (loggedBlocks s.ops).length = logSize := by
  obtain ⟨hmove, hpanic⟩ := logStep_move hstep
  have hnone := hpanic.resolve_left (by simp)
  cases hmove with
  | logWrite _ _ hmode _ _ _ =>
    obtain ⟨hbooted, hidle⟩ := hsound.admission.idle_of_inside hmode
    have hlist := hsound.journal.list hbooted
    have hcount := length_loggedBlocks hlist.nodup (hsound.journal.idle hidle).2
    have hfit := hfits hbooted
    rw [logWrite_panic hnone, hcount]
    omega

end Xv6
