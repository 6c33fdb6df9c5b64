import Xv6.LogSpace

/-!
# Runs in which only operations read blocks

If only operations read blocks and an operation holds no buffer when it ends,
then a process in the log's own code is the only one that holds buffers while
it is there, and it holds exactly those of the table of its statement.
-/

namespace Xv6

open Function (update update_of_ne update_self)
open LogState Bcache

/-- Blocks are read inside operations only, and an operation ends without
holding a buffer. -/
def OperationsOnly : LogLabel → LogState → Prop
  | .bread p _, s => s.mode p = .inside
  | .endOp p, s => ∀ r ∈ s.refs, r.1 ≠ p
  | _, _ => True

instance (l : LogLabel) (s : LogState) : Decidable (OperationsOnly l s) := by
  unfold OperationsOnly
  split <;> infer_instance

/-! ## Statements without a call -/

/-- Statements to be executed after this one, with `n` blocks in the log. -/
def LogPc.stage (n : ℕ) : LogPc → ℕ
  | .commit => 12 + 17 * n
  | .writeLogTest tail => 11 + 9 * n + 8 * (n - tail)
  | .writeLogTo tail => 10 + 9 * n + 8 * (n - tail)
  | .writeLogFrom tail _ => 9 + 9 * n + 8 * (n - tail)
  | .writeLogCopy tail _ _ => 8 + 9 * n + 8 * (n - tail)
  | .writeLogWrite tail _ _ => 7 + 9 * n + 8 * (n - tail)
  | .writeLogRelFrom tail _ _ => 6 + 9 * n + 8 * (n - tail)
  | .writeLogRelTo tail _ => 5 + 9 * n + 8 * (n - tail)
  | .headRead .commit => 10 + 9 * n
  | .headFill .commit _ => 9 + 9 * n
  | .headWrite .commit _ => 8 + 9 * n
  | .headRel .commit _ => 7 + 9 * n
  | .recoverRead => 9 + 9 * n
  | .recoverHead _ => 8 + 9 * n
  | .recoverRel _ => 7 + 9 * n
  | .installTest _ tail => 6 + 9 * (n - tail)
  | .installLog _ tail => 5 + 9 * (n - tail)
  | .installDst _ tail _ => 4 + 9 * (n - tail)
  | .installCopy _ tail _ _ => 3 + 9 * (n - tail)
  | .installWrite _ tail _ _ => 2 + 9 * (n - tail)
  | .installUnpin tail _ _ => 1 + 9 * (n - tail)
  | .installRelLog _ tail _ _ => 9 * (n - tail)
  | .installRelDst _ tail _ => 9 * (n - tail) - 1
  | .clear _ => 5
  | .headRead _ => 4
  | .headFill _ _ => 3
  | .headWrite _ _ => 2
  | .headRel _ _ => 1
  | .done _ => 0

theorem LogPc.stage_afterBread {g : LogGeometry} {lh : List ℕ} {pc : LogPc} {n b : ℕ}
    (hwanted : pc.wanted g lh = some b) (i : ℕ) : (pc.afterBread i).stage n < pc.stage n := by
  cases pc with
  | headRead use =>
    cases use with
    | _ => simp [afterBread, LogPc.stage]
  | _ => first | contradiction | simp [afterBread, LogPc.stage]

theorem LogPc.stage_afterBrelse {pc : LogPc} {n i : ℕ} (hreleasing : pc.releasing = some i)
    (hrange : pc.afterBrelse.inRange n) : pc.afterBrelse.stage n < pc.stage n := by
  cases pc with
  | headRel use buf =>
    cases use with
    | _ => simp [afterBrelse, LogPc.stage]
  | writeLogRelFrom tail dst src => simp [afterBrelse, LogPc.stage]
  | writeLogRelTo tail dst | installRelLog r tail lbuf dbuf
  | installRelDst r tail dbuf =>
    simp only [afterBrelse, inRange] at hrange
    simp only [afterBrelse, LogPc.stage]
    omega
  | recoverRel buf =>
    simp only [afterBrelse, LogPc.stage]
    omega
  | _ => contradiction

/-- A statement that takes no lock and releases none changes `s` into `t` and
goes on to `pc'`. -/
structure LogState.Local
    (g : LogGeometry) (s : LogState) (p : ℕ) (pc : LogPc)
    (t : LogState) (pc' : LogPc) : Prop where
  exec : s.exec g p pc = t.goto p pc'
  mode : t.mode = s.mode
  call : t.call = s.call
  refs : t.refs = s.refs
  lock : ∀ i, (t.buf i).lock = (s.buf i).lock
  held : pc'.held g t.log.lh = pc.held g s.log.lh
  recovering : pc'.recovering = pc.recovering
  pins : t.pins.length ≤ s.pins.length
  panic : (∀ h ∈ pc.held g s.log.lh, (s.buf h.1).lock = some p) → t.panic = s.panic
  stage : pc.inRange s.log.lh.length → (∀ buf, pc ≠ .recoverHead buf) →
    pc'.stage t.log.lh.length < pc.stage s.log.lh.length

section

variable {g : LogGeometry} {s : LogState} {p : ℕ} {pc : LogPc}

theorem LogState.bwrite_panic_of_lock {i : ℕ}
    (hlock : (s.buf i).lock = some p) : (s.bwrite p i).panic = s.panic := by
  simp [LogState.bwrite, hlock]

theorem LogState.setData_lock (s : LogState) (i : ℕ) (data : Block) (j : ℕ) :
    ((s.setBuf i { s.buf i with data := data }).buf j).lock = (s.buf j).lock :=
  s.bcache.set_field (b := { s.buf i with data := data }) Buf.lock rfl j

variable {pc' : LogPc}

theorem LogState.Local.of_list {t : LogState}
    (hexec : s.exec g p pc = t.goto p pc') (hmode : t.mode = s.mode) (hcall : t.call = s.call)
    (hrefs : t.refs = s.refs) (hlock : ∀ i, (t.buf i).lock = (s.buf i).lock)
    (hlh : t.log.lh = s.log.lh) (hheld : pc'.held g s.log.lh = pc.held g s.log.lh)
    (hrec : pc'.recovering = pc.recovering) (hpins : t.pins.length ≤ s.pins.length)
    (hpanic : (∀ h ∈ pc.held g s.log.lh, (s.buf h.1).lock = some p) → t.panic = s.panic)
    (hstage : pc.inRange s.log.lh.length → pc'.stage s.log.lh.length < pc.stage s.log.lh.length) :
    s.Local g p pc t pc' := by
  refine ⟨hexec, hmode, hcall, hrefs, hlock, ?_, hrec, hpins, hpanic, ?_⟩
  · rw [hlh, hheld]
  · rw [hlh]
    exact fun hrange _ => hstage hrange

theorem LogState.Local.of_goto (hexec : s.exec g p pc = s.goto p pc')
    (hheld : pc'.held g s.log.lh = pc.held g s.log.lh) (hrec : pc'.recovering = pc.recovering)
    (hstage : pc.inRange s.log.lh.length → pc'.stage s.log.lh.length < pc.stage s.log.lh.length) :
    s.Local g p pc s pc' :=
  .of_list hexec rfl rfl rfl (fun _ => rfl) rfl hheld hrec (le_refl _)
    (fun _ => rfl) hstage

theorem LogState.Local.of_bwrite {t : LogState} {i b : ℕ} (hexec : s.exec g p pc = t.goto p pc')
    (hmode : t.mode = (s.bwrite p i).mode) (hcall : t.call = (s.bwrite p i).call)
    (hrefs : t.refs = (s.bwrite p i).refs) (hbcache : t.bcache = (s.bwrite p i).bcache)
    (hlog : t.log = (s.bwrite p i).log) (hpins : t.pins = (s.bwrite p i).pins)
    (hpanic : t.panic = (s.bwrite p i).panic) (hmem : (i, b) ∈ pc.held g s.log.lh)
    (hheld : pc'.held g s.log.lh = pc.held g s.log.lh) (hrec : pc'.recovering = pc.recovering)
    (hstage : pc.inRange s.log.lh.length → pc'.stage s.log.lh.length < pc.stage s.log.lh.length) :
    s.Local g p pc t pc' := by
  refine .of_list hexec ?_ ?_ ?_ ?_ ?_ hheld hrec ?_ ?_ hstage
  · rw [hmode, bwrite_mode]
  · rw [hcall, bwrite_call]
  · rw [hrefs, bwrite_refs]
  · intro j
    rw [LogState.buf, hbcache, bwrite_bcache]
    rfl
  · rw [hlog, bwrite_log]
  · rw [hpins, bwrite_pins]
  · intro hlocked
    rw [hpanic, bwrite_panic_of_lock (hlocked _ hmem)]

theorem LogState.exists_local (p : ℕ) (hwanted : pc.wanted g s.log.lh = none)
    (hreleasing : pc.releasing = none) (hdone : ∀ r, pc ≠ .done r) :
    ∃ t pc', s.Local g p pc t pc' := by
  cases pc with
  | commit =>
    by_cases hempty : 0 < s.log.lh.length
    · refine ⟨_, .writeLogTest 0, .of_list (if_pos hempty) rfl rfl rfl
        (fun _ => rfl) rfl rfl rfl (le_refl _) (fun _ => rfl) ?_⟩
      simp only [LogPc.stage]
      omega
    · refine ⟨_, .done false, .of_goto (if_neg hempty) rfl rfl ?_⟩
      simp only [LogPc.stage]
      omega
  | writeLogTest tail =>
    by_cases hlt : tail < s.log.lh.length
    · refine ⟨_, .writeLogTo tail, .of_goto (if_pos hlt) rfl rfl ?_⟩
      simp only [LogPc.stage]
      omega
    · refine ⟨_, .headRead .commit, .of_goto (if_neg hlt) rfl rfl ?_⟩
      simp only [LogPc.stage]
      omega
  | writeLogCopy tail dst src =>
    refine ⟨_, .writeLogWrite tail dst src, .of_list rfl rfl rfl rfl
      (s.setData_lock dst _) rfl rfl rfl (le_refl _) (fun _ => rfl) ?_⟩
    simp only [LogPc.stage]
    omega
  | writeLogWrite tail dst src =>
    refine ⟨_, .writeLogRelFrom tail dst src, .of_bwrite rfl rfl rfl rfl
      rfl rfl rfl rfl (i := dst) (b := g.logBlock tail)
      (by simp [LogPc.held]) rfl rfl ?_⟩
    simp only [LogPc.stage]
    omega
  | headFill use buf =>
    cases use with
    | _ =>
      refine ⟨_, .headWrite _ buf, .of_list rfl rfl rfl rfl
        (s.setData_lock buf _) rfl rfl rfl (le_refl _) (fun _ => rfl) ?_⟩
      simp only [LogPc.stage]
      omega
  | headWrite use buf =>
    cases use with
    | _ =>
      refine ⟨_, .headRel _ buf, .of_bwrite rfl rfl rfl rfl rfl rfl rfl rfl
        (i := buf) (b := g.logstart) (by simp [LogPc.held]) rfl rfl ?_⟩
      simp only [LogPc.stage]
      omega
  | installTest r tail =>
    by_cases hlt : tail < s.log.lh.length
    · refine ⟨_, .installLog r tail, .of_goto (if_pos hlt) rfl rfl ?_⟩
      simp only [LogPc.stage]
      omega
    · refine ⟨_, .clear r, .of_goto (if_neg hlt) rfl rfl ?_⟩
      simp only [LogPc.stage]
      omega
  | installCopy r tail lbuf dbuf =>
    cases r with
    | _ =>
      refine ⟨_, .installWrite _ tail lbuf dbuf,
        .of_list rfl rfl rfl rfl (s.setData_lock dbuf _) rfl rfl rfl (le_refl _) (fun _ => rfl) ?_⟩
      simp only [LogPc.stage]
      omega
  | installWrite r tail lbuf dbuf =>
    cases r with
    | true =>
      refine ⟨_, .installRelLog true tail lbuf dbuf, .of_bwrite rfl rfl
        rfl rfl rfl rfl rfl rfl (i := dbuf) (b := s.log.lh.getD tail 0)
        (by simp [LogPc.held]) rfl rfl ?_⟩
      simp only [LogPc.stage]
      omega
    | false =>
      refine ⟨_, .installUnpin tail lbuf dbuf, .of_bwrite rfl rfl
        rfl rfl rfl rfl rfl rfl (i := dbuf) (b := s.log.lh.getD tail 0)
        (by simp [LogPc.held]) rfl rfl ?_⟩
      simp only [LogPc.stage]
      omega
  | installUnpin tail lbuf dbuf =>
    refine ⟨_, .installRelLog false tail lbuf dbuf, .of_list rfl rfl rfl
      rfl (s.bcache.set_field (i := dbuf) Buf.lock rfl) rfl rfl rfl
      (List.length_erase_le) (fun _ => rfl) ?_⟩
    simp only [LogPc.stage]
    omega
  | clear r =>
    refine ⟨{ s with log := { s.log with lh := [] } }, _, rfl, rfl, rfl,
      rfl, fun _ => rfl, ?_, ?_, le_refl _, fun _ => rfl, ?_⟩
    · cases r with
      | _ => rfl
    · cases r with
      | _ => rfl
    · intro _ _
      cases r with
      | _ => simp [LogPc.stage]
  | recoverHead buf =>
    refine ⟨{ s with
        log := { s.log with lh := decodeHead (s.buf buf).data } },
      .recoverRel buf, rfl, rfl, rfl, rfl, fun _ => rfl, rfl, rfl, le_refl _, fun _ => rfl, ?_⟩
    intro _ hnot
    exact absurd rfl (hnot buf)
  | done r => exact absurd rfl (hdone r)
  | _ => contradiction

end

/-! ## Who holds buffers -/

/-- The process holds no lock but those of the table, and its calls are those
of its statement. -/
structure LogState.ExactAt
    (g : LogGeometry) (s : LogState) (p : ℕ) (pc : LogPc) : Prop where
  locks : ∀ i, (s.buf i).lock = some p → i ∈ ((pc.seen (s.call p)).held g s.log.lh).map Prod.fst
  check : ∀ i b, s.call p = .check i b → pc.wanted g s.log.lh = some b
  drop : ∀ i, s.call p = .drop i → pc.releasing = some i

structure LogState.Exclusive (g : LogGeometry) (s : LogState) : Prop where
  owners : ∀ r ∈ s.refs, s.mode r.1 = .inside ∨ ∃ pc, s.mode r.1 = .logging pc
  logger : ∀ p pc, s.mode p = .logging pc → s.ExactAt g p pc

section

variable {g : LogGeometry} {s s' : LogState} {p : ℕ} {pc pc' : LogPc}

section

variable (h : s.ExactAt g p pc)
include h

theorem LogState.ExactAt.of_keeps (hkeeps : s.bcache.Keeps p s'.bcache)
    (hcall : s'.call p = s.call p) (hlog : s'.log = s.log) : s'.ExactAt g p pc := by
  constructor
  · intro i hlock
    rw [hcall, hlog]
    exact h.locks i (hkeeps.back i hlock)
  · rw [hcall, hlog]
    exact h.check
  · rw [hcall]
    exact h.drop

theorem LogState.ExactAt.bget (hcache : CacheInv s.bcache s.call s.refs s.pins)
    (hcall : s.call p = .none) (b : ℕ) : (s.bget p b).ExactAt g p pc := by
  rcases s.bget_cases p b with ⟨_, heq⟩ | ⟨i, c, hget, heq⟩
  · rw [heq]
    exact h.of_keeps (.refl _ _) rfl rfl
  · have hkeeps := Keeps.bget hcache p hget
    have hlocks := h.locks
    rw [hcall] at hlocks
    rw [heq]
    constructor
    · simp only [update_self]
      intro j hlock
      exact hlocks j (hkeeps.back j hlock)
    · simp
    · simp

theorem LogState.ExactAt.acquiresleep (hat : s.LoggerAt g p pc) {i b : ℕ}
    (hcall : s.call p = .want i b) : (s.acquiresleep p i b).ExactAt g p pc := by
  have hwanted := hat.wanted i b hcall
  have hperm := (LogPc.held_afterBread hwanted i).map Prod.fst
  have hlocks := h.locks
  rw [hcall] at hlocks
  have hcall' : (s.acquiresleep p i b).call p = .check i b := by
    simp [LogState.acquiresleep]
  constructor
  · intro j hlock
    rw [hcall']
    refine hperm.mem_iff.mpr ?_
    by_cases hj : j = i
    · subst hj
      exact List.mem_cons_self
    · have hbuf : (s.acquiresleep p i b).buf j = s.buf j := set_buf_of_ne _ _ hj
      rw [hbuf] at hlock
      exact List.mem_cons_of_mem _ (hlocks j hlock)
  · intro j b' hcheck
    rw [hcall'] at hcheck
    cases hcheck
    exact hwanted
  · intro j hdrop
    rw [hcall'] at hdrop
    contradiction

theorem LogState.ExactAt.fill {i b : ℕ} (hcall : s.call p = .check i b) : ({ s.fill p i with
        mode := update s.mode p (.logging (pc.afterBread i)) } :
      LogState).ExactAt g p (pc.afterBread i) := by
  have hlocks := h.locks
  rw [hcall] at hlocks
  have hlock : ∀ j, ((s.fill p i).buf j).lock = (s.buf j).lock := by
    apply s.bcache.set_field Buf.lock
    split <;> rfl
  have hcall' : (s.fill p i).call p = .none := by
    simp [LogState.fill]
  constructor
  · simp only [hcall']
    intro j hj
    exact hlocks j ((hlock j).symm.trans hj)
  · simp [hcall']
  · simp [hcall']

theorem LogState.ExactAt.releasesleep (hcall : s.call p = .none)
    {i : ℕ} (hreleasing : pc.releasing = some i) : (s.releasesleep p i).ExactAt g p pc := by
  rcases s.releasesleep_cases p i with ⟨_, heq⟩ | ⟨_, heq⟩
  · obtain ⟨b, hheld⟩ : ∃ b, pc.held g s.log.lh = (i, b) :: pc.afterBrelse.held g s.log.lh :=
      LogPc.held_afterBrelse hreleasing
    have hlocks := h.locks
    rw [hcall] at hlocks
    simp only [LogPc.seen, hheld, List.map_cons] at hlocks
    rw [heq]
    constructor
    · simp only [update_self]
      intro j hlock
      change ((s.bcache.set i _).buf j).lock = some p at hlock
      by_cases hj : j = i
      · subst hj
        simp at hlock
      · rw [set_buf_of_ne _ _ hj] at hlock
        exact (List.mem_cons.mp (hlocks j hlock)).resolve_left hj
    · simp
    · simp only [update_self, Call.drop.injEq]
      rintro j rfl
      exact hreleasing
  · rw [heq]
    exact h.of_keeps (.refl _ _) rfl rfl

theorem LogState.ExactAt.drop_done {i : ℕ} (hcall : s.call p = .drop i) : ({ s.drop p i with
        mode := update s.mode p (.logging pc.afterBrelse) } :
      LogState).ExactAt g p pc.afterBrelse := by
  have hlocks := h.locks
  rw [hcall] at hlocks
  have hkeeps := Keeps.brelse p i s.bcache
  have hcall' : (s.drop p i).call p = .none := by
    simp [LogState.drop]
  constructor
  · simp only [hcall']
    intro j hj
    exact hlocks j (hkeeps.back j hj)
  · simp [hcall']
  · simp [hcall']

theorem LogState.ExactAt.local {t : LogState} (hcall : s.call p = .none)
    (hlocal : s.Local g p pc t pc') : (t.goto p pc').ExactAt g p pc' := by
  have hlocks := h.locks
  rw [hcall] at hlocks
  have hcall' : (t.goto p pc').call p = .none := by
    change t.call p = .none
    rw [hlocal.call, hcall]
  constructor
  · intro i hlock
    rw [hcall']
    change i ∈ (pc'.held g t.log.lh).map Prod.fst
    rw [hlocal.held]
    exact hlocks i ((hlocal.lock i).symm.trans hlock)
  · intro i b hcheck
    rw [hcall'] at hcheck
    contradiction
  · intro i hdrop
    rw [hcall'] at hdrop
    contradiction

end

/-! ## Steps -/

theorem LogState.Exclusive.of_client (h : s.Exclusive g)
    (hmode : ∀ pc, s.mode p ≠ .logging pc) (hmode' : s'.mode = s.mode) (hlog : s'.log = s.log)
    (hcall : ∀ q, q ≠ p → s'.call q = s.call q) (hkeeps : ∀ q, q ≠ p → s.bcache.Keeps q s'.bcache)
    (howners : ∀ r ∈ s'.refs, r ∈ s.refs ∨ s.mode r.1 = .inside) : s'.Exclusive g := by
  constructor
  · intro r hr
    rw [hmode']
    rcases howners r hr with hr | hr
    · exact h.owners r hr
    · exact Or.inl hr
  · intro q pc hq
    rw [hmode'] at hq
    have hne : q ≠ p := by
      rintro rfl
      exact hmode pc hq
    exact (h.logger q pc hq).of_keeps (hkeeps q hne) (hcall q hne) hlog

theorem LogState.Exclusive.of_logger (hadmission : s'.Admission) (hmode : s'.mode p = .logging pc)
    (hat : s'.ExactAt g p pc) (howners : ∀ r ∈ s'.refs, r.1 = p) : s'.Exclusive g := by
  constructor
  · intro r hr
    rw [howners r hr]
    exact Or.inr ⟨pc, hmode⟩
  · intro q pc' hq
    obtain rfl := hadmission.unique q p pc' pc hq hmode
    rw [hmode] at hq
    cases hq
    exact hat

section

variable (h : s.Exclusive g)
include h

theorem LogState.Exclusive.refs_of_logger (hadmission : s.Admission)
    (hmode : s.mode p = .logging pc) : ∀ r ∈ s.refs, r.1 = p := by
  intro r hr
  rcases h.owners r hr with hinside | ⟨pc', hr⟩
  · have hmem := (hadmission.inside r.1).mp hinside
    rw [hadmission.quiet p pc hmode] at hmem
    simp at hmem
  · exact hadmission.unique r.1 p pc' pc hr hmode

theorem LogState.Exclusive.no_refs_of_done {r : Bool} (hsound : s.Sound g)
    (hmode : s.mode p = .logging (.done r)) : ∀ ref ∈ s.refs, ref.1 ≠ p := by
  rintro ⟨q, i⟩ hmem rfl
  have hcount := hsound.cache.refs_count q i
  have hpos := List.count_pos_iff.mpr hmem
  have hexact := h.logger q _ hmode
  cases hcall : s.call q with
  | none =>
    have hlock : (s.bcache.buf i).lock = some q := by
      by_contra hlock
      rw [if_neg hlock, hcall] at hcount
      simp only [Call.holds] at hcount
      omega
    have hheld := hexact.locks i hlock
    rw [hcall] at hheld
    simp [LogPc.seen, LogPc.held] at hheld
  | want j b =>
    have := (hsound.journal.logger q _ hmode).wanted j b hcall
    simp [LogPc.wanted] at this
  | check j b =>
    have := hexact.check j b hcall
    simp [LogPc.wanted] at this
  | drop j =>
    have := hexact.drop j hcall
    simp [LogPc.releasing] at this

theorem LogState.Exclusive.exec (hsound : s.Sound g) (hmode : s.mode p = .logging pc)
    (hcall : s.call p = .none) (hdone : ∀ r, pc ≠ .done r) : (s.exec g p pc).Exclusive g := by
  have hadmission := (hsound.exec hmode hcall hdone).admission
  have hexact := h.logger p pc hmode
  have hrefs := h.refs_of_logger hsound.admission hmode
  cases hwanted : pc.wanted g s.log.lh with
  | some b =>
    have hexact' := hexact.bget hsound.cache hcall b
    rw [exec_wanted hwanted] at hadmission ⊢
    rcases s.bget_cases p b with ⟨_, heq⟩ | ⟨i, c, _, heq⟩
    · rw [heq] at hadmission hexact' ⊢
      exact .of_logger hadmission hmode hexact' hrefs
    · rw [heq] at hadmission hexact' ⊢
      refine .of_logger hadmission hmode hexact' ?_
      intro r hr
      rcases List.mem_cons.mp hr with rfl | hr
      · rfl
      · exact hrefs r hr
  | none =>
  cases hreleasing : pc.releasing with
  | some i =>
    have hexact' := hexact.releasesleep hcall hreleasing
    rw [exec_releasing hreleasing] at hadmission ⊢
    rcases s.releasesleep_cases p i with ⟨_, heq⟩ | ⟨_, heq⟩
    · rw [heq] at hadmission hexact' ⊢
      exact .of_logger hadmission hmode hexact' hrefs
    · rw [heq] at hadmission hexact' ⊢
      exact .of_logger hadmission hmode hexact' hrefs
  | none =>
    obtain ⟨t, pc', hlocal⟩ := exists_local p hwanted hreleasing hdone
    rw [hlocal.exec] at hadmission ⊢
    refine .of_logger hadmission (update_self _ _ _) (hexact.local hcall hlocal) ?_
    change ∀ r ∈ t.refs, r.1 = p
    rw [hlocal.refs]
    exact hrefs

theorem LogState.Exclusive.of_modes
    (hrefs : s'.refs = s.refs) (hnone : ∀ q pc, s'.mode q ≠ .logging pc)
    (hinside : ∀ r ∈ s.refs, s.mode r.1 = .inside → s'.mode r.1 = .inside)
    (hidle : ∀ q pc, s.mode q = .logging pc → ∀ r ∈ s.refs, r.1 ≠ q) : s'.Exclusive g := by
  constructor
  · intro r hr
    rw [hrefs] at hr
    rcases h.owners r hr with hr' | ⟨pc, hr'⟩
    · exact Or.inl (hinside r hr hr')
    · exact absurd rfl (hidle r.1 pc hr' r hr)
  · intro q pc hq
    exact absurd hq (hnone q pc)

theorem LogState.Exclusive.beginOp (hmode : s.mode p = .outside ∨ s.mode p = .ready) :
    (s.beginOp p).Exclusive g := by
  have hnot : ∀ r ∈ s.refs, r.1 ≠ p := by
    rintro r hr rfl
    rcases h.owners r hr with hr | ⟨pc, hr⟩ <;>
      (rcases hmode with hmode | hmode <;> simp [hmode] at hr)
  have hmoved : ∀ (m : Mode) (t : LogState), (∀ pc, m ≠ .logging pc) →
      t.mode = update s.mode p m → t.refs = s.refs →
      t.call = s.call → t.bcache = s.bcache → t.log.lh = s.log.lh → t.Exclusive g := by
    intro m t hm hmode' hrefs hcall hbcache hlh
    constructor
    · intro r hr
      rw [hrefs] at hr
      rw [hmode', update_of_ne (hnot r hr)]
      exact h.owners r hr
    · intro q pc hq
      have hne : q ≠ p := by
        rintro rfl
        rw [hmode', update_self] at hq
        exact hm pc hq
      rw [hmode', update_of_ne hne] at hq
      have hexact := h.logger q pc hq
      constructor
      · rw [hcall, hlh]
        intro i hlock
        rw [LogState.buf, hbcache] at hlock
        exact hexact.locks i hlock
      · rw [hcall, hlh]
        exact hexact.check
      · rw [hcall]
        exact hexact.drop
  unfold LogState.beginOp
  split
  · exact hmoved .asleep _ (by simp) rfl rfl rfl rfl rfl
  · split
    · exact hmoved .asleep _ (by simp) rfl rfl rfl rfl rfl
    · exact hmoved .inside _ (by simp) rfl rfl rfl rfl rfl

theorem LogState.Exclusive.endOp (hsound : s.Sound g) (hinside : s.mode p = .inside)
    (hcall : s.call p = .none) (hnothing : ∀ r ∈ s.refs, r.1 ≠ p) : (s.endOp p).Exclusive g := by
  have hadmission := hsound.admission.endOp hinside
  obtain ⟨hbooted, hnone⟩ := hsound.admission.idle_of_inside hinside
  have hcommitting : ¬s.log.committing = true := by
    rw [hsound.admission.committing]
    rintro ⟨q, pc, hq, _⟩
    exact hnone q pc hq
  have howners : ∀ r ∈ s.refs, s.mode r.1 = .inside := by
    intro r hr
    rcases h.owners r hr with hr | ⟨pc, hr⟩
    · exact hr
    · exact absurd hr (hnone r.1 pc)
  have hunlocked : ∀ i, (s.buf i).lock ≠ some p := fun i hlock =>
    hnothing _ (hsound.cache.mem_refs_of_lock hlock) rfl
  unfold LogState.endOp at hadmission ⊢
  dsimp only at hadmission ⊢
  rw [if_neg hcommitting] at hadmission ⊢
  split at hadmission
  · rename_i hzero
    rw [if_pos hzero]
    refine .of_logger hadmission (update_self _ _ _) ?_ ?_
    · constructor
      · intro i hlock
        exact absurd hlock (hunlocked i)
      · simp [hcall]
      · simp [hcall]
    · intro r hr
      by_contra hne
      have hlive := (hadmission.inside r.1).mp (by simpa [hne] using howners r hr)
      rw [hadmission.quiet p _ (update_self _ _ _)] at hlive
      simp at hlive
  · rename_i hrest
    rw [if_neg hrest]
    refine h.of_modes rfl ?_ ?_ ?_
    · exact hadmission.idle_not_logging hbooted (by simpa using hcommitting)
    · intro r hr hr'
      change update (wakeupLog s.mode) p Mode.outside r.1 = .inside
      rw [update_of_ne (hnothing r hr), wakeupLog_eq_inside]
      exact hr'
    · intro q pc hq
      exact absurd hq (hnone q pc)

theorem LogState.Exclusive.finish {r : Bool} (hsound : s.Sound g)
    (hmode : s.mode p = .logging (.done r)) : (s.finish p r).Exclusive g := by
  have hnothing := h.no_refs_of_done hsound hmode
  have hrefs := h.refs_of_logger hsound.admission hmode
  have hempty : s.refs = [] := by
    rw [List.eq_nil_iff_forall_not_mem]
    intro ref href
    exact hnothing ref href (hrefs ref href)
  have hadmission := hsound.admission.finish hmode
  constructor
  · intro ref href
    have hsame : (s.finish p r).refs = s.refs := by
      cases r with
      | _ => rfl
    rw [hsame, hempty] at href
    simp at href
  · intro q pc hq
    have hlog : s.mode q = .logging pc := by
      cases r with
      | true =>
        by_cases hqp : q = p
        · subst hqp
          simp [LogState.finish] at hq
        · simpa [LogState.finish, hqp] using hq
      | false =>
        by_cases hqp : q = p
        · subst hqp
          simp [LogState.finish] at hq
        · simpa [LogState.finish, hqp, wakeupLog_eq_logging] using hq
    obtain rfl := hsound.admission.unique q p pc _ hlog hmode
    exfalso
    cases r with
    | _ => simp [LogState.finish] at hq

end

end

theorem LogState.boot_exclusive (g : LogGeometry) (disk : ℕ → Block)
    (started : List (List (ℕ × Block))) (committed : ℕ) :
    (LogState.boot disk started committed).Exclusive g := by
  have hmode : (LogState.boot disk started committed).mode 0 =
      .logging .recoverRead := by simp [LogState.boot]
  refine .of_logger (boot_admission disk started committed) hmode ?_ ?_
  · constructor
    · simp [LogState.boot, LogState.buf, binit]
    · simp [LogState.boot]
    · simp [LogState.boot]
  · simp [LogState.boot]

theorem LogMove.exclusive {g : LogGeometry} {s s' : LogState} {l : LogLabel} (h : s.Exclusive g)
    (hsound : s.Sound g) (hmove : LogMove g s l s')
    (honly : OperationsOnly l s) : s'.Exclusive g := by
  have hsound' := hmove.sound hsound
  cases hmove with
  | crash => exact boot_exclusive g _ _ _
  | beginOp p hbooted hcall hmode => exact h.beginOp hmode
  | endOp p hmode hcall => exact h.endOp hsound hmode hcall honly
  | finish p r hmode => exact h.finish hsound hmode
  | bread p b hfree hb =>
    have hnot := free_not_logging hfree
    have hinside : s.mode p = .inside := honly
    rcases s.bget_cases p b with ⟨_, heq⟩ | ⟨i, c, hget, heq⟩
    · rw [heq]
      exact h.of_client hnot rfl rfl (fun _ _ => rfl) (fun q _ => .refl q _) fun _ hr => Or.inl hr
    · rw [heq]
      refine h.of_client hnot rfl rfl (fun q hq => update_of_ne hq _ _)
        (fun q _ => .bget hsound.cache q hget) ?_
      intro r hr
      rcases List.mem_cons.mp hr with rfl | hr
      · exact Or.inr hinside
      · exact Or.inl hr
  | acquire p i b hcall hlock =>
    by_cases hlogger : ∃ pc, s.mode p = .logging pc
    · obtain ⟨pc, hmode⟩ := hlogger
      exact .of_logger hsound'.admission hmode
        ((h.logger p pc hmode).acquiresleep (hsound.journal.logger p pc hmode) hcall)
        (h.refs_of_logger hsound.admission hmode)
    · refine h.of_client (fun pc hmode => hlogger ⟨pc, hmode⟩) rfl rfl
        (fun q hq => update_of_ne hq _ _) ?_ fun _ hr => Or.inl hr
      intro q hq
      apply Keeps.set
      · change (s.buf i).lock ≠ some q
        simp [hlock]
      · simpa using Ne.symm hq
  | fill p i b hcall =>
    by_cases hlogger : ∃ pc, s.mode p = .logging pc
    · obtain ⟨pc, hmode⟩ := hlogger
      have hadmission := hsound'.admission
      rw [hmode] at hadmission ⊢
      exact .of_logger hadmission (update_self _ _ _) ((h.logger p pc hmode).fill hcall)
        (h.refs_of_logger hsound.admission hmode)
    · have hnot : ∀ pc, s.mode p ≠ .logging pc := fun pc hmode =>
        hlogger ⟨pc, hmode⟩
      refine h.of_client hnot ?_ rfl (fun q hq => update_of_ne hq _ _) ?_ fun _ hr => Or.inl hr
      · cases hmode : s.mode p with
        | logging pc => exact absurd hmode (hnot pc)
        | _ => simp [Mode.afterBread, ← hmode]
      · intro q hq
        have hother : (s.bcache.buf i).lock ≠ some q := by
          rw [(hsound.cache.check p i b hcall).1]
          simpa using Ne.symm hq
        apply Keeps.set hother
        split <;> exact hother
  | modify p i data hfree hlock hhome =>
    refine h.of_client (free_not_logging hfree) rfl rfl (fun _ _ => rfl) ?_ fun _ hr => Or.inl hr
    intro q hq
    have hother : (s.bcache.buf i).lock ≠ some q := by
      change (s.buf i).lock ≠ some q
      rw [hlock]
      simpa using Ne.symm hq
    exact Keeps.set hother hother
  | logWrite p i hmode hfree hlock hhome =>
    have hnone := (hsound.admission.idle_of_inside hmode).2
    have hsame : (s.logWrite g p i).mode = s.mode ∧ (s.logWrite g p i).refs = s.refs := by
      unfold LogState.logWrite
      split
      · exact ⟨rfl, rfl⟩
      · split
        · exact ⟨rfl, rfl⟩
        · split <;> exact ⟨rfl, rfl⟩
    refine h.of_modes hsame.2 ?_ ?_ ?_
    · rw [hsame.1]
      exact hnone
    · intro r _ hr
      rw [hsame.1]
      exact hr
    · intro q pc hq
      exact absurd hq (hnone q pc)
  | bwrite p i hfree hhome =>
    refine h.of_client (free_not_logging hfree) (by simp) (by simp)
      (fun q _ => by simp) (fun q _ => ?_) ?_
    · rw [bwrite_bcache]
      exact .refl q _
    · intro r hr
      rw [bwrite_refs] at hr
      exact Or.inl hr
  | brelse p i hfree =>
    have hnot := free_not_logging hfree
    rcases s.releasesleep_cases p i with ⟨hlock, heq⟩ | ⟨_, heq⟩
    · rw [heq]
      refine h.of_client hnot rfl rfl (fun q hq => update_of_ne hq _ _) ?_ fun _ hr => Or.inl hr
      intro q hq
      apply Keeps.set
      · change (s.buf i).lock ≠ some q
        rw [hlock]
        simpa using Ne.symm hq
      · simp
    · rw [heq]
      exact h.of_client hnot rfl rfl (fun _ _ => rfl) (fun q _ => .refl q _) fun _ hr => Or.inl hr
  | drop p i hcall =>
    by_cases hlogger : ∃ pc, s.mode p = .logging pc
    · obtain ⟨pc, hmode⟩ := hlogger
      have hadmission := hsound'.admission
      rw [hmode] at hadmission ⊢
      refine .of_logger hadmission (update_self _ _ _) ((h.logger p pc hmode).drop_done hcall) ?_
      intro r hr
      exact h.refs_of_logger hsound.admission hmode r (List.mem_of_mem_erase hr)
    · have hnot : ∀ pc, s.mode p ≠ .logging pc := fun pc hmode =>
        hlogger ⟨pc, hmode⟩
      refine h.of_client hnot ?_ rfl (fun q hq => update_of_ne hq _ _)
        (fun q _ => .brelse q i s.bcache) ?_
      · cases hmode : s.mode p with
        | logging pc => exact absurd hmode (hnot pc)
        | _ => simp [Mode.afterBrelse, ← hmode]
      · intro r hr
        exact Or.inl (List.mem_of_mem_erase hr)
  | exec p pc hmode hcall hdone => exact h.exec hsound hmode hcall hdone

end Xv6
