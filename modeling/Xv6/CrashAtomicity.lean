import Xv6.LogDurable

/-!
# Crash atomicity

Power may fail between any two steps, in `commit` as well as in the recovery
from an earlier failure.  When `recover_from_log` has finished, the home blocks
hold the transactions whose commit record had reached the disk, and nothing of
any other.
-/

namespace Xv6

open LogPc

/-- File system operations use the log: they change blocks only inside an
operation, log what they change before they release it, and leave writing to
the log. -/
def Transactional : LogLabel → LogState → Prop
  | .modify p _ _, s => s.mode p = .inside
  | .brelse _ i, s => i ∉ s.dirty
  | .bwrite _ _, _ => False
  | _, _ => True

instance : ∀ l s, Decidable (Transactional l s)
  | .modify p _ _, s => inferInstanceAs (Decidable (s.mode p = .inside))
  | .brelse _ i, s => inferInstanceAs (Decidable (i ∉ s.dirty))
  | .bwrite .., _ => instDecidableFalse
  | .crash, _ | .beginOp _, _ | .endOp _, _ | .finish _, _ | .bread .., _
  | .acquire _, _ | .fill _, _ | .logWrite .., _ | .drop _, _ | .exec _, _ =>
    instDecidableTrue

theorem Transactional.disciplined {g : LogGeometry} {s : LogState}
    {l : LogLabel} (hsound : s.Sound g) (h : Transactional l s) : Disciplined l s := by
  cases l with
  | modify p i data =>
    rintro ⟨hcommitting, _⟩
    obtain ⟨q, pc, hq, _⟩ := hsound.admission.committing.mp hcommitting
    exact (hsound.admission.idle_of_inside h).2 q pc hq
  | brelse p i => exact h
  | _ => trivial

/-! ## Block numbers -/

/-- Block numbers in the cache and in the log fit the header's words. -/
structure LogState.Named (g : LogGeometry) (s : LogState) : Prop where
  bufs : ∀ i, (s.buf i).dev = rootDev → g.inLog (s.buf i).blockno ∨ (s.buf i).blockno < 2 ^ 32
  lh : ∀ b ∈ s.log.lh, b < 2 ^ 32

section

variable {g : LogGeometry} {s s' : LogState} {p : ℕ} {pc : LogPc}

def Bcache.SameBlocks (c c' : Bcache) : Prop :=
  ∀ i, (c'.buf i).dev = (c.buf i).dev ∧ (c'.buf i).blockno = (c.buf i).blockno

theorem Bcache.SameBlocks.set (c : Bcache) {i : ℕ} {b : Buf} (hdev : b.dev = (c.buf i).dev)
    (hblock : b.blockno = (c.buf i).blockno) : c.SameBlocks (c.set i b) := fun j =>
  ⟨c.set_field Buf.dev hdev j, c.set_field Buf.blockno hblock j⟩

theorem Bcache.SameBlocks.brelse (c : Bcache) (i : ℕ) : c.SameBlocks (Xv6.brelse i c) := by
  intro j
  rw [brelse_buf_eq]
  exact SameBlocks.set c (i := i) (b := { c.buf i with refcnt := decr (c.buf i).refcnt }) rfl rfl j

theorem LogState.Named.of_same (h : s.Named g)
    (hbufs : s.bcache.SameBlocks s'.bcache) (hlh : s'.log.lh = s.log.lh) : s'.Named g := by
  constructor
  · intro i hdev
    unfold LogState.buf at hdev ⊢
    rw [(hbufs i).1] at hdev
    rw [(hbufs i).2]
    exact h.bufs i hdev
  · rw [hlh]
    exact h.lh

theorem LogState.Named.bget (h : s.Named g) {b : ℕ}
    (hb : g.inLog b ∨ b < 2 ^ 32) : (s.bget p b).Named g := by
  rcases s.bget_cases p b with ⟨_, heq⟩ | ⟨i, c, hget, heq⟩
  · rw [heq]
    exact h.of_same (fun _ => ⟨rfl, rfl⟩) rfl
  · rw [heq]
    rcases bget_eq_some hget with ⟨_, _, _, rfl⟩ | ⟨_, _, _, rfl⟩
    · exact h.of_same (.set s.bcache rfl rfl) rfl
    · refine ⟨?_, h.lh⟩
      intro j
      by_cases hj : j = i
      · subst hj
        intro _
        simpa [LogState.buf, Bcache.set_buf_self] using hb
      · simpa [LogState.buf, Bcache.set_buf_of_ne _ _ hj] using h.bufs j

theorem LogPc.wanted_named {lh : List ℕ} {b : ℕ} (hwanted : pc.wanted g lh = some b)
    (hrange : pc.inRange lh.length) (hlogstart : g.inLog g.logstart) (hsmall : ∀ b ∈ lh, b < 2 ^ 32)
    (hlist : pc.headPhase = .pending ∨ pc.headPhase = .full → LogList g lh) :
    g.inLog b ∨ b < 2 ^ 32 := by
  cases pc with
  | writeLogTo tail =>
    obtain rfl := Option.some.inj hwanted
    exact Or.inl ((hlist (Or.inl rfl)).inLog_logBlock hrange)
  | installLog r tail =>
    obtain rfl := Option.some.inj hwanted
    exact Or.inl ((hlist (Or.inr rfl)).inLog_logBlock hrange)
  | writeLogFrom tail dst | installDst r tail lbuf =>
    obtain rfl := Option.some.inj hwanted
    exact Or.inr (hsmall _ (getD_mem hrange))
  | headRead use | recoverRead =>
    obtain rfl := Option.some.inj hwanted
    exact Or.inl hlogstart
  | _ => contradiction

theorem LogState.Named.exec (h : s.Named g) (hcall : s.call p = .none)
    (hat : s.LoggerAt g p pc) (hlogstart : g.inLog g.logstart) (hlist : pc.headPhase = .pending ∨
    pc.headPhase = .full → LogList g s.log.lh) : (s.exec g p pc).Named g := by
  have hrange := hat.range
  rw [hcall] at hrange
  have hbwrite : ∀ i, s.bcache.SameBlocks (s.bwrite p i).bcache := by
    intro i
    rw [bwrite_bcache]
    exact fun _ => ⟨rfl, rfl⟩
  have hbwrite_lh : ∀ i, (s.bwrite p i).log.lh = s.log.lh := by simp
  cases hwanted : pc.wanted g s.log.lh with
  | some b =>
    rw [exec_wanted hwanted]
    exact h.bget (wanted_named hwanted hrange hlogstart h.lh hlist)
  | none =>
  cases hreleasing : pc.releasing with
  | some i =>
    rw [exec_releasing hreleasing]
    rcases s.releasesleep_cases p i with ⟨_, heq⟩ | ⟨_, heq⟩
    · rw [heq]
      exact h.of_same (.set s.bcache rfl rfl) rfl
    · rw [heq]
      exact h.of_same (fun _ => ⟨rfl, rfl⟩) rfl
  | none =>
  cases pc with
  | commit | writeLogTest tail | installTest r tail =>
    simp only [LogState.exec]
    split <;> exact h.of_same (fun _ => ⟨rfl, rfl⟩) rfl
  | writeLogCopy tail dst src | headFill use buf | installUnpin tail lbuf dbuf =>
    exact h.of_same (.set s.bcache rfl rfl) rfl
  | installCopy r tail lbuf dbuf =>
    cases r with
    | _ => exact h.of_same (.set s.bcache rfl rfl) rfl
  | writeLogWrite tail dst src => exact h.of_same (hbwrite dst) (hbwrite_lh dst)
  | headWrite use buf =>
    cases use with
    | _ => exact h.of_same (hbwrite buf) (hbwrite_lh buf)
  | installWrite r tail lbuf dbuf =>
    cases r with
    | _ => exact h.of_same (hbwrite dbuf) (hbwrite_lh dbuf)
  | clear r => exact ⟨h.bufs, by simp [LogState.exec, LogState.goto]⟩
  | recoverHead buf => exact ⟨h.bufs, fun _ => decodeHead_lt⟩
  | done r => exact h
  | _ => contradiction

end

/-! ## Runs -/

structure LogState.Durable
    (g : LogGeometry) (init : ℕ → Block) (s : LogState) : Prop where
  view : s.View g init
  named : s.Named g
  idle : (∀ p pc, s.mode p ≠ .logging pc) →
    decodeHead (s.disk g.logstart) = [] ∧ s.started.length = s.committed
  logger : ∀ p pc, s.mode p = .logging pc → s.DurableAt g pc

section

variable {g : LogGeometry} {init : ℕ → Block} {s s' : LogState} {p : ℕ} {pc : LogPc}

theorem LogState.Durable.of_same (h : s.Durable g init) (hnamed : s'.Named g)
    (hback : ∀ q pc, s'.mode q = .logging pc → ∃ pc', s.mode q = .logging pc' ∧
    (s.DurableAt g pc' → s.DurableAt g pc)) (hforth : ∀ q pc, s.mode q = .logging pc →
    ∃ pc', s'.mode q = .logging pc') (hdisk : s'.disk = s.disk) (hlatest : s'.latest = s.latest)
    (hlh : s'.log.lh = s.log.lh) (hstarted : s'.started = s.started)
    (hcommitted : s'.committed = s.committed) : s'.Durable g init := by
  refine ⟨h.view.of_same hdisk hstarted hcommitted, hnamed, ?_, ?_⟩
  · rw [hdisk, hstarted, hcommitted]
    intro hnone
    refine h.idle fun q pc hq => ?_
    obtain ⟨pc', hq'⟩ := hforth q pc hq
    exact hnone q pc' hq'
  · intro q pc hq
    obtain ⟨pc', hq', hnext⟩ := hback q pc hq
    exact (hnext (h.logger q pc' hq')).of_client hdisk hlatest hlh hstarted hcommitted

theorem LogState.Durable.of_mode (h : s.Durable g init)
    (hnamed : s'.Named g) (hmode : ∀ q pc, s'.mode q = .logging pc ↔ s.mode q = .logging pc)
    (hdisk : s'.disk = s.disk) (hlatest : s'.latest = s.latest) (hlh : s'.log.lh = s.log.lh)
    (hstarted : s'.started = s.started) (hcommitted : s'.committed = s.committed) :
    s'.Durable g init :=
  h.of_same hnamed (fun q pc hq => ⟨pc, (hmode q pc).mp hq, id⟩)
    (fun q pc hq => ⟨pc, (hmode q pc).mpr hq⟩) hdisk hlatest hlh hstarted
    hcommitted

theorem LogState.Durable.of_inside (h : s.Durable g init) (hnamed : s'.Named g)
    (hnone : ∀ q pc, s.mode q ≠ .logging pc) (hmode : s'.mode = s.mode) (hdisk : s'.disk = s.disk)
    (hstarted : s'.started = s.started) (hcommitted : s'.committed = s.committed) :
    s'.Durable g init := by
  refine ⟨h.view.of_same hdisk hstarted hcommitted, hnamed, ?_, ?_⟩
  · rw [hmode, hdisk, hstarted, hcommitted]
    exact h.idle
  · rw [hmode]
    exact fun q pc hq => absurd hq (hnone q pc)

theorem update_mode_logging {mode : ℕ → Mode}
    {m : Mode} (hm : ∀ pc, m ≠ .logging pc) (hp : ∀ pc, mode p ≠ .logging pc) (q : ℕ) (pc : LogPc) :
    Function.update mode p m q = .logging pc ↔ mode q = .logging pc := by
  by_cases hqp : q = p
  · subst hqp
    simp [hm, hp]
  · simp [hqp]

theorem LogState.Durable.beginOp (h : s.Durable g init)
    (hmode : s.mode p = .outside ∨ s.mode p = .ready) : (s.beginOp p).Durable g init := by
  have hnot : ∀ pc, s.mode p ≠ .logging pc := by
    rcases hmode with hmode | hmode <;> simp [hmode]
  have hnamed : s.Named g := h.named
  unfold LogState.beginOp
  split
  · exact h.of_mode ⟨hnamed.bufs, hnamed.lh⟩
      (update_mode_logging (by simp) hnot) rfl rfl rfl rfl rfl
  · split
    · exact h.of_mode ⟨hnamed.bufs, hnamed.lh⟩
        (update_mode_logging (by simp) hnot) rfl rfl rfl rfl rfl
    · exact h.of_mode ⟨hnamed.bufs, hnamed.lh⟩
        (update_mode_logging (by simp) hnot) rfl rfl rfl rfl rfl

theorem LogState.Durable.endOp (h : s.Durable g init) (hsound : s.Sound g)
    (hinside : s.mode p = .inside) : (s.endOp p).Durable g init := by
  obtain ⟨_, hnone⟩ := hsound.admission.idle_of_inside hinside
  have hnamed : s.Named g := h.named
  obtain ⟨hempty, hsettled⟩ := h.idle hnone
  unfold LogState.endOp
  dsimp only
  split
  · exact h.of_inside ⟨hnamed.bufs, hnamed.lh⟩ hnone rfl rfl rfl rfl
  · split
    · refine ⟨h.view.of_same rfl rfl rfl, ⟨hnamed.bufs, hnamed.lh⟩, ?_, ?_⟩
      · intro hnone'
        exact absurd (Function.update_self _ _ _) (hnone' p .commit)
      · intro q pc hq
        by_cases hqp : q = p
        · subst hqp
          obtain rfl : LogPc.commit = pc := by simpa using hq
          constructor
          · exact fun _ => hempty
          · simp [headPhase]
          · simp [headPhase]
          · simp [headPhase]
          · simp
          · simp
          · simp [headPhase]
          · exact fun _ _ => hsettled
        · have hq : s.mode q = .logging pc := by simpa [hqp] using hq
          exact absurd hq (hnone q pc)
    · refine h.of_mode ⟨hnamed.bufs, hnamed.lh⟩ ?_ rfl rfl rfl rfl rfl
      intro q pc
      refine (update_mode_logging (by simp) ?_ q pc).trans (wakeupLog_eq_logging _ _ _)
      intro pc'
      rw [Ne, wakeupLog_eq_logging]
      exact hnone p pc'

theorem LogState.Durable.finish {r : Bool} (h : s.Durable g init) (hsound : s.Sound g)
    (hmode : s.mode p = .logging (.done r)) : (s.finish p r).Durable g init := by
  have hat := h.logger p _ hmode
  have hempty := hat.empty (Or.inl rfl)
  have hother : ∀ q pc, q ≠ p → s.mode q ≠ .logging pc := by
    intro q pc hqp hq
    exact hqp (hsound.admission.unique q p pc _ hq hmode)
  have hnamed : s.Named g := h.named
  cases r with
  | true =>
    have hlength : (s.finish p true).started.length = s.committed := by
      simpa [LogState.finish] using h.view.bound
    refine ⟨⟨h.view.header, ?_, hlength.ge, ?_⟩,
      ⟨hnamed.bufs, hnamed.lh⟩, fun _ => ⟨hempty, hlength⟩, ?_⟩
    · intro b hb
      have htake : (s.finish p true).started.take (s.finish p true).committed
          = s.started.take s.committed := by
        simp [LogState.finish]
      rw [htake]
      exact h.view.replay b hb
    · intro tx htx
      exact h.view.txs tx (List.mem_of_mem_take htx)
    · intro q pc hq
      by_cases hqp : q = p
      · subst hqp
        simp [LogState.finish] at hq
      · have hq : s.mode q = .logging pc := by
          simpa [LogState.finish, hqp] using hq
        exact absurd hq (hother q pc hqp)
  | false =>
    refine ⟨h.view.of_same rfl rfl rfl, ⟨hnamed.bufs, hnamed.lh⟩,
      fun _ => ⟨hempty, hat.settled rfl (by simp [headPhase])⟩, ?_⟩
    intro q pc hq
    by_cases hqp : q = p
    · subst hqp
      simp [LogState.finish] at hq
    · have hq : s.mode q = .logging pc := by
        simpa [LogState.finish, hqp, wakeupLog_eq_logging] using hq
      exact absurd hq (hother q pc hqp)

theorem LogState.Durable.logWrite (h : s.Durable g init)
    (hsound : s.Sound g) (hinside : s.mode p = .inside) {i : ℕ} (hlock : (s.buf i).lock = some p)
    (hhome : ¬g.inLog (s.buf i).blockno) : (s.logWrite g p i).Durable g init := by
  obtain ⟨_, hnone⟩ := hsound.admission.idle_of_inside hinside
  have hnamed : s.Named g := h.named
  unfold LogState.logWrite
  split
  · exact h.of_inside ⟨hnamed.bufs, hnamed.lh⟩ hnone rfl rfl rfl rfl
  · split
    · exact h.of_inside ⟨hnamed.bufs, hnamed.lh⟩ hnone rfl rfl rfl rfl
    · split
      · exact h.of_inside ⟨hnamed.bufs, hnamed.lh⟩ hnone rfl rfl rfl rfl
      · refine h.of_inside ⟨?_, ?_⟩ hnone rfl rfl rfl rfl
        · have hpin : ({ s with bcache := bpin i s.bcache } : LogState).Named g :=
            hnamed.of_same (.set s.bcache rfl rfl) rfl
          exact hpin.bufs
        · obtain ⟨_, hdev⟩ := hsound.cache.refs_ok _ (hsound.cache.mem_refs_of_lock hlock)
          intro b hb
          rcases List.mem_append.mp hb with hb | hb
          · exact hnamed.lh b hb
          · obtain rfl := List.mem_singleton.mp hb
            exact (hnamed.bufs i hdev).resolve_left hhome

theorem LogState.Durable.exec (h : s.Durable g init) (hsound : s.Sound g)
    (hcoherent : s.Coherent g) (hlogstart : g.inLog g.logstart) (hmode : s.mode p = .logging pc)
    (hcall : s.call p = .none) (hdone : ∀ r, pc ≠ .done r) : (s.exec g p pc).Durable g init := by
  have hat := h.logger p pc hmode
  obtain ⟨pc', hmode', hat', hview'⟩ := hat.exec h.view hsound hcoherent
    hlogstart h.named.lh hmode hcall hdone
  refine ⟨hview', h.named.exec hcall (hsound.journal.logger p pc hmode) hlogstart ?_, ?_, ?_⟩
  · rintro (hphase | hphase)
    · have hrec : pc.recovering = false := by
        cases pc with
        | headRead use | headFill use buf | headWrite use buf =>
          cases use with
          | commit => rfl
          | _ => contradiction
        | headRel use buf =>
          cases use with
          | _ => contradiction
        | _ => first | rfl | contradiction
      exact hsound.journal.list (hsound.admission.booted_of_commit hmode hrec)
    · rw [← hat.full hphase]
      exact h.view.header
  · intro hnone
    exact absurd hmode' (hnone p pc')
  · intro q pc'' hq
    have hadmission := (hsound.exec hmode hcall hdone).admission
    obtain rfl := hadmission.unique q p pc'' pc' hq hmode'
    rw [hmode'] at hq
    cases hq
    exact hat'

theorem Mode.afterBread_eq_logging {m : Mode} {i : ℕ} (h : m.afterBread i = .logging pc) :
    ∃ pc', m = .logging pc' ∧ pc = pc'.afterBread i := by
  cases m with
  | logging pc' => exact ⟨pc', rfl, (Mode.logging.inj h).symm⟩
  | _ => contradiction

theorem Mode.afterBrelse_eq_logging {m : Mode} (h : m.afterBrelse = .logging pc) :
    ∃ pc', m = .logging pc' ∧ pc = pc'.afterBrelse := by
  cases m with
  | logging pc' => exact ⟨pc', rfl, (Mode.logging.inj h).symm⟩
  | _ => contradiction

theorem LogState.Durable.fill (h : s.Durable g init) (i : ℕ) : ({ s.fill p i with
        mode := Function.update s.mode p ((s.mode p).afterBread i) } :
      LogState).Durable g init := by
  refine h.of_same ?_ ?_ ?_ rfl rfl rfl rfl rfl
  · refine h.named.of_same (.set s.bcache ?_ ?_) rfl <;> (split <;> rfl)
  · intro q pc hq
    by_cases hqp : q = p
    · subst hqp
      dsimp only at hq
      rw [Function.update_self] at hq
      obtain ⟨pc', hmode, rfl⟩ := Mode.afterBread_eq_logging hq
      exact ⟨pc', hmode, fun hat => hat.afterBread i⟩
    · exact ⟨pc, by simpa [hqp] using hq, id⟩
  · intro q pc hq
    by_cases hqp : q = p
    · subst hqp
      exact ⟨pc.afterBread i, by simp [hq, Mode.afterBread]⟩
    · exact ⟨pc, by simpa [hqp] using hq⟩

theorem LogState.Durable.drop (h : s.Durable g init) (i : ℕ) : ({ s.drop p i with
        mode := Function.update s.mode p (s.mode p).afterBrelse } :
      LogState).Durable g init := by
  refine h.of_same ?_ ?_ ?_ rfl rfl rfl rfl rfl
  · exact h.named.of_same (.brelse s.bcache i) rfl
  · intro q pc hq
    by_cases hqp : q = p
    · subst hqp
      dsimp only at hq
      rw [Function.update_self] at hq
      obtain ⟨pc', hmode, rfl⟩ := Mode.afterBrelse_eq_logging hq
      exact ⟨pc', hmode, fun hat => hat.afterBrelse⟩
    · exact ⟨pc, by simpa [hqp] using hq, id⟩
  · intro q pc hq
    by_cases hqp : q = p
    · subst hqp
      exact ⟨pc.afterBrelse, by simp [hq, Mode.afterBrelse]⟩
    · exact ⟨pc, by simpa [hqp] using hq⟩

theorem LogState.View.boot (h : s.View g init) : s.crash.Durable g init := by
  refine ⟨h.of_same rfl rfl rfl, ⟨?_, ?_⟩, ?_, ?_⟩
  · intro i hdev
    simp [LogState.crash, LogState.boot, LogState.buf, binit, rootDev] at hdev
  · simp [LogState.crash, LogState.boot]
  · intro hnone
    exact absurd (by simp [LogState.crash, LogState.boot]) (hnone 0 .recoverRead)
  · intro q pc hq
    by_cases hq0 : q = 0
    · subst hq0
      obtain rfl : LogPc.recoverRead = pc := by
        simpa [LogState.crash, LogState.boot] using hq
      constructor
      · simp [headPhase]
      · simp [headPhase]
      · simp [headPhase]
      · simp [headPhase]
      · simp
      · simp
      · simp [headPhase]
      · simp [recovering]
    · simp [LogState.crash, LogState.boot, hq0] at hq

theorem LogMove.durable {l : LogLabel} (h : s.Durable g init)
    (hsound : s.Sound g) (hcoherent : s.Coherent g) (hlogstart : g.inLog g.logstart)
    (hmove : LogMove g s l s') (htrans : Transactional l s) : s'.Durable g init := by
  cases hmove with
  | crash => exact h.view.boot
  | beginOp p _ _ hmode => exact h.beginOp hmode
  | endOp p hmode _ => exact h.endOp hsound hmode
  | finish p r hmode => exact h.finish hsound hmode
  | bread p b hfree hb =>
    have hnamed : (s.bget p b).Named g := h.named.bget (Or.inr hb)
    rcases s.bget_cases p b with ⟨_, heq⟩ | ⟨i, c, _, heq⟩
    · rw [heq] at hnamed ⊢
      exact h.of_mode hnamed (fun _ _ => Iff.rfl) rfl rfl rfl rfl rfl
    · rw [heq] at hnamed ⊢
      exact h.of_mode hnamed (fun _ _ => Iff.rfl) rfl rfl rfl rfl rfl
  | acquire p i b hcall hlock =>
    exact h.of_mode (h.named.of_same (.set s.bcache rfl rfl) rfl)
      (fun _ _ => Iff.rfl) rfl rfl rfl rfl rfl
  | fill p i b hcall => exact h.fill i
  | modify p i data hfree hlock hhome =>
    exact h.of_inside (h.named.of_same (.set s.bcache rfl rfl) rfl)
      (hsound.admission.idle_of_inside htrans).2 rfl rfl rfl rfl
  | logWrite p i hmode hfree hlock hhome =>
    exact h.logWrite hsound hmode hlock hhome
  | bwrite p i hfree hhome => exact htrans.elim
  | brelse p i hfree =>
    rcases s.releasesleep_cases p i with ⟨_, heq⟩ | ⟨_, heq⟩
    · rw [heq]
      exact h.of_mode (h.named.of_same (.set s.bcache rfl rfl) rfl)
        (fun _ _ => Iff.rfl) rfl rfl rfl rfl rfl
    · rw [heq]
      exact h.of_mode ⟨h.named.bufs, h.named.lh⟩ (fun _ _ => Iff.rfl) rfl rfl rfl rfl rfl
  | drop p i hcall => exact h.drop i
  | exec p pc hmode hcall hdone =>
    exact h.exec hsound hcoherent hlogstart hmode hcall hdone

end

/-- Start from a disk whose log is empty, and crash at will.  Whenever a
recovery has finished, the home blocks are what the first `committed` of the
transactions make of the disk as it was at first; `committed` counts the
headers that have reached the disk. -/
theorem crash_atomic {g : LogGeometry} (hnlog : 0 < g.nlog) {disk : ℕ → Block}
    (hdisk : decodeHead (disk g.logstart) = []) {ls : List LogLabel}
    {s : LogState}
    (hrun : Machine.run (Machine.restrict Transactional (logStep g)) ls
      (.boot disk [] 0) = some s) :
    s.committed ≤ s.started.length ∧
      (∀ tx ∈ s.started, tx.length ≤ logSize ∧ (tx.map Prod.fst).Nodup ∧ ∀ w ∈ tx, ¬g.inLog w.1) ∧
      ∀ p, s.mode p = .logging (.done true) → ∀ b, ¬g.inLog b → s.disk b =
          RedoLog.applyAll (s.started.take s.committed) disk b := by
  have hlogstart : g.inLog g.logstart := ⟨le_refl _, Nat.lt_add_of_pos_right hnlog⟩
  have hview : (LogState.boot disk [] 0).View g disk := by
    refine ⟨?_, ?_, le_refl _, by simp [LogState.boot]⟩
    · change LogList g (decodeHead (disk g.logstart))
      rw [hdisk]
      exact .nil g
    · intro b _
      change g.replay disk b = disk b
      rw [g.replay_of_empty hdisk]
  have hinv := Machine.run_invariant (I := fun s => s.Sound g ∧ s.Coherent g ∧ s.Durable g disk) ?_
    ⟨LogState.boot_sound g disk [] 0, LogState.boot_coherent g disk [] 0, hview.boot⟩ hrun
  · obtain ⟨_, _, hdurable⟩ := hinv
    refine ⟨hdurable.view.bound, hdurable.view.txs, ?_⟩
    intro p hp b hb
    have hempty := (hdurable.logger p _ hp).empty (Or.inl rfl)
    rw [← hdurable.view.replay b hb, g.replay_of_empty hempty]
  · rintro l t t' ⟨hsound, hcoherent, hdurable⟩ hstep
    obtain ⟨htrans, hstep⟩ := Machine.restrict_eq_some.mp hstep
    have hmove := (logStep_move hstep).1
    exact ⟨hmove.sound hsound, hmove.coherent hcoherent hsound (htrans.disciplined hsound),
      hmove.durable hdurable hsound hcoherent hlogstart htrans⟩

/-- `recover_from_log` with one block in the log, up to the end of the
first round of `install_trans`. -/
def reinstallLabels : List LogLabel :=
  breadLabels 0 ++ [.exec 0] ++ brelseLabels 0 ++ [.exec 0] ++
    breadLabels 0 ++ breadLabels 0 ++ [.exec 0, .exec 0] ++
    brelseLabels 0 ++ brelseLabels 0

/-- Power fails after the header of a commit has been written, and again in
the middle of the recovery. -/
theorem crash_atomic_two_crashes : ∃ s, Machine.run
        (Machine.restrict Transactional (logStep { logstart := 2, nlog := 31 }))
        (recoverLabels ++ [.beginOp 1] ++ updateLabels 1 40 1 (fun _ => 7) ++ [.endOp 1, .exec 1] ++
          writeLogLabels 1 ++ [.exec 1] ++ writeHeadLabels 1 ++ [.crash] ++
          reinstallLabels ++ [.crash] ++ reinstallLabels ++
          [.exec 0, .exec 0] ++ writeHeadLabels 0)
        (.boot zeroDisk [] 0) = some s ∧
      s.committed = 1 ∧ s.started.length = 1 ∧ (s.disk 40).word 0 ≠ 0 ∧
      ∀ b, ¬LogGeometry.inLog { logstart := 2, nlog := 31 } b → s.disk b =
          RedoLog.applyAll (s.started.take s.committed) zeroDisk b := by
  refine Machine.exists_run (P := fun s => decide (s.mode 0 = .logging (.done true) ∧
      s.committed = 1 ∧ s.started.length = 1 ∧
      (s.disk 40).word 0 ≠ 0))
    (by decide +kernel) ?_
  intro s hrun hs
  obtain ⟨hdone, hcommitted, hstarted, hword⟩ := of_decide_eq_true hs
  have hdisk : decodeHead (zeroDisk 2) = [] := by decide +kernel
  exact ⟨hcommitted, hstarted, hword,
    (crash_atomic (g := { logstart := 2, nlog := 31 }) (by decide) hdisk hrun).2.2 0 hdone⟩

end Xv6
