import Xv6.CacheContents
import Xv6.GroupCommit

/-!
# What `commit` has copied

While `commit` runs, the blocks that it has copied to the log keep the contents
that it copied, on the way to the log and after it, so that `install_trans` puts
back what a buffer holds already.
-/

namespace Xv6

open Function (update update_of_ne update_self)
open LogPc

/-- The buffer that has been changed and is to be written next. -/
def LogPc.storing : LogPc → Option ℕ
  | .writeLogWrite _ dst _ => some dst
  | .headWrite _ buf => some buf
  | .installWrite true _ _ dbuf => some dbuf
  | _ => none

/-- How many blocks `write_log` has copied to the buffers of their log
blocks. -/
def LogPc.copied (n : ℕ) : LogPc → ℕ
  | .writeLogTest tail => tail
  | .writeLogTo tail => tail
  | .writeLogFrom tail _ => tail
  | .writeLogCopy tail _ _ => tail
  | .writeLogWrite tail _ _ => tail + 1
  | .writeLogRelFrom tail _ _ => tail + 1
  | .writeLogRelTo tail _ => tail + 1
  | .commit => 0
  | pc => if pc.cleared = true then 0 else n

def LogPc.flushed (n : ℕ) : LogPc → ℕ
  | .writeLogWrite tail _ _ => tail
  | pc => pc.copied n

structure LogState.CopiedAt
    (g : LogGeometry) (s : LogState) (p : ℕ) (pc : LogPc) : Prop where
  clean : ∀ h ∈ (pc.seen (s.call p)).held g s.log.lh,
    (pc.seen (s.call p)).storing ≠ some h.1 → h.1 ∉ s.dirty
  copied : pc.recovering = false → ∀ j < pc.copied s.log.lh.length,
    s.latest (g.logBlock j) = s.latest (s.log.lh.getD j 0)
  flushed : pc.recovering = false → ∀ j < pc.flushed s.log.lh.length,
    s.disk (g.logBlock j) = s.latest (s.log.lh.getD j 0)
  written : pc.recovering = false → ∀ j < pc.written s.log.lh.length,
    s.disk (s.log.lh.getD j 0) = s.latest (s.log.lh.getD j 0)

/-! ## The tables and the calls -/

section

variable {pc : LogPc} {n : ℕ}

@[simp] theorem LogPc.copied_afterBread (i : ℕ) : (pc.afterBread i).copied n = pc.copied n := by
  cases pc with
  | headRead use => cases use <;> rfl
  | _ => rfl

@[simp] theorem LogPc.copied_afterBrelse : pc.afterBrelse.copied n = pc.copied n := by
  cases pc with
  | headRel use buf => cases use <;> rfl
  | _ => rfl

@[simp] theorem LogPc.flushed_afterBread (i : ℕ) : (pc.afterBread i).flushed n = pc.flushed n := by
  cases pc with
  | headRead use => cases use <;> rfl
  | _ => rfl

@[simp] theorem LogPc.flushed_afterBrelse : pc.afterBrelse.flushed n = pc.flushed n := by
  cases pc with
  | headRel use buf => cases use <;> rfl
  | _ => rfl

@[simp] theorem LogPc.copied_seen (call : Call) : (pc.seen call).copied n = pc.copied n := by
  cases call <;> simp [LogPc.seen]

@[simp] theorem LogPc.flushed_seen (call : Call) : (pc.seen call).flushed n = pc.flushed n := by
  cases call <;> simp [LogPc.seen]

@[simp] theorem LogPc.written_seen (call : Call) : (pc.seen call).written n = pc.written n := by
  cases call <;> simp [LogPc.seen]

theorem LogPc.storing_of_wanted {g : LogGeometry} {lh : List ℕ} {b : ℕ}
    (hwanted : pc.wanted g lh = some b) (i : ℕ) :
    pc.storing = none ∧ (pc.afterBread i).storing = none := by
  cases pc with
  | _ => first | contradiction | exact ⟨rfl, rfl⟩

theorem LogPc.storing_of_releasing {i : ℕ} (hreleasing : pc.releasing = some i) :
    pc.storing = none ∧ pc.afterBrelse.storing = none := by
  cases pc with
  | headRel use buf =>
    cases use with
    | _ => exact ⟨rfl, rfl⟩
  | _ => first | contradiction | exact ⟨rfl, rfl⟩

theorem LogPc.copied_le (hrange : pc.inRange n) : pc.copied n ≤ n := by
  cases pc with
  | headRead use | headFill use buf | headWrite use buf | headRel use buf =>
    cases use <;> simp [LogPc.copied, cleared]
  | commit => exact Nat.zero_le n
  | writeLogTest tail | writeLogWrite tail dst src
  | writeLogRelFrom tail dst src | writeLogRelTo tail dst => exact hrange
  | writeLogTo tail | writeLogFrom tail dst | writeLogCopy tail dst src =>
    exact Nat.le_of_lt hrange
  | _ => simp [LogPc.copied, cleared]

theorem LogPc.flushed_le (hrange : pc.inRange n) : pc.flushed n ≤ n := by
  cases pc with
  | writeLogWrite tail dst src => exact Nat.le_of_lt hrange
  | _ => exact copied_le hrange

theorem LogPc.written_le (hrange : pc.inRange n) : pc.written n ≤ n := by
  cases pc with
  | installTest r tail | installUnpin tail lbuf dbuf
  | installRelLog r tail lbuf dbuf | installRelDst r tail dbuf => exact hrange
  | installLog r tail | installDst r tail lbuf | installCopy r tail lbuf dbuf
  | installWrite r tail lbuf dbuf => exact Nat.le_of_lt hrange
  | clear r => exact le_refl n
  | _ => exact Nat.zero_le n

end

/-! ## Log blocks and home blocks -/

variable {g : LogGeometry} {lh : List ℕ} {j : ℕ}

theorem LogList.inLog_logBlock (h : LogList g lh) (hj : j < lh.length) :
    g.inLog (g.logBlock j) := by
  have hspace := h.space
  unfold LogGeometry.inLog LogGeometry.logBlock
  omega

theorem LogList.inLog_logstart (h : LogList g lh) (hj : j < lh.length) : g.inLog g.logstart := by
  have hspace := h.space
  unfold LogGeometry.inLog
  omega

theorem LogList.home_getD (h : LogList g lh) (hj : j < lh.length) : ¬g.inLog (lh.getD j 0) := by
  rw [List.getD_eq_getElem _ _ hj]
  exact h.home _ (List.getElem_mem hj)

theorem getD_mem (hj : j < lh.length) : lh.getD j 0 ∈ lh := by
  rw [List.getD_eq_getElem _ _ hj]
  exact List.getElem_mem hj

theorem LogGeometry.logBlock_inj (g : LogGeometry) {k : ℕ}
    (h : g.logBlock j = g.logBlock k) : j = k := by
  unfold logBlock at h
  omega

theorem LogGeometry.logBlock_ne (g : LogGeometry) (j : ℕ) : g.logBlock j ≠ g.logstart := by
  unfold logBlock
  omega

theorem ne_of_inLog {b b' : ℕ} (hb : g.inLog b) (hb' : ¬g.inLog b') : b ≠ b' := by
  rintro rfl
  exact hb' hb

/-! ## The process in the log's own code -/

section

variable {g : LogGeometry} {s s' : LogState} {p : ℕ} {pc pc' : LogPc}

theorem LogState.CopiedAt.of_client (h : s.CopiedAt g p pc) (hat : s.LoggerAt g p pc)
    (hlist : pc.recovering = false → LogList g s.log.lh) (hcall : s'.call p = s.call p)
    (hlog : s'.log = s.log) (hdirty : ∀ i, (s.buf i).lock = some p → i ∈ s'.dirty → i ∈ s.dirty)
    (harea : ∀ b, g.inLog b → s'.disk b = s.disk b ∧ s'.latest b = s.latest b)
    (hblocks : pc.recovering = false → ∀ b ∈ s.log.lh, s'.latest b = s.latest b ∧
    (s.disk b = s.latest b → s'.disk b = s.latest b)) : s'.CopiedAt g p pc := by
  have hcopied := copied_le hat.range
  have hflushed := flushed_le hat.range
  have hwritten := written_le hat.range
  rw [copied_seen] at hcopied
  rw [flushed_seen] at hflushed
  rw [written_seen] at hwritten
  constructor
  · rw [hcall, hlog]
    intro held hmem hstoring hdirt
    exact h.clean held hmem hstoring (hdirty _ (hat.locked held hmem).1 hdirt)
  · intro hrec j hj
    rw [hlog] at hj ⊢
    have hlt := lt_of_lt_of_le hj hcopied
    rw [(harea _ ((hlist hrec).inLog_logBlock hlt)).2, (hblocks hrec _ (getD_mem hlt)).1]
    exact h.copied hrec j hj
  · intro hrec j hj
    rw [hlog] at hj ⊢
    have hlt := lt_of_lt_of_le hj hflushed
    rw [(harea _ ((hlist hrec).inLog_logBlock hlt)).1, (hblocks hrec _ (getD_mem hlt)).1]
    exact h.flushed hrec j hj
  · intro hrec j hj
    rw [hlog] at hj ⊢
    have hlt := lt_of_lt_of_le hj hwritten
    obtain ⟨hlatest, hdisk⟩ := hblocks hrec _ (getD_mem hlt)
    rw [hlatest]
    exact hdisk (h.written hrec j hj)

theorem LogState.CopiedAt.of_same (h : s.CopiedAt g p pc)
    (hclean : ∀ held ∈ (pc'.seen (s'.call p)).held g s.log.lh,
      (pc'.seen (s'.call p)).storing ≠ some held.1 → held.1 ∉ s'.dirty)
    (hdisk : s'.disk = s.disk) (hlatest : s'.latest = s.latest)
    (hlh : s'.log.lh = s.log.lh)
    (hrec : pc'.recovering = pc.recovering)
    (hcopied : pc'.copied s.log.lh.length ≤ pc.copied s.log.lh.length)
    (hflushed : pc'.flushed s.log.lh.length ≤ pc.flushed s.log.lh.length)
    (hwritten : pc'.written s.log.lh.length ≤ pc.written s.log.lh.length) :
    s'.CopiedAt g p pc' := by
  constructor
  · rw [hlh]
    exact hclean
  · rw [hrec, hlatest, hlh]
    exact fun hr j hj => h.copied hr j (lt_of_lt_of_le hj hcopied)
  · rw [hrec, hlatest, hdisk, hlh]
    exact fun hr j hj => h.flushed hr j (lt_of_lt_of_le hj hflushed)
  · rw [hrec, hlatest, hdisk, hlh]
    exact fun hr j hj => h.written hr j (lt_of_lt_of_le hj hwritten)

theorem LogState.CopiedAt.bget (h : s.CopiedAt g p pc)
    (hcall : s.call p = .none) (b : ℕ) : (s.bget p b).CopiedAt g p pc := by
  have hclean := h.clean
  rw [hcall] at hclean
  rcases s.bget_cases p b with ⟨_, heq⟩ | ⟨i, c, _, heq⟩
  · rw [heq]
    refine h.of_same ?_ rfl rfl rfl rfl (le_refl _) (le_refl _) (le_refl _)
    simpa only [hcall] using hclean
  · rw [heq]
    refine h.of_same ?_ rfl rfl rfl rfl (le_refl _) (le_refl _) (le_refl _)
    simp only [update_self]
    exact hclean

variable {i b : ℕ}

section

variable (h : s.CopiedAt g p pc)
include h

theorem LogState.CopiedAt.acquiresleep (hat : s.LoggerAt g p pc)
    (hcontents : Contents s.disk s.latest s.bcache s.call s.dirty s.pins)
    (hcall : s.call p = .want i b) (hfree : (s.buf i).lock = none) :
    (s.acquiresleep p i b).CopiedAt g p pc := by
  have hwanted := hat.wanted i b hcall
  have hperm := held_afterBread hwanted i
  have hclean := h.clean
  rw [hcall] at hclean
  have hcall' : (s.acquiresleep p i b).call p = .check i b := by
    simp [LogState.acquiresleep]
  refine h.of_same ?_ rfl rfl rfl rfl (le_refl _) (le_refl _) (le_refl _)
  rw [hcall']
  intro held hmem _
  rcases List.mem_cons.mp (hperm.mem_iff.mp hmem) with rfl | hmem
  · intro hdirty
    obtain ⟨q, hlock⟩ := (hcontents.dirty_locked i hdirty).2
    change (s.buf i).lock = some q at hlock
    rw [hfree] at hlock
    contradiction
  · refine hclean held hmem ?_
    simp [LogPc.seen, (storing_of_wanted hwanted i).1]

theorem LogState.CopiedAt.fill (hcall : s.call p = .check i b) : ({ s.fill p i with
        mode := update s.mode p (.logging (pc.afterBread i)) } :
      LogState).CopiedAt g p (pc.afterBread i) := by
  have hclean := h.clean
  rw [hcall] at hclean
  have hcall' : (s.fill p i).call p = .none := by
    simp [LogState.fill]
  refine h.of_same ?_ rfl rfl rfl (by simp) (by simp) (by simp) (by simp)
  simp only [hcall']
  exact hclean

theorem LogState.CopiedAt.releasesleep (hcall : s.call p = .none)
    (hreleasing : pc.releasing = some i) : (s.releasesleep p i).CopiedAt g p pc := by
  have hclean := h.clean
  rw [hcall] at hclean
  obtain ⟨b, hheld⟩ : ∃ b, pc.held g s.log.lh = (i, b) :: pc.afterBrelse.held g s.log.lh :=
    held_afterBrelse hreleasing
  rcases s.releasesleep_cases p i with ⟨_, heq⟩ | ⟨_, heq⟩
  · rw [heq]
    refine h.of_same ?_ rfl rfl rfl rfl (le_refl _) (le_refl _) (le_refl _)
    simp only [update_self]
    intro held hmem _
    refine hclean held ?_ ?_
    · simp only [LogPc.seen, hheld]
      exact List.mem_cons_of_mem _ hmem
    · simp [LogPc.seen, (storing_of_releasing hreleasing).1]
  · rw [heq]
    refine h.of_same ?_ rfl rfl rfl rfl (le_refl _) (le_refl _) (le_refl _)
    simpa only [hcall] using hclean

theorem LogState.CopiedAt.drop (hcall : s.call p = .drop i) : ({ s.drop p i with
        mode := update s.mode p (.logging pc.afterBrelse) } :
      LogState).CopiedAt g p pc.afterBrelse := by
  have hclean := h.clean
  rw [hcall] at hclean
  have hcall' : (s.drop p i).call p = .none := by
    simp [LogState.drop]
  refine h.of_same ?_ rfl rfl rfl (by simp) (by simp) (by simp) (by simp)
  simp only [hcall']
  exact hclean

/-! ## The statements of the log's own code -/

theorem LogState.CopiedAt.goto {t : LogState} (hcall : s.call p = .none) (hcall' : t.call p = .none)
    (hheld : pc'.held g s.log.lh = pc.held g s.log.lh) (hstoring : pc'.storing = pc.storing)
    (hdirty : t.dirty = s.dirty) (hdisk : t.disk = s.disk) (hlatest : t.latest = s.latest)
    (hlh : t.log.lh = s.log.lh) (hrec : pc'.recovering = pc.recovering)
    (hcopied : pc'.copied s.log.lh.length ≤ pc.copied s.log.lh.length)
    (hflushed : pc'.flushed s.log.lh.length ≤ pc.flushed s.log.lh.length)
    (hwritten : pc'.written s.log.lh.length ≤ pc.written s.log.lh.length) :
    (t.goto p pc').CopiedAt g p pc' := by
  refine h.of_same ?_ hdisk hlatest hlh hrec hcopied hflushed hwritten
  have hclean := h.clean
  rw [hcall] at hclean
  have hgoto : (t.goto p pc').call p = .none := hcall'
  rw [hgoto]
  intro held hmem hnot
  change held.1 ∉ t.dirty
  rw [hdirty]
  exact hclean held (hheld ▸ hmem) (hstoring ▸ hnot)

end

theorem LogState.CopiedAt.of_recovering (hrec : pc.recovering = true)
    (hclean : ∀ held ∈ (pc.seen (s.call p)).held g s.log.lh,
      (pc.seen (s.call p)).storing ≠ some held.1 → held.1 ∉ s.dirty) :
    s.CopiedAt g p pc := by
  constructor
  · exact hclean
  · simp [hrec]
  · simp [hrec]
  · simp [hrec]

theorem LogState.CopiedAt.store (h : s.CopiedAt g p pc)
    (hat : s.LoggerAt g p pc) (hcall : s.call p = .none) (data : Block)
    (hrec : pc'.recovering = pc.recovering)
    (hclean : ∀ held ∈ pc'.held g s.log.lh, pc'.storing ≠ some held.1 →
      held.1 ≠ i ∧ held.1 ∉ s.dirty)
    (harea : pc.recovering = false → ∀ j < s.log.lh.length, s.log.lh.getD j 0 ≠ (s.buf i).blockno)
    (hcopied : pc.recovering = false → ∀ j < pc'.copied s.log.lh.length, j < s.log.lh.length ∧
        (g.logBlock j = (s.buf i).blockno ∧ data = s.latest (s.log.lh.getD j 0) ∨
          g.logBlock j ≠ (s.buf i).blockno ∧ j < pc.copied s.log.lh.length))
    (hflushed : pc'.flushed s.log.lh.length ≤ pc.flushed s.log.lh.length)
    (hwritten : pc'.written s.log.lh.length ≤ pc.written s.log.lh.length) :
    ((s.store i data).goto p pc').CopiedAt g p pc' := by
  have hflushed' := flushed_le hat.range
  have hwritten' := written_le hat.range
  rw [flushed_seen] at hflushed'
  rw [written_seen] at hwritten'
  have hcall' : ((s.store i data).goto p pc').call p = .none := hcall
  have hlh : ((s.store i data).goto p pc').log.lh = s.log.lh := rfl
  have hlatest : ∀ b, b ≠ (s.buf i).blockno →
      ((s.store i data).goto p pc').latest b = s.latest b := fun b hb =>
    update_of_ne hb _ _
  have hself : ((s.store i data).goto p pc').latest (s.buf i).blockno = data := update_self _ _ _
  constructor
  · rw [hcall']
    intro held hmem hnot
    obtain ⟨hne, hdirty⟩ := hclean held hmem hnot
    exact List.not_mem_cons_of_ne_of_not_mem hne hdirty
  · rw [hrec, hlh]
    intro hr j hj
    obtain ⟨hlt, hnew | hold⟩ := hcopied hr j hj
    · rw [hnew.1, hself, hlatest _ (harea hr j hlt)]
      exact hnew.2
    · rw [hlatest _ hold.1, hlatest _ (harea hr j hlt)]
      exact h.copied hr j hold.2
  · rw [hrec, hlh]
    intro hr j hj
    have hj := lt_of_lt_of_le hj hflushed
    rw [hlatest _ (harea hr j (lt_of_lt_of_le hj hflushed'))]
    exact h.flushed hr j hj
  · rw [hrec, hlh]
    intro hr j hj
    have hj := lt_of_lt_of_le hj hwritten
    rw [hlatest _ (harea hr j (lt_of_lt_of_le hj hwritten'))]
    exact h.written hr j hj

theorem LogState.CopiedAt.bwrite {t : LogState} (h : s.CopiedAt g p pc)
    (hsound : s.Sound g) (hcontents : Contents s.disk s.latest s.bcache s.call s.dirty s.pins)
    (hcall : s.call p = .none) (hlock : (s.buf i).lock = some p)
    (ht : t.disk = (s.bwrite p i).disk ∧ t.latest = s.latest ∧ t.dirty = (s.bwrite p i).dirty ∧
    t.call p = .none ∧ t.log.lh = s.log.lh) (hrec : pc'.recovering = pc.recovering)
    (hheld : pc'.held g s.log.lh = pc.held g s.log.lh) (hstoring : ∀ j, pc.storing = some j → j = i)
    (hcopied : pc'.copied s.log.lh.length ≤ pc.copied s.log.lh.length)
    (hflushed : pc.recovering = false →
    ∀ j < pc'.flushed s.log.lh.length, g.logBlock j = (s.buf i).blockno ∧
    j < pc.copied s.log.lh.length ∨ g.logBlock j ≠ (s.buf i).blockno ∧
    j < pc.flushed s.log.lh.length) (hwritten : pc.recovering = false →
    ∀ j < pc'.written s.log.lh.length, s.log.lh.getD j 0 = (s.buf i).blockno ∨
    s.log.lh.getD j 0 ≠ (s.buf i).blockno ∧ j < pc.written s.log.lh.length) :
    (t.goto p pc').CopiedAt g p pc' := by
  obtain ⟨hdisk, hlatest, hdirty, hcall', hlh⟩ := ht
  have hbwrite : (s.bwrite p i).disk = update s.disk (s.buf i).blockno (s.buf i).data ∧
      (s.bwrite p i).dirty = s.dirty.filter (· ≠ i) := by
    simp [LogState.bwrite, hlock]
  have hdata : (s.buf i).data = s.latest (s.buf i).blockno :=
    hcontents.data_of_lock hsound.cache hlock (by simp [hcall])
  have hsame : ∀ b, b ≠ (s.buf i).blockno → t.disk b = s.disk b := by
    intro b hb
    rw [hdisk, hbwrite.1, update_of_ne hb]
  have hself : t.disk (s.buf i).blockno = s.latest (s.buf i).blockno := by
    rw [hdisk, hbwrite.1, update_self, hdata]
  have hclean := h.clean
  rw [hcall] at hclean
  constructor
  · have hgoto : (t.goto p pc').call p = .none := hcall'
    rw [hgoto]
    change ∀ held ∈ pc'.held g t.log.lh, pc'.storing ≠ some held.1 → held.1 ∉ t.dirty
    rw [hlh, hheld, hdirty, hbwrite.2]
    intro held hmem _ hdirt
    obtain ⟨hdirt, hne⟩ := List.mem_filter.mp hdirt
    refine hclean held hmem ?_ hdirt
    intro hst
    simp [hstoring _ hst] at hne
  · change pc'.recovering = false → ∀ j < pc'.copied t.log.lh.length,
      t.latest (g.logBlock j) = t.latest (t.log.lh.getD j 0)
    rw [hrec, hlatest, hlh]
    exact fun hr j hj => h.copied hr j (lt_of_lt_of_le hj hcopied)
  · change pc'.recovering = false → ∀ j < pc'.flushed t.log.lh.length,
      t.disk (g.logBlock j) = t.latest (t.log.lh.getD j 0)
    rw [hrec, hlatest, hlh]
    intro hr j hj
    rcases hflushed hr j hj with hnew | hold
    · rw [hnew.1, hself, ← hnew.1]
      exact h.copied hr j hnew.2
    · rw [hsame _ hold.1]
      exact h.flushed hr j hold.2
  · change pc'.recovering = false → ∀ j < pc'.written t.log.lh.length,
      t.disk (t.log.lh.getD j 0) = t.latest (t.log.lh.getD j 0)
    rw [hrec, hlatest, hlh]
    intro hr j hj
    rcases hwritten hr j hj with hnew | hold
    · rw [hnew, hself]
    · rw [hsame _ hold.1]
      exact h.written hr j hold.2

theorem LogState.LoggerAt.locked_of_mem (hat : s.LoggerAt g p pc) (hcall : s.call p = .none)
    (hmem : (i, b) ∈ pc.held g s.log.lh) : (s.buf i).lock = some p ∧ (s.buf i).blockno = b := by
  have hlocked := hat.locked (i, b)
  rw [hcall] at hlocked
  exact hlocked hmem

theorem LogState.CopiedAt.clean_of_mem (h : s.CopiedAt g p pc) (hcall : s.call p = .none)
    (hmem : (i, b) ∈ pc.held g s.log.lh) (hstoring : pc.storing ≠ some i) : i ∉ s.dirty := by
  have hclean := h.clean (i, b)
  rw [hcall] at hclean
  exact hclean hmem hstoring

theorem LogList.getD_ne {lh : List ℕ} (h : LogList g lh)
    (hb : 0 < lh.length → g.inLog b) {j : ℕ} (hj : j < lh.length) : lh.getD j 0 ≠ b :=
  (ne_of_inLog (hb (by omega)) (h.home_getD hj)).symm

theorem LogState.CopiedAt.exec (h : s.CopiedAt g p pc)
    (hsound : s.Sound g) (hcontents : Contents s.disk s.latest s.bcache s.call s.dirty s.pins)
    (hmode : s.mode p = .logging pc) (hcall : s.call p = .none) (hdone : ∀ r, pc ≠ .done r) :
    ∃ pc', (s.exec g p pc).mode p = .logging pc' ∧ (s.exec g p pc).CopiedAt g p pc' := by
  have hat := hsound.journal.logger p pc hmode
  have hlist : pc.recovering = false → LogList g s.log.lh := fun hrec =>
    hsound.journal.list (hsound.admission.booted_of_commit hmode hrec)
  have hrange := hat.range
  have hnodup := hat.nodup
  have hclean := h.clean
  rw [hcall] at hrange hnodup hclean
  cases hwanted : pc.wanted g s.log.lh with
  | some b =>
    rw [exec_wanted hwanted]
    refine ⟨pc, ?_, h.bget hcall b⟩
    rcases s.bget_cases p b with ⟨_, heq⟩ | ⟨i, c, _, heq⟩
    · rw [heq]
      exact hmode
    · rw [heq]
      exact hmode
  | none =>
  cases hreleasing : pc.releasing with
  | some i =>
    rw [exec_releasing hreleasing]
    refine ⟨pc, ?_, h.releasesleep hcall hreleasing⟩
    rcases s.releasesleep_cases p i with ⟨_, heq⟩ | ⟨_, heq⟩
    · rw [heq]
      exact hmode
    · rw [heq]
      exact hmode
  | none =>
  cases pc with
  | commit =>
    by_cases hpos : 0 < s.log.lh.length
    · simp only [LogState.exec, if_pos hpos]
      exact ⟨_, update_self _ _ _, h.goto hcall hcall rfl rfl rfl
        rfl rfl rfl rfl (le_refl _) (le_refl _) (le_refl _)⟩
    · simp only [LogState.exec, if_neg hpos]
      exact ⟨_, update_self _ _ _, h.goto hcall hcall rfl rfl rfl
        rfl rfl rfl rfl (le_refl _) (le_refl _) (le_refl _)⟩
  | writeLogTest tail =>
    by_cases hlt : tail < s.log.lh.length
    · simp only [LogState.exec, if_pos hlt]
      exact ⟨_, update_self _ _ _, h.goto hcall hcall rfl rfl rfl
        rfl rfl rfl rfl (le_refl _) (le_refl _) (le_refl _)⟩
    · simp only [LogState.exec, if_neg hlt]
      have hend : s.log.lh.length ≤ tail := not_lt.mp hlt
      exact ⟨_, update_self _ _ _, h.goto hcall hcall rfl rfl rfl
        rfl rfl rfl rfl hend hend (le_refl _)⟩
  | writeLogCopy tail dst src =>
    have hl := hlist rfl
    have hlt : tail < s.log.lh.length := hrange
    obtain ⟨_, hdst⟩ := hat.locked_of_mem (i := dst)
      (b := g.logBlock tail) hcall (by simp [LogPc.held])
    obtain ⟨hsrclock, hsrc⟩ := hat.locked_of_mem (i := src)
      (b := s.log.lh.getD tail 0) hcall (by simp [LogPc.held])
    have hdata : (s.buf src).data = s.latest (s.log.lh.getD tail 0) := by
      rw [← hsrc]
      exact hcontents.data_of_lock hsound.cache hsrclock (by simp [hcall])
    have hne : src ≠ dst := by
      simpa [LogPc.seen, LogPc.held] using hnodup
    refine ⟨_, update_self _ _ _, h.store hat hcall _ rfl ?_ ?_ ?_ (le_refl _) (le_refl _)⟩
    · intro held hmem hnot
      simp only [LogPc.held, List.mem_cons, List.not_mem_nil, or_false] at hmem
      rcases hmem with rfl | rfl
      · exact ⟨hne, h.clean_of_mem (b := s.log.lh.getD tail 0) hcall
          (by simp [LogPc.held]) (by simp [storing])⟩
      · simp [storing] at hnot
    · intro _ j hj
      rw [hdst]
      exact hl.getD_ne (fun _ => hl.inLog_logBlock hlt) hj
    · intro _ j hj
      rw [hdst]
      have hj : j < tail + 1 := hj
      refine ⟨by omega, ?_⟩
      by_cases hjt : j = tail
      · subst hjt
        exact Or.inl ⟨rfl, hdata⟩
      · refine Or.inr ⟨fun heq => hjt (g.logBlock_inj heq), ?_⟩
        change j < tail
        omega
  | writeLogWrite tail dst src =>
    obtain ⟨hlock, hdst⟩ := hat.locked_of_mem (i := dst)
      (b := g.logBlock tail) hcall (by simp [LogPc.held])
    refine ⟨_, update_self _ _ _, h.bwrite (i := dst) hsound
      hcontents hcall hlock ⟨rfl, ?_, rfl, ?_, by simp⟩ rfl rfl ?_
      (le_refl _) ?_ ?_⟩
    · simp [LogState.bwrite, hlock]
    · simpa using hcall
    · rintro j hj
      exact (Option.some.inj hj).symm
    · intro _ j hj
      rw [hdst]
      have hj : j < tail + 1 := hj
      by_cases hjt : j = tail
      · subst hjt
        exact Or.inl ⟨rfl, hj⟩
      · refine Or.inr ⟨fun heq => hjt (g.logBlock_inj heq), ?_⟩
        change j < tail
        omega
    · intro _ j hj
      exact absurd hj (Nat.not_lt_zero j)
  | headFill use buf =>
    obtain ⟨_, hbuf⟩ := hat.locked_of_mem (i := buf) (b := g.logstart) hcall (by simp [LogPc.held])
    have hsame : (LogPc.headWrite use buf).recovering = (LogPc.headFill use buf).recovering ∧
        (LogPc.headWrite use buf).copied s.log.lh.length =
          (LogPc.headFill use buf).copied s.log.lh.length := by
      cases use with
      | _ => exact ⟨rfl, rfl⟩
    refine ⟨_, update_self _ _ _, h.store hat hcall _ hsame.1 ?_ ?_ ?_ ?_ (le_refl _)⟩
    · intro held hmem hnot
      simp only [LogPc.held, List.mem_cons, List.not_mem_nil, or_false] at hmem
      subst hmem
      simp [storing] at hnot
    · intro hrec j hj
      rw [hbuf]
      exact (hlist hrec).getD_ne (fun hpos => (hlist hrec).inLog_logstart hpos) hj
    · intro _ j hj
      rw [hsame.2] at hj
      refine ⟨lt_of_lt_of_le hj (copied_le hrange), Or.inr ⟨?_, hj⟩⟩
      rw [hbuf]
      exact g.logBlock_ne j
    · exact le_of_eq hsame.2
  | headWrite use buf =>
    obtain ⟨hlock, hbuf⟩ := hat.locked_of_mem (i := buf)
      (b := g.logstart) hcall (by simp [LogPc.held])
    have hlatest : (s.bwrite p buf).latest = s.latest := by
      simp [LogState.bwrite, hlock]
    have hcall' : (s.bwrite p buf).call p = .none := by simpa using hcall
    have hlh : (s.bwrite p buf).log.lh = s.log.lh := by simp
    cases use with
    | _ =>
      refine ⟨_, update_self _ _ _, h.bwrite (i := buf) hsound
        hcontents hcall hlock ⟨rfl, hlatest, rfl, hcall', hlh⟩ rfl rfl ?_
        (le_refl _) ?_ ?_⟩
      · rintro j hj
        exact (Option.some.inj hj).symm
      · intro _ j hj
        rw [hbuf]
        exact Or.inr ⟨g.logBlock_ne j, hj⟩
      · intro _ j hj
        exact absurd hj (Nat.not_lt_zero j)
  | installTest r tail =>
    by_cases hlt : tail < s.log.lh.length
    · simp only [LogState.exec, if_pos hlt]
      exact ⟨_, update_self _ _ _, h.goto hcall hcall rfl rfl rfl
        rfl rfl rfl rfl (le_refl _) (le_refl _) (le_refl _)⟩
    · simp only [LogState.exec, if_neg hlt]
      exact ⟨_, update_self _ _ _, h.goto hcall hcall rfl rfl rfl
        rfl rfl rfl rfl (le_refl _) (le_refl _) (not_lt.mp hlt)⟩
  | installCopy r tail lbuf dbuf =>
    have hne : lbuf ≠ dbuf := by
      simpa [LogPc.seen, LogPc.held] using hnodup
    cases r with
    | true =>
      refine ⟨_, update_self _ _ _, .of_recovering rfl ?_⟩
      have hcall' : (s.exec g p (.installCopy true tail lbuf dbuf)).call p = .none := hcall
      rw [hcall']
      intro held hmem hnot
      change held ∈ [(lbuf, g.logBlock tail), (dbuf, s.log.lh.getD tail 0)] at hmem
      change held.1 ∉ dbuf :: s.dirty
      simp only [List.mem_cons, List.not_mem_nil, or_false] at hmem
      rcases hmem with rfl | rfl
      · exact List.not_mem_cons_of_ne_of_not_mem hne
          (h.clean_of_mem (b := g.logBlock tail) hcall (by simp [LogPc.held]) (by simp [storing]))
      · simp [LogPc.seen, storing] at hnot
    | false =>
      exact ⟨_, update_self _ _ _, h.goto hcall hcall rfl rfl rfl
        rfl rfl rfl rfl (le_refl _) (le_refl _) (le_refl _)⟩
  | installWrite r tail lbuf dbuf =>
    obtain ⟨hlock, hdst⟩ := hat.locked_of_mem (i := dbuf)
      (b := s.log.lh.getD tail 0) hcall (by simp [LogPc.held])
    have hlatest : (s.bwrite p dbuf).latest = s.latest := by
      simp [LogState.bwrite, hlock]
    have hcall' : (s.bwrite p dbuf).call p = .none := by simpa using hcall
    have hlh : (s.bwrite p dbuf).log.lh = s.log.lh := by simp
    cases r with
    | true =>
      refine ⟨_, update_self _ _ _, h.bwrite (i := dbuf) hsound
        hcontents hcall hlock ⟨rfl, hlatest, rfl, hcall', hlh⟩ rfl rfl ?_
        (le_refl _) ?_ ?_⟩
      · rintro j hj
        exact (Option.some.inj hj).symm
      · intro hrec
        simp [recovering] at hrec
      · intro hrec
        simp [recovering] at hrec
    | false =>
      have hl := hlist rfl
      have hlt : tail < s.log.lh.length := hrange
      refine ⟨_, update_self _ _ _, h.bwrite (i := dbuf) hsound
        hcontents hcall hlock ⟨rfl, hlatest, rfl, hcall', hlh⟩ rfl rfl ?_
        (le_refl _) ?_ ?_⟩
      · rintro j hj
        simp [storing] at hj
      · intro _ j hj
        rw [hdst]
        refine Or.inr ⟨?_, hj⟩
        have hj : j < s.log.lh.length := hj
        exact ne_of_inLog (hl.inLog_logBlock hj) (hl.home_getD hlt)
      · intro _ j hj
        rw [hdst]
        have hj : j < tail + 1 := hj
        by_cases heq : s.log.lh.getD j 0 = s.log.lh.getD tail 0
        · exact Or.inl heq
        · refine Or.inr ⟨heq, ?_⟩
          have hjt : j ≠ tail := by
            rintro rfl
            exact heq rfl
          change j < tail
          omega
  | installUnpin tail lbuf dbuf =>
    exact ⟨_, update_self _ _ _, h.goto hcall hcall rfl rfl rfl
      rfl rfl rfl rfl (le_refl _) (le_refl _) (le_refl _)⟩
  | clear r =>
    refine ⟨_, update_self _ _ _, ?_⟩
    have hcall' : (s.exec g p (.clear r)).call p = .none := hcall
    constructor
    · rw [hcall']
      cases r with
      | _ => simp [LogPc.seen, LogPc.held]
    · intro _ j hj
      cases r with
      | _ => exact absurd hj (Nat.not_lt_zero j)
    · intro _ j hj
      cases r with
      | _ => exact absurd hj (Nat.not_lt_zero j)
    · intro _ j hj
      exact absurd hj (Nat.not_lt_zero j)
  | recoverHead buf =>
    refine ⟨_, update_self _ _ _, .of_recovering rfl ?_⟩
    have hcall' : (s.exec g p (.recoverHead buf)).call p = .none := hcall
    rw [hcall']
    exact hclean
  | done r => exact absurd rfl (hdone r)
  | _ => contradiction

theorem LogState.bwrite_contents
    (hcontents : Contents s.disk s.latest s.bcache s.call s.dirty s.pins)
    (hcache : CacheInv s.bcache s.call s.refs s.pins) (hcall : s.call p = .none) :
    Contents (s.bwrite p i).disk (s.bwrite p i).latest
    (s.bwrite p i).bcache (s.bwrite p i).call (s.bwrite p i).dirty (s.bwrite p i).pins := by
  rcases s.bwrite_cases p i with ⟨hlock, heq⟩ | ⟨_, heq⟩
  · rw [heq]
    exact hcontents.bwrite hcache hlock hcall
  · rw [heq]
    exact hcontents

theorem LogState.CopiedAt.exec_contents (h : s.CopiedAt g p pc)
    (hsound : s.Sound g) (hcontents : Contents s.disk s.latest s.bcache s.call s.dirty s.pins)
    (hmode : s.mode p = .logging pc) (hcall : s.call p = .none) :
    Contents (s.exec g p pc).disk (s.exec g p pc).latest
    (s.exec g p pc).bcache (s.exec g p pc).call (s.exec g p pc).dirty (s.exec g p pc).pins := by
  have hat := hsound.journal.logger p pc hmode
  have hrange := hat.range
  rw [hcall] at hrange
  cases hwanted : pc.wanted g s.log.lh with
  | some b =>
    rw [exec_wanted hwanted]
    rcases s.bget_cases p b with ⟨_, heq⟩ | ⟨i, c, hget, heq⟩
    · rw [heq]
      exact hcontents
    · rw [heq]
      exact hcontents.bget hsound.cache hcall hget
  | none =>
  cases hreleasing : pc.releasing with
  | some i =>
    obtain ⟨b, hheld⟩ : ∃ b, pc.held g s.log.lh = (i, b) :: pc.afterBrelse.held g s.log.lh :=
      held_afterBrelse hreleasing
    have hclean : i ∉ s.dirty := h.clean_of_mem (b := b) hcall
      (by simp [hheld]) (by simp [storing_of_releasing hreleasing])
    rw [exec_releasing hreleasing]
    rcases s.releasesleep_cases p i with ⟨hlock, heq⟩ | ⟨_, heq⟩
    · rw [heq]
      exact hcontents.releasesleep hcall hlock hclean
    · rw [heq]
      exact hcontents
  | none =>
  cases pc with
  | commit | writeLogTest tail | installTest r tail =>
    simp only [LogState.exec]
    split <;> exact hcontents
  | writeLogCopy tail dst src =>
    obtain ⟨hlock, _⟩ := hat.locked_of_mem (i := dst)
      (b := g.logBlock tail) hcall (by simp [LogPc.held])
    exact hcontents.store hsound.cache _ hlock hcall
  | writeLogWrite tail dst src =>
    exact bwrite_contents hcontents hsound.cache hcall
  | headFill use buf =>
    obtain ⟨hlock, _⟩ := hat.locked_of_mem (i := buf) (b := g.logstart) hcall (by simp [LogPc.held])
    exact hcontents.store hsound.cache _ hlock hcall
  | headWrite use buf =>
    cases use with
    | _ => exact bwrite_contents hcontents hsound.cache hcall
  | installCopy r tail lbuf dbuf =>
    obtain ⟨hdlock, hdst⟩ := hat.locked_of_mem (i := dbuf)
      (b := s.log.lh.getD tail 0) hcall (by simp [LogPc.held])
    cases r with
    | true => exact hcontents.store hsound.cache _ hdlock hcall
    | false =>
      obtain ⟨hllock, hlblock⟩ := hat.locked_of_mem (i := lbuf)
        (b := g.logBlock tail) hcall (by simp [LogPc.held])
      have hdata : (s.buf lbuf).data = s.latest (s.buf lbuf).blockno :=
        hcontents.data_of_lock hsound.cache hllock (by simp [hcall])
      apply hcontents.restore
      -- the log block still holds what was copied to it
      have hcopied := h.copied rfl tail hrange
      rw [hdata, hlblock, hcopied, ← hdst]
      rfl
  | installWrite r tail lbuf dbuf =>
    cases r with
    | _ => exact bwrite_contents hcontents hsound.cache hcall
  | installUnpin tail lbuf dbuf =>
    obtain ⟨hdlock, hdst⟩ := hat.locked_of_mem (i := dbuf)
      (b := s.log.lh.getD tail 0) hcall (by simp [LogPc.held])
    have hwritten := h.written rfl tail (Nat.lt_succ_self tail)
    rw [← hdst] at hwritten
    have hunpin := hcontents.unpin hwritten
    refine hunpin.of_refcnt ?_ fun _ _ _ hq => hq
    exact s.bcache.set_refcnt_same dbuf _
  | clear r | recoverHead buf | done r => exact hcontents
  | _ => contradiction

end

end Xv6
