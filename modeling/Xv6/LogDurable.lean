import Xv6.CacheCoherence
import Xv6.Lib.RedoLog

/-!
# The log on the disk

What a crash leaves behind is the disk alone.  Reading the header block as a
redo log gives the contents that the home blocks have after recovery; the
statements of `commit` and `recover_from_log` change that only at the commit
point.
-/

namespace Xv6

open Function (update update_of_ne update_self)
open LogPc RedoLog

/-! ## The header block -/

theorem headBlocks_word_of_le (hb : Block) {k i : ℕ} (lh : List ℕ)
    (hi : i ≤ k) : (headBlocks hb k lh).word i = hb.word i := by
  induction lh generalizing hb k with
  | nil => rfl
  | cons b lh ih =>
    rw [headBlocks, ih _ (by omega)]
    exact Block.word_setWord_of_ne hb b (by omega)

theorem headBlocks_word (hb : Block) {k j : ℕ} {lh : List ℕ}
    (hlen : k + lh.length < bsize / 4) (hsmall : ∀ b ∈ lh, b < 2 ^ 32) (hj : j < lh.length) :
    (headBlocks hb k lh).word (k + j + 1) = lh[j] := by
  induction lh generalizing hb k j with
  | nil => simp at hj
  | cons b lh ih =>
    rw [List.length_cons] at hlen
    cases j with
    | zero =>
      rw [headBlocks, headBlocks_word_of_le _ _ (by omega)]
      exact Block.word_setWord_self hb (by omega) (hsmall b (by simp))
    | succ j =>
      have hj : j < lh.length := by simpa using hj
      have hshift : k + (j + 1) + 1 = (k + 1) + j + 1 := by omega
      rw [headBlocks, hshift, List.getElem_cons_succ]
      exact ih _ (by omega) (fun b' hb' => hsmall b' (by simp [hb'])) hj

theorem decodeHead_encodeHead (hb : Block) {lh : List ℕ} (hlen : lh.length ≤ logSize)
    (hsmall : ∀ b ∈ lh, b < 2 ^ 32) : decodeHead (encodeHead hb lh) = lh := by
  have hlen : lh.length ≤ 30 := hlen
  have hfits : 0 + lh.length < bsize / 4 := by
    unfold bsize
    omega
  have hzero : (encodeHead hb lh).word 0 = lh.length := by
    unfold encodeHead
    rw [headBlocks_word_of_le _ _ (le_refl 0)]
    exact Block.word_setWord_self hb (by unfold bsize; omega) (by omega)
  apply List.ext_getElem
  · simp [decodeHead, hzero]
  · intro j hj hj'
    have hword : (encodeHead hb lh).word (0 + j + 1) = lh[j] := headBlocks_word _ hfits hsmall hj'
    simpa [decodeHead] using hword

theorem decodeHead_lt {hb : Block} {b : ℕ} (hmem : b ∈ decodeHead hb) : b < 2 ^ 32 := by
  obtain ⟨i, _, rfl⟩ := List.mem_map.mp hmem
  exact hb.word_lt _

def LogGeometry.replay (g : LogGeometry) (disk : ℕ → Block) : ℕ → Block :=
  RedoLog.replay (decodeHead (disk g.logstart))
    (fun j => disk (g.logBlock j)) disk

/-! ## Phases -/

/-- What the header block on the disk is to the statement at hand: empty, empty
while a commit is on its way, the list of logged blocks, about to be erased, or
not read yet. -/
inductive HeadPhase
  | empty
  | pending
  | full
  | erasing
  | unread

def LogPc.headPhase : LogPc → HeadPhase
  | .commit => .empty
  | .writeLogTest _ => .pending
  | .writeLogTo _ => .pending
  | .writeLogFrom _ _ => .pending
  | .writeLogCopy _ _ _ => .pending
  | .writeLogWrite _ _ _ => .pending
  | .writeLogRelFrom _ _ _ => .pending
  | .writeLogRelTo _ _ => .pending
  | .headRead .commit => .pending
  | .headFill .commit _ => .pending
  | .headWrite .commit _ => .pending
  | .headRel .commit _ => .full
  | .headRead _ => .erasing
  | .headFill _ _ => .erasing
  | .headWrite _ _ => .erasing
  | .headRel _ _ => .empty
  | .clear _ => .erasing
  | .recoverRead => .unread
  | .recoverHead _ => .unread
  | .done _ => .empty
  | _ => .full

structure LogState.DurableAt
    (g : LogGeometry) (s : LogState) (pc : LogPc) : Prop where
  empty : pc.headPhase = .empty ∨ pc.headPhase = .pending → decodeHead (s.disk g.logstart) = []
  full : pc.headPhase = .full → decodeHead (s.disk g.logstart) = s.log.lh
  installed : pc.headPhase = .full → ∀ j < pc.written s.log.lh.length,
      s.disk (s.log.lh.getD j 0) = s.disk (g.logBlock j)
  erasing : pc.headPhase = .erasing → ∀ b, ¬g.inLog b → s.disk b = g.replay s.disk b
  filled : ∀ use buf, pc = .headWrite use buf → decodeHead (s.latest g.logstart) = s.log.lh
  restored : ∀ tail lbuf dbuf, pc = .installWrite true tail lbuf dbuf →
    s.latest (s.log.lh.getD tail 0) = s.disk (g.logBlock tail)
  pending : pc.headPhase = .pending →
    ∃ txs, s.started = txs ++ [s.log.lh.map fun b => (b, s.latest b)] ∧ txs.length = s.committed
  settled : pc.recovering = false → pc.headPhase ≠ .pending → s.started.length = s.committed

/-- What is on the disk for good, if it held `init` at first. -/
structure LogState.View
    (g : LogGeometry) (init : ℕ → Block) (s : LogState) : Prop where
  header : LogList g (decodeHead (s.disk g.logstart))
  replay : ∀ b, ¬g.inLog b → g.replay s.disk b =
    RedoLog.applyAll (s.started.take s.committed) init b
  bound : s.committed ≤ s.started.length
  txs : ∀ tx ∈ s.started, tx.length ≤ logSize ∧ (tx.map Prod.fst).Nodup ∧ ∀ w ∈ tx, ¬g.inLog w.1

section

variable {pc : LogPc}

@[simp] theorem LogPc.headPhase_afterBread (i : ℕ) :
    (pc.afterBread i).headPhase = pc.headPhase := by
  cases pc with
  | headRead use => cases use <;> rfl
  | _ => rfl

@[simp] theorem LogPc.headPhase_afterBrelse : pc.afterBrelse.headPhase = pc.headPhase := by
  cases pc with
  | headRel use buf => cases use <;> rfl
  | _ => rfl

theorem LogPc.headWrite_of_afterBread {i : ℕ} {use : HeadUse}
    {buf : ℕ} (h : pc.afterBread i = .headWrite use buf) : pc = .headWrite use buf := by
  cases pc with
  | headWrite use' buf' => exact h
  | _ => contradiction

theorem LogPc.headWrite_of_afterBrelse {use : HeadUse}
    {buf : ℕ} (h : pc.afterBrelse = .headWrite use buf) : pc = .headWrite use buf := by
  cases pc with
  | headWrite use' buf' => exact h
  | headRel use' buf' =>
    cases use' with
    | _ => contradiction
  | _ => contradiction

theorem LogPc.installWrite_of_afterBread {i : ℕ} {r : Bool} {tail lbuf dbuf : ℕ}
    (h : pc.afterBread i = .installWrite r tail lbuf dbuf) :
    pc = .installWrite r tail lbuf dbuf := by
  cases pc with
  | installWrite r' tail' lbuf' dbuf' => exact h
  | _ => contradiction

theorem LogPc.installWrite_of_afterBrelse {r : Bool} {tail lbuf dbuf : ℕ}
    (h : pc.afterBrelse = .installWrite r tail lbuf dbuf) :
    pc = .installWrite r tail lbuf dbuf := by
  cases pc with
  | installWrite r' tail' lbuf' dbuf' => exact h
  | headRel use buf =>
    cases use with
    | _ => contradiction
  | _ => contradiction

end

/-! ## Writing to the disk -/

section

variable {g : LogGeometry} {init : ℕ → Block} {s s' : LogState} {b : ℕ} {v : Block}

theorem LogGeometry.replay_congr {disk disk' : ℕ → Block}
    (hhead : disk' g.logstart = disk g.logstart)
    (hlog : ∀ j < (decodeHead (disk g.logstart)).length, disk' (g.logBlock j) = disk (g.logBlock j))
    (hhome : b ∉ decodeHead (disk g.logstart) → disk' b = disk b) :
    g.replay disk' b = g.replay disk b := by
  unfold LogGeometry.replay
  rw [hhead]
  exact RedoLog.replay_congr hlog hhome

theorem LogGeometry.replay_of_empty
    {disk : ℕ → Block} (hempty : decodeHead (disk g.logstart) = []) : g.replay disk = disk := by
  unfold LogGeometry.replay
  rw [hempty, replay_nil]

theorem LogState.View.of_same (h : s.View g init) (hdisk : s'.disk = s.disk)
    (hstarted : s'.started = s.started) (hcommitted : s'.committed = s.committed) :
    s'.View g init := by
  constructor
  · rw [hdisk]
    exact h.header
  · rw [hdisk, hstarted, hcommitted]
    exact h.replay
  · rw [hstarted, hcommitted]
    exact h.bound
  · rw [hstarted]
    exact h.txs

theorem LogState.View.write_log (h : s.View g init) (hempty : decodeHead (s.disk g.logstart) = [])
    (hb : g.inLog b) (hne : b ≠ g.logstart) (hdisk : s'.disk = update s.disk b v)
    (hstarted : s'.started = s.started) (hcommitted : s'.committed = s.committed) :
    s'.View g init := by
  have hhead : s'.disk g.logstart = s.disk g.logstart := by
    rw [hdisk, update_of_ne hne.symm]
  constructor
  · rw [hhead]
    exact h.header
  · intro b' hb'
    rw [hstarted, hcommitted, ← h.replay b' hb']
    refine g.replay_congr hhead ?_ ?_
    · simp [hempty]
    · intro _
      rw [hdisk, update_of_ne (ne_of_inLog hb hb').symm]
  · rw [hstarted, hcommitted]
    exact h.bound
  · rw [hstarted]
    exact h.txs

theorem LogState.View.write_home (h : s.View g init)
    (hlogstart : g.inLog g.logstart) (hb : ¬g.inLog b) (hmem : b ∈ decodeHead (s.disk g.logstart))
    (hdisk : s'.disk = update s.disk b v) (hstarted : s'.started = s.started)
    (hcommitted : s'.committed = s.committed) : s'.View g init := by
  have hhead : s'.disk g.logstart = s.disk g.logstart := by
    rw [hdisk, update_of_ne (ne_of_inLog hlogstart hb)]
  constructor
  · rw [hhead]
    exact h.header
  · intro b' hb'
    rw [hstarted, hcommitted, ← h.replay b' hb']
    refine g.replay_congr hhead ?_ ?_
    · intro j hj
      have hlog := h.header.inLog_logBlock hj
      rw [hdisk, update_of_ne (ne_of_inLog hlog hb)]
    · intro hnot
      have hne : b' ≠ b := by
        rintro rfl
        exact hnot hmem
      rw [hdisk, update_of_ne hne]
  · rw [hstarted, hcommitted]
    exact h.bound
  · rw [hstarted]
    exact h.txs

theorem LogState.View.erase (h : s.View g init) (hlogstart : g.inLog g.logstart)
    (hreplayed : ∀ b, ¬g.inLog b → s.disk b = g.replay s.disk b) (hv : decodeHead v = [])
    (hdisk : s'.disk = update s.disk g.logstart v) (hstarted : s'.started = s.started)
    (hcommitted : s'.committed = s.committed) : s'.View g init := by
  have hempty : decodeHead (s'.disk g.logstart) = [] := by
    rw [hdisk, update_self, hv]
  constructor
  · rw [hempty]
    exact .nil g
  · intro b' hb'
    rw [g.replay_of_empty hempty, hdisk, update_of_ne (ne_of_inLog hlogstart hb').symm,
      hreplayed b' hb', hstarted, hcommitted]
    exact h.replay b' hb'
  · rw [hstarted, hcommitted]
    exact h.bound
  · rw [hstarted]
    exact h.txs

theorem LogState.View.commit (h : s.View g init)
    (hlogstart : g.inLog g.logstart) {lh : List ℕ} {txs : List (List (ℕ × Block))}
    (hlist : LogList g lh) (hempty : decodeHead (s.disk g.logstart) = [])
    (hflushed : ∀ j < lh.length, s.disk (g.logBlock j) = s.latest (lh.getD j 0))
    (hv : decodeHead v = lh) (hpending : s.started = txs ++ [lh.map fun b => (b, s.latest b)])
    (hlength : txs.length = s.committed) (hdisk : s'.disk = update s.disk g.logstart v)
    (hstarted : s'.started = s.started) (hcommitted : s'.committed = s.committed + 1) :
    s'.View g init := by
  have hhead : decodeHead (s'.disk g.logstart) = lh := by
    rw [hdisk, update_self, hv]
  have htake : s.started.take s.committed = txs := by
    rw [hpending, ← hlength, List.take_left]
  have htake' : s'.started.take s'.committed = s.started := by
    rw [hstarted, hcommitted, List.take_of_length_le]
    simp [hpending, hlength]
  constructor
  · rw [hhead]
    exact hlist
  · intro b' hb'
    have hsame : s'.disk b' = s.disk b' := by
      rw [hdisk, update_of_ne (ne_of_inLog hlogstart hb').symm]
    have hbefore : s.disk b' = applyAll txs init b' := by
      rw [← htake, ← h.replay b' hb', g.replay_of_empty hempty]
    have hcopies : ∀ j < lh.length, s'.disk (g.logBlock j) = s.latest (lh.getD j 0) := by
      intro j hj
      rw [hdisk, update_of_ne (g.logBlock_ne j)]
      exact hflushed j hj
    unfold LogGeometry.replay
    rw [hhead, htake', hpending, applyAll_append_singleton, replay_eq_apply hlist.nodup 0 hcopies]
    exact apply_congr _ (hsame.trans hbefore)
  · rw [hstarted, hcommitted, hpending]
    simp [hlength]
  · rw [hstarted]
    exact h.txs

end

/-! ## The process in the log's own code -/

section

variable {g : LogGeometry} {init : ℕ → Block} {s s' : LogState} {p : ℕ} {pc pc' : LogPc}

theorem LogState.DurableAt.of_same
    (h : s.DurableAt g pc) (hdisk : s'.disk = s.disk) (hlatest : s'.latest = s.latest)
    (hlh : s'.log.lh = s.log.lh) (hstarted : s'.started = s.started)
    (hcommitted : s'.committed = s.committed) (hphase : pc'.headPhase = pc.headPhase)
    (hwritten : pc'.written s.log.lh.length ≤ pc.written s.log.lh.length)
    (hrec : pc'.recovering = pc.recovering)
    (hfilled : ∀ use buf, pc' = .headWrite use buf → pc = .headWrite use buf)
    (hrestored : ∀ tail lbuf dbuf, pc' = .installWrite true tail lbuf dbuf →
    pc = .installWrite true tail lbuf dbuf) : s'.DurableAt g pc' := by
  constructor
  · rw [hphase, hdisk]
    exact h.empty
  · rw [hphase, hdisk, hlh]
    exact h.full
  · rw [hphase, hdisk, hlh]
    exact fun hfull j hj => h.installed hfull j (lt_of_lt_of_le hj hwritten)
  · rw [hphase, hdisk]
    exact h.erasing
  · rw [hlatest, hlh]
    exact fun use buf hpc => h.filled use buf (hfilled use buf hpc)
  · rw [hlatest, hlh, hdisk]
    exact fun tail lbuf dbuf hpc =>
      h.restored tail lbuf dbuf (hrestored tail lbuf dbuf hpc)
  · rw [hphase, hstarted, hcommitted, hlh, hlatest]
    exact h.pending
  · rw [hrec, hphase, hstarted, hcommitted]
    exact h.settled

theorem LogState.DurableAt.of_client (h : s.DurableAt g pc)
    (hdisk : s'.disk = s.disk) (hlatest : s'.latest = s.latest)
    (hlog : s'.log.lh = s.log.lh) (hstarted : s'.started = s.started)
    (hcommitted : s'.committed = s.committed) : s'.DurableAt g pc :=
  h.of_same hdisk hlatest hlog hstarted hcommitted rfl (le_refl _) rfl
    (fun _ _ hpc => hpc) (fun _ _ _ hpc => hpc)

theorem LogState.DurableAt.afterBread (h : s.DurableAt g pc) (i : ℕ) :
    s.DurableAt g (pc.afterBread i) :=
  h.of_same rfl rfl rfl rfl rfl (by simp) (by simp) (by simp)
    (fun _ _ => headWrite_of_afterBread)
    (fun _ _ _ => installWrite_of_afterBread)

theorem LogState.DurableAt.afterBrelse (h : s.DurableAt g pc) : s.DurableAt g pc.afterBrelse :=
  h.of_same rfl rfl rfl rfl rfl (by simp) (by simp) (by simp)
    (fun _ _ => headWrite_of_afterBrelse)
    (fun _ _ _ => installWrite_of_afterBrelse)

variable {i buf : ℕ}

theorem Contents.data_eq_disk {disk latest : ℕ → Block} {c : Bcache} {call : ℕ → Call}
    {dirty pins : List ℕ} {refs : List (ℕ × ℕ)} (h : Contents disk latest c call dirty pins)
    (hc : CacheInv c call refs pins) (hlock : (c.buf i).lock = some p)
    (hcall : ∀ b, call p ≠ .check i b) (hclean : i ∉ dirty) (hpin : (c.buf i).blockno ∉ pins) :
    (c.buf i).data = disk (c.buf i).blockno := by
  rw [h.data_of_lock hc hlock hcall]
  rcases h.clean (c.buf i).blockno with hb | hb | ⟨j, hmem, hblock⟩
  · exact hb.symm
  · exact absurd hb hpin
  · obtain ⟨hi, hdev⟩ := hc.refs_ok _ (hc.mem_refs_of_lock hlock)
    obtain ⟨_, q, hlockj⟩ := h.dirty_locked j hmem
    obtain rfl := hc.eq_of_lock hlockj hi hdev hblock.symm
    exact absurd hmem hclean

theorem LogState.bwrite_of_locked {b : ℕ} (hcoherent : s.Coherent g) (hsound : s.Sound g)
    (hcall : s.call p = .none) (hlock : (s.buf i).lock = some p) (hblock : (s.buf i).blockno = b) :
    s.bwrite p i = { s with
        disk := update s.disk b (s.latest b)
        dirty := s.dirty.filter (· ≠ i) } := by
  have hdata : (s.buf i).data = s.latest (s.buf i).blockno :=
    hcoherent.contents.data_of_lock hsound.cache hlock (by simp [hcall])
  unfold LogState.bwrite
  rw [if_pos hlock, hdata, hblock]

theorem LogState.DurableAt.store (h : s.DurableAt g pc)
    (data : Block) (hother : pc.headPhase = .pending → (s.buf i).blockno ∉ s.log.lh)
    (hphase : pc'.headPhase = pc.headPhase)
    (hwritten : pc'.written s.log.lh.length = pc.written s.log.lh.length)
    (hrec : pc'.recovering = pc.recovering) (hfilled : ∀ use buf, pc' = .headWrite use buf →
    (s.buf i).blockno = g.logstart ∧ decodeHead data = s.log.lh)
    (hrestored : ∀ tail lbuf dbuf, pc' = .installWrite true tail lbuf dbuf →
    (s.buf i).blockno = s.log.lh.getD tail 0 ∧ data = s.disk (g.logBlock tail)) :
    ((s.store i data).goto p pc').DurableAt g pc' := by
  have hlatest : ((s.store i data).goto p pc').latest =
      update s.latest (s.buf i).blockno data := rfl
  have hlh : ((s.store i data).goto p pc').log.lh = s.log.lh := rfl
  constructor
  · rw [hphase]
    exact h.empty
  · rw [hphase]
    exact h.full
  · rw [hphase, hlh, hwritten]
    exact h.installed
  · rw [hphase]
    exact h.erasing
  · intro use buf hpc
    obtain ⟨hblock, hdata⟩ := hfilled use buf hpc
    rw [hlatest, hblock, update_self, hdata, hlh]
  · intro tail lbuf dbuf hpc
    obtain ⟨hblock, hdata⟩ := hrestored tail lbuf dbuf hpc
    rw [hlatest, hlh, hblock, update_self, hdata]
    rfl
  · rw [hphase, hlh, hlatest]
    intro hpending
    obtain ⟨txs, hstarted, hlength⟩ := h.pending hpending
    refine ⟨txs, ?_, hlength⟩
    change s.started = _
    rw [hstarted]
    congr 2
    apply List.map_congr_left
    intro b hb
    have hne : b ≠ (s.buf i).blockno := by
      rintro rfl
      exact hother hpending hb
    rw [update_of_ne hne]
  · rw [hrec, hphase]
    exact h.settled

theorem LogState.DurableAt.install
    (h : s.DurableAt g pc) (hview : s.View g init) (hlogstart : g.inLog g.logstart)
    {tail : ℕ} (hfull : pc.headPhase = .full) (hfull' : pc'.headPhase = .full)
    (htail : tail < s.log.lh.length) (hwritten : pc.written s.log.lh.length = tail)
    (hwritten' : pc'.written s.log.lh.length = tail + 1)
    (hrec : pc'.recovering = pc.recovering) (hpc : ∀ r t l d, pc' ≠ .installWrite r t l d)
    (hvalue : s.latest (s.log.lh.getD tail 0) = s.disk (g.logBlock tail))
    (hdisk : s'.disk = update s.disk (s.log.lh.getD tail 0) (s.latest (s.log.lh.getD tail 0)))
    (hlh : s'.log.lh = s.log.lh)
    (hstarted : s'.started = s.started) (hcommitted : s'.committed = s.committed) :
    (s'.goto p pc').DurableAt g pc' ∧ (s'.goto p pc').View g init := by
  have hhead := h.full hfull
  have hlist : LogList g s.log.lh := hhead ▸ hview.header
  have hhome := hlist.home_getD htail
  have harea : ∀ b, g.inLog b → s'.disk b = s.disk b := by
    intro b hb
    rw [hdisk, update_of_ne (ne_of_inLog hb hhome)]
  have hmem : s.log.lh.getD tail 0 ∈ decodeHead (s.disk g.logstart) := by
    rw [hhead]
    exact getD_mem htail
  refine ⟨?_, hview.write_home hlogstart hhome hmem hdisk hstarted hcommitted ⟩
  constructor
  · simp [hfull']
  · intro _
    change decodeHead (s'.disk g.logstart) = s'.log.lh
    rw [harea _ hlogstart, hlh, hhead]
  · intro _ j hj
    change j < pc'.written s'.log.lh.length at hj
    change s'.disk (s'.log.lh.getD j 0) = s'.disk (g.logBlock j)
    rw [hlh] at hj ⊢
    rw [harea _ (hlist.inLog_logBlock (by omega)), hdisk]
    by_cases heq : s.log.lh.getD j 0 = s.log.lh.getD tail 0
    · have hj' : j < s.log.lh.length := by omega
      have hjt : j = tail := by
        rw [List.getD_eq_getElem _ _ hj', List.getD_eq_getElem _ _ htail] at heq
        exact (hlist.nodup.getElem_inj_iff).mp heq
      rw [heq, update_self, hvalue, hjt]
    · have hjt : j ≠ tail := by
        rintro rfl
        exact heq rfl
      rw [update_of_ne heq]
      exact h.installed hfull j (by omega)
  · simp [hfull']
  · intro use buf hwrite
    rw [hwrite] at hwritten'
    simp [written] at hwritten'
  · exact fun t l d hwrite => absurd hwrite (hpc true t l d)
  · simp [hfull']
  · intro hr _
    change s'.started.length = s'.committed
    rw [hstarted, hcommitted]
    exact h.settled (hrec ▸ hr) (by simp [hfull])

theorem LogState.DurableAt.commitHead (h : s.DurableAt g (.headWrite .commit buf))
    (hview : s.View g init) (hlogstart : g.inLog g.logstart) (hlist : LogList g s.log.lh)
    (hflushed : ∀ j < s.log.lh.length, s.disk (g.logBlock j) = s.latest (s.log.lh.getD j 0))
    (hdisk : s'.disk = update s.disk g.logstart (s.latest g.logstart)) (hlh : s'.log.lh = s.log.lh)
    (hstarted : s'.started = s.started) (hcommitted : s'.committed = s.committed + 1) :
    (s'.goto p (.headRel .commit buf)).DurableAt g (.headRel .commit buf) ∧
    (s'.goto p (.headRel .commit buf)).View g init := by
  have hv := h.filled .commit buf rfl
  obtain ⟨txs, hpending, hlength⟩ := h.pending rfl
  refine ⟨?_, hview.commit hlogstart hlist (h.empty (Or.inr rfl)) hflushed hv
    hpending hlength hdisk hstarted hcommitted⟩
  constructor
  · simp [headPhase]
  · intro _
    change decodeHead (s'.disk g.logstart) = s'.log.lh
    rw [hdisk, update_self, hlh, hv]
  · exact fun _ j hj => absurd hj (Nat.not_lt_zero j)
  · simp [headPhase]
  · simp
  · simp
  · simp [headPhase]
  · intro _ _
    change s'.started.length = s'.committed
    rw [hstarted, hcommitted, hpending]
    simp [hlength]

theorem LogState.DurableAt.eraseHead {use : HeadUse} (h : s.DurableAt g (.headWrite use buf))
    (hview : s.View g init) (huse : use ≠ .commit) (hlogstart : g.inLog g.logstart)
    (hcleared : s.log.lh = []) (hdisk : s'.disk = update s.disk g.logstart (s.latest g.logstart))
    (hstarted : s'.started = s.started) (hcommitted : s'.committed = s.committed) :
    (s'.goto p (.headRel use buf)).DurableAt g (.headRel use buf) ∧
    (s'.goto p (.headRel use buf)).View g init := by
  have hv := h.filled use buf rfl
  rw [hcleared] at hv
  have hphase : (LogPc.headWrite use buf).headPhase = .erasing ∧ (LogPc.headRel use buf).headPhase =
      .empty ∧ (LogPc.headRel use buf).recovering = (LogPc.headWrite use buf).recovering := by
    cases use with
    | commit => contradiction
    | _ => exact ⟨rfl, rfl, rfl⟩
  refine ⟨?_, hview.erase hlogstart (h.erasing hphase.1) hv hdisk hstarted hcommitted⟩
  constructor
  · intro _
    change decodeHead (s'.disk g.logstart) = []
    rw [hdisk, update_self, hv]
  · simp [hphase]
  · simp [hphase]
  · simp [hphase]
  · simp
  · simp
  · simp [hphase]
  · intro hrec _
    change s'.started.length = s'.committed
    rw [hstarted, hcommitted]
    exact h.settled (hphase.2.2 ▸ hrec) (by simp [hphase])

theorem LogState.DurableAt.jump (h : s.DurableAt g pc)
    (hview : s.View g init) (hdisk : s'.disk = s.disk) (hlatest : s'.latest = s.latest)
    (hlh : s'.log.lh = s.log.lh) (hstarted : s'.started = s.started)
    (hcommitted : s'.committed = s.committed) (hphase : pc'.headPhase = pc.headPhase)
    (hwritten : pc'.written s.log.lh.length ≤ pc.written s.log.lh.length)
    (hrec : pc'.recovering = pc.recovering) (hfilled : ∀ use buf, pc' ≠ .headWrite use buf)
    (hrestored : ∀ t l d, pc' ≠ .installWrite true t l d) : ∃ pc'', (s'.goto p pc').mode
    p = .logging pc'' ∧ (s'.goto p pc').DurableAt g pc'' ∧ (s'.goto p pc').View g init :=
  ⟨pc', update_self _ _ _, h.of_same hdisk hlatest hlh hstarted hcommitted hphase hwritten hrec
      (fun use buf hpc => absurd hpc (hfilled use buf))
      (fun t l d hpc => absurd hpc (hrestored t l d)),
    hview.of_same hdisk hstarted hcommitted⟩

theorem LogState.DurableAt.start
    (h : s.DurableAt g .commit) (hview : s.View g init) (hlist : LogList g s.log.lh)
    (hdisk : s'.disk = s.disk) (hlatest : s'.latest = s.latest) (hlh : s'.log.lh = s.log.lh)
    (hstarted : s'.started = s.started ++ [s.log.lh.map fun b => (b, s.latest b)])
    (hcommitted : s'.committed = s.committed) :
    s'.DurableAt g (.writeLogTest 0) ∧ s'.View g init := by
  have hsettled := h.settled rfl (by simp [headPhase])
  constructor
  · constructor
    · intro _
      rw [hdisk]
      exact h.empty (Or.inl rfl)
    · simp [headPhase]
    · simp [headPhase]
    · simp [headPhase]
    · simp
    · simp
    · intro _
      refine ⟨s.started, ?_, ?_⟩
      · rw [hstarted, hlh, hlatest]
      · rw [hcommitted, hsettled]
    · simp [headPhase]
  · constructor
    · rw [hdisk]
      exact hview.header
    · rw [hdisk, hstarted, hcommitted, List.take_append_of_le_length hview.bound]
      exact hview.replay
    · rw [hcommitted, hstarted, List.length_append]
      exact hview.bound.trans (Nat.le_add_right _ _)
    · rw [hstarted]
      intro tx htx
      rcases List.mem_append.mp htx with htx | htx
      · exact hview.txs tx htx
      · obtain rfl := List.mem_singleton.mp htx
        simpa [Function.comp_def] using And.intro hlist.length (And.intro hlist.nodup hlist.home)

theorem LogState.DurableAt.installed_all {r : Bool} {tail : ℕ}
    (h : s.DurableAt g (.installTest r tail))
    (hend : s.log.lh.length ≤ tail) : s.DurableAt g (.clear r) := by
  constructor
  · simp [headPhase]
  · simp [headPhase]
  · simp [headPhase]
  · intro _ b _
    unfold LogGeometry.replay
    rw [h.full rfl]
    exact eq_replay_of_installed 0 (fun j hj => h.installed rfl j (lt_of_lt_of_le hj hend)) b
  · simp
  · simp
  · simp [headPhase]
  · intro hrec _
    exact h.settled hrec (by simp [headPhase])

theorem LogState.DurableAt.clear {r : Bool} (h : s.DurableAt g (.clear r))
    (hdisk : s'.disk = s.disk) (hstarted : s'.started = s.started)
    (hcommitted : s'.committed = s.committed) :
    s'.DurableAt g (.headRead (if r = true then .recover else .erase)) := by
  have hphase : (LogPc.headRead (if r = true then .recover else .erase)).headPhase = .erasing ∧
      (LogPc.headRead (if r = true then .recover else .erase)).recovering =
        (LogPc.clear r).recovering := by
    cases r with
    | _ => exact ⟨rfl, rfl⟩
  constructor
  · simp [hphase]
  · simp [hphase]
  · simp [hphase]
  · rw [hdisk]
    exact fun _ => h.erasing rfl
  · simp
  · simp
  · simp [hphase]
  · intro hrec _
    rw [hstarted, hcommitted]
    exact h.settled (hphase.2 ▸ hrec) (by simp [headPhase])

theorem LogState.DurableAt.readHead (hdata : s'.log.lh = decodeHead (s'.disk g.logstart)) :
    s'.DurableAt g (.recoverRel buf) := by
  constructor
  · simp [headPhase]
  · exact fun _ => hdata.symm
  · exact fun _ j hj => absurd hj (Nat.not_lt_zero j)
  · simp [headPhase]
  · simp
  · simp
  · simp [headPhase]
  · simp [recovering]

theorem LogState.DurableAt.exec (h : s.DurableAt g pc) (hview : s.View g init)
    (hsound : s.Sound g) (hcoherent : s.Coherent g) (hlogstart : g.inLog g.logstart)
    (hsmall : ∀ b ∈ s.log.lh, b < 2 ^ 32) (hmode : s.mode p = .logging pc)
    (hcall : s.call p = .none) (hdone : ∀ r, pc ≠ .done r) : ∃ pc', (s.exec g p pc).mode
    p = .logging pc' ∧ (s.exec g p pc).DurableAt g pc' ∧ (s.exec g p pc).View g init := by
  have hat := hsound.journal.logger p pc hmode
  have hcopied := hcoherent.logger p pc hmode
  have hlist : pc.recovering = false → LogList g s.log.lh := fun hrec =>
    hsound.journal.list (hsound.admission.booted_of_commit hmode hrec)
  have hrange := hat.range
  rw [hcall] at hrange
  cases hwanted : pc.wanted g s.log.lh with
  | some b =>
    rw [exec_wanted hwanted]
    rcases s.bget_cases p b with ⟨_, heq⟩ | ⟨i, c, _, heq⟩
    · rw [heq]
      exact ⟨pc, hmode, h.of_client rfl rfl rfl rfl rfl, hview.of_same rfl rfl rfl⟩
    · rw [heq]
      exact ⟨pc, hmode, h.of_client rfl rfl rfl rfl rfl, hview.of_same rfl rfl rfl⟩
  | none =>
  cases hreleasing : pc.releasing with
  | some i =>
    rw [exec_releasing hreleasing]
    rcases s.releasesleep_cases p i with ⟨_, heq⟩ | ⟨_, heq⟩
    · rw [heq]
      exact ⟨pc, hmode, h.of_client rfl rfl rfl rfl rfl, hview.of_same rfl rfl rfl⟩
    · rw [heq]
      exact ⟨pc, hmode, h.of_client rfl rfl rfl rfl rfl, hview.of_same rfl rfl rfl⟩
  | none =>
  cases pc with
  | commit =>
    by_cases hpos : 0 < s.log.lh.length
    · simp only [LogState.exec, if_pos hpos]
      exact ⟨_, update_self _ _ _, h.start hview (hlist rfl) rfl rfl rfl rfl rfl⟩
    · simp only [LogState.exec, if_neg hpos]
      exact h.jump hview rfl rfl rfl rfl rfl rfl (le_refl _) rfl (by simp) (by simp)
  | writeLogTest tail =>
    simp only [LogState.exec]
    split
    · exact h.jump hview rfl rfl rfl rfl rfl rfl (le_refl _) rfl (by simp) (by simp)
    · exact h.jump hview rfl rfl rfl rfl rfl rfl (le_refl _) rfl (by simp) (by simp)
  | writeLogCopy tail dst src =>
    obtain ⟨_, hdst⟩ := hat.locked_of_mem (i := dst)
      (b := g.logBlock tail) hcall (by simp [LogPc.held])
    refine ⟨_, update_self _ _ _, h.store _ ?_ rfl rfl rfl
      (by simp) (by simp), hview.of_same rfl rfl rfl⟩
    intro _ hmem
    rw [hdst] at hmem
    exact (hlist rfl).home _ hmem ((hlist rfl).inLog_logBlock hrange)
  | writeLogWrite tail dst src =>
    obtain ⟨hlock, hdst⟩ := hat.locked_of_mem (i := dst)
      (b := g.logBlock tail) hcall (by simp [LogPc.held])
    have hempty := h.empty (Or.inr rfl)
    have harea := (hlist rfl).inLog_logBlock hrange
    have hne := g.logBlock_ne tail
    simp only [LogState.exec]
    rw [bwrite_of_locked hcoherent hsound hcall hlock hdst]
    refine ⟨_, update_self _ _ _, ?_, hview.write_log hempty harea hne rfl rfl rfl⟩
    constructor
    · intro _
      change decodeHead (update s.disk (g.logBlock tail) _ g.logstart) = []
      rw [update_of_ne hne.symm]
      exact hempty
    · simp [headPhase]
    · simp [headPhase]
    · simp [headPhase]
    · simp
    · simp
    · exact h.pending
    · simp [headPhase]
  | headFill use buf =>
    obtain ⟨_, hbuf⟩ := hat.locked_of_mem (i := buf) (b := g.logstart) hcall (by simp [LogPc.held])
    have hlength : s.log.lh.length ≤ logSize := by
      cases use with
      | commit => exact (hlist rfl).length
      | _ =>
        rw [hat.phase.cleared rfl]
        exact Nat.zero_le _
    have hphase : (LogPc.headWrite use buf).headPhase = (LogPc.headFill use buf).headPhase ∧
        (LogPc.headWrite use buf).recovering = (LogPc.headFill use buf).recovering := by
      cases use with
      | _ => exact ⟨rfl, rfl⟩
    refine ⟨_, update_self _ _ _, h.store _ ?_ hphase.1 rfl
      hphase.2 ?_ (by simp), hview.of_same rfl rfl rfl⟩
    · intro hpending hmem
      rw [hbuf] at hmem
      cases use with
      | commit => exact (hlist rfl).home _ hmem hlogstart
      | _ => simp [headPhase] at hpending
    · exact fun _ _ _ => ⟨hbuf, decodeHead_encodeHead _ hlength hsmall⟩
  | headWrite use buf =>
    obtain ⟨hlock, hbuf⟩ := hat.locked_of_mem (i := buf)
      (b := g.logstart) hcall (by simp [LogPc.held])
    have hbwrite := bwrite_of_locked hcoherent hsound hcall hlock hbuf
    cases use with
    | commit =>
      simp only [LogState.exec, hbwrite, if_pos hlock]
      exact ⟨_, update_self _ _ _, h.commitHead hview hlogstart (hlist rfl) (hcopied.flushed rfl)
          rfl rfl rfl rfl⟩
    | erase | recover =>
      simp only [LogState.exec, hbwrite]
      exact ⟨_, update_self _ _ _, h.eraseHead hview (by simp) hlogstart (hat.phase.cleared rfl)
          rfl rfl rfl⟩
  | installTest r tail =>
    by_cases hlt : tail < s.log.lh.length
    · simp only [LogState.exec, if_pos hlt]
      exact h.jump hview rfl rfl rfl rfl rfl rfl (le_refl _) rfl (by simp) (by simp)
    · simp only [LogState.exec, if_neg hlt]
      exact ⟨_, update_self _ _ _, (h.installed_all (not_lt.mp hlt)).of_client rfl rfl rfl rfl rfl,
        hview.of_same rfl rfl rfl⟩
  | installCopy r tail lbuf dbuf =>
    cases r with
    | false =>
      exact h.jump hview rfl rfl rfl rfl rfl rfl (le_refl _) rfl (by simp) (by simp)
    | true =>
      obtain ⟨hllock, hlblock⟩ := hat.locked_of_mem (i := lbuf)
        (b := g.logBlock tail) hcall (by simp [LogPc.held])
      obtain ⟨_, hdblock⟩ := hat.locked_of_mem (i := dbuf)
        (b := s.log.lh.getD tail 0) hcall (by simp [LogPc.held])
      have hclean : lbuf ∉ s.dirty :=
        hcopied.clean_of_mem (b := g.logBlock tail) hcall (by simp [LogPc.held]) (by simp [storing])
      have hdata : (s.buf lbuf).data = s.disk (s.buf lbuf).blockno :=
        hcoherent.contents.data_eq_disk hsound.cache hllock
          (by simp [hcall]) hclean (by simp [hat.phase.recovering rfl])
      rw [hlblock] at hdata
      refine ⟨_, update_self _ _ _, h.store _ ?_ rfl rfl rfl
        (by simp) ?_, hview.of_same rfl rfl rfl⟩
      · simp [headPhase]
      · intro t l d hpc
        obtain ⟨_, rfl, _, _⟩ := LogPc.installWrite.inj hpc
        exact ⟨hdblock, hdata⟩
  | installWrite r tail lbuf dbuf =>
    obtain ⟨hlock, hdst⟩ := hat.locked_of_mem (i := dbuf)
      (b := s.log.lh.getD tail 0) hcall (by simp [LogPc.held])
    have hbwrite := bwrite_of_locked hcoherent hsound hcall hlock hdst
    cases r with
    | true =>
      simp only [LogState.exec, hbwrite]
      exact ⟨_, update_self _ _ _, h.install hview hlogstart rfl rfl hrange rfl rfl rfl (by simp)
          (h.restored tail lbuf dbuf rfl) rfl rfl rfl rfl⟩
    | false =>
      simp only [LogState.exec, hbwrite]
      exact ⟨_, update_self _ _ _, h.install hview hlogstart rfl rfl hrange rfl rfl rfl (by simp)
          (hcopied.flushed rfl tail hrange).symm rfl rfl rfl rfl⟩
  | installUnpin tail lbuf dbuf =>
    exact h.jump hview rfl rfl rfl rfl rfl rfl (le_refl _) rfl (by simp) (by simp)
  | clear r =>
    exact ⟨_, update_self _ _ _, h.clear rfl rfl rfl, hview.of_same rfl rfl rfl⟩
  | recoverHead buf =>
    obtain ⟨hlock, hbuf⟩ := hat.locked_of_mem (i := buf)
      (b := g.logstart) hcall (by simp [LogPc.held])
    have hclean : buf ∉ s.dirty :=
      hcopied.clean_of_mem (b := g.logstart) hcall (by simp [LogPc.held]) (by simp [storing])
    have hdata : (s.buf buf).data = s.disk (s.buf buf).blockno := hcoherent.contents.data_eq_disk
      hsound.cache hlock (by simp [hcall]) hclean (by simp [hat.phase.recovering rfl])
    rw [hbuf] at hdata
    exact ⟨_, update_self _ _ _, .readHead (congrArg decodeHead hdata), hview.of_same rfl rfl rfl⟩
  | done r => exact absurd rfl (hdone r)
  | _ => contradiction

end

end Xv6
