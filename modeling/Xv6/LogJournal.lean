import Xv6.LogHeld

/-!
# The blocks in the log

The blocks in `log.lh` are exactly the blocks that the operations since the
last commit have logged, and they stay so until `install_trans` has written
all of them.  While a process is in the log's own code, the invariant also says
which buffers it has locked, which blocks are still pinned and which have been
installed.
-/

namespace Xv6

open Function (update update_self)

/-- One of the operations has logged block `b`. -/
def Logged (ops : List Op) (b : ℕ) : Prop := ∃ o ∈ ops, b ∈ o.blocks

/-- What `log_write` guarantees of the list of logged blocks. -/
structure LogList (g : LogGeometry) (lh : List ℕ) : Prop where
  nodup : lh.Nodup
  home : ∀ b ∈ lh, ¬g.inLog b
  length : lh.length ≤ logSize
  space : lh.length ≤ g.nlog - 1

/-- The log, the pins and the installed blocks while a process is in the log's
own code. -/
structure LogState.Phase (s : LogState) (pc : LogPc) : Prop where
  cleared : pc.cleared = true → s.log.lh = []
  recovering : pc.recovering = true → s.pins = [] ∧ s.ops = []
  pins : pc.recovering = false → s.pins = s.log.lh.drop (pc.unpinned s.log.lh.length)
  logged : pc.recovering = false → pc.cleared = false → ∀ b, b ∈ s.log.lh ↔ Logged s.ops b
  installing : pc.recovering = false → pc.cleared = false →
    s.installed = s.log.lh.take (pc.written s.log.lh.length)
  installed : pc.recovering = false → pc.cleared = true →
    s.installed.Nodup ∧ ∀ b, b ∈ s.installed ↔ Logged s.ops b

structure LogState.LoggerAt
    (g : LogGeometry) (s : LogState) (p : ℕ) (pc : LogPc) : Prop where
  locked : ∀ h ∈ (pc.seen (s.call p)).held g s.log.lh,
    (s.buf h.1).lock = some p ∧ (s.buf h.1).blockno = h.2
  nodup : (((pc.seen (s.call p)).held g s.log.lh).map Prod.fst).Nodup
  wanted : ∀ i b, s.call p = .want i b → pc.wanted g s.log.lh = some b
  range : (pc.seen (s.call p)).inRange s.log.lh.length
  phase : s.Phase pc

structure LogState.Journal (g : LogGeometry) (s : LogState) : Prop where
  list : s.booted = true → LogList g s.log.lh
  idle : (∀ p pc, s.mode p ≠ .logging pc) → s.pins = s.log.lh ∧ ∀ b, b ∈ s.log.lh ↔ Logged s.ops b
  logger : ∀ p pc, s.mode p = .logging pc → s.LoggerAt g p pc

/-! ## Phases -/

theorem LogState.Phase.congr
    {s s' : LogState} {pc pc' : LogPc} (h : s.Phase pc) (hlh : s'.log.lh = s.log.lh)
    (hpins : s'.pins = s.pins) (hops : s'.ops = s.ops) (hinstalled : s'.installed = s.installed)
    (hrec : pc'.recovering = pc.recovering) (hcleared : pc'.cleared = pc.cleared)
    (hunpinned : pc'.unpinned s.log.lh.length = pc.unpinned s.log.lh.length)
    (hwritten : pc'.written s.log.lh.length = pc.written s.log.lh.length) : s'.Phase pc' := by
  constructor
  · rw [hcleared, hlh]
    exact h.cleared
  · rw [hrec, hpins, hops]
    exact h.recovering
  · rw [hrec, hpins, hlh, hunpinned]
    exact h.pins
  · rw [hrec, hcleared, hlh, hops]
    exact h.logged
  · rw [hrec, hcleared, hlh, hinstalled, hwritten]
    exact h.installing
  · rw [hrec, hcleared, hinstalled, hops]
    exact h.installed

theorem LogState.Phase.of_same {s s' : LogState}
    {pc : LogPc} (h : s.Phase pc) (hlh : s'.log.lh = s.log.lh) (hpins : s'.pins = s.pins)
    (hops : s'.ops = s.ops) (hinstalled : s'.installed = s.installed) : s'.Phase pc :=
  h.congr hlh hpins hops hinstalled rfl rfl rfl rfl

theorem LogState.Phase.of_recovering {s : LogState} {pc : LogPc} (hrec : pc.recovering = true)
    (hcleared : pc.cleared = true → s.log.lh = [])
    (hpins : s.pins = []) (hops : s.ops = []) : s.Phase pc := by
  constructor
  · exact hcleared
  · exact fun _ => ⟨hpins, hops⟩
  · simp [hrec]
  · simp [hrec]
  · simp [hrec]
  · simp [hrec]

/-! ## The process in the log's own code -/

section

variable {g : LogGeometry} {s s' : LogState} {p : ℕ} {pc pc' : LogPc}

theorem LogState.LoggerAt.of_keeps (h : s.LoggerAt g p pc)
    (hkeeps : s.bcache.Keeps p s'.bcache) (hcall : s'.call p = s.call p)
    (hlog : s'.log = s.log) (hphase : s'.Phase pc) : s'.LoggerAt g p pc := by
  constructor
  · rw [hcall, hlog]
    intro held hmem
    obtain ⟨hlock, hblock⟩ := h.locked held hmem
    exact ⟨hkeeps.lock hlock, (hkeeps.blockno hlock).trans hblock⟩
  · rw [hcall, hlog]
    exact h.nodup
  · rw [hcall, hlog]
    exact h.wanted
  · rw [hcall, hlog]
    exact h.range
  · exact hphase

theorem LogState.LoggerAt.of_goto (h : s.LoggerAt g p pc) (hcall : s.call p = .none)
    (hcall' : s'.call p = .none) (hheld : pc'.held g s'.log.lh = pc.held g s.log.lh)
    (hlock : ∀ i, (s'.buf i).lock = (s.buf i).lock)
    (hblock : ∀ i, (s'.buf i).blockno = (s.buf i).blockno)
    (hrange : pc'.inRange s'.log.lh.length) (hphase : s'.Phase pc') : s'.LoggerAt g p pc' := by
  have hlocked := h.locked
  have hnodup := h.nodup
  rw [hcall] at hlocked hnodup
  constructor
  · rw [hcall']
    simp only [LogPc.seen, hheld, hlock, hblock]
    exact hlocked
  · rw [hcall']
    simp only [LogPc.seen, hheld]
    exact hnodup
  · intro i b hwant
    rw [hcall'] at hwant
    contradiction
  · rw [hcall']
    exact hrange
  · exact hphase

variable {b i : ℕ}

section

variable (h : s.LoggerAt g p pc)
include h

theorem LogState.LoggerAt.bget (hcache : CacheInv s.bcache s.call s.refs s.pins)
    (hcall : s.call p = .none) (hwanted : pc.wanted g s.log.lh = some b) :
    (s.bget p b).LoggerAt g p pc := by
  rcases s.bget_cases p b with ⟨_, heq⟩ | ⟨i, c, hget, heq⟩
  · rw [heq]
    exact h.of_keeps (.refl _ _) rfl rfl (h.phase.of_same rfl rfl rfl rfl)
  · have hkeeps := Bcache.Keeps.bget hcache p hget
    have hlocked := h.locked
    have hnodup := h.nodup
    have hrange := h.range
    rw [hcall] at hlocked hnodup hrange
    rw [heq]
    constructor
    · simp only [update_self]
      intro held hmem
      obtain ⟨hlock, hblock⟩ := hlocked held hmem
      exact ⟨hkeeps.lock hlock, (hkeeps.blockno hlock).trans hblock⟩
    · simp only [update_self]
      exact hnodup
    · simp only [update_self, Call.want.injEq]
      rintro j b' ⟨rfl, rfl⟩
      exact hwanted
    · simp only [update_self]
      exact hrange
    · exact h.phase.of_same rfl rfl rfl rfl

theorem LogState.LoggerAt.acquiresleep (hcache : CacheInv s.bcache s.call s.refs s.pins)
    (hcall : s.call p = .want i b) (hfree : (s.buf i).lock = none) :
    (s.acquiresleep p i b).LoggerAt g p pc := by
  have hwanted := h.wanted i b hcall
  have hperm := LogPc.held_afterBread hwanted i
  have hlocked := h.locked
  have hnodup := h.nodup
  have hrange := h.range
  rw [hcall] at hlocked hnodup hrange
  have hfresh : ∀ held ∈ pc.held g s.log.lh, held.1 ≠ i := by
    intro held hmem heq
    obtain ⟨hlock, _⟩ := hlocked held hmem
    rw [heq, hfree] at hlock
    contradiction
  have hcall' : (s.acquiresleep p i b).call p = .check i b := by
    simp [LogState.acquiresleep]
  constructor
  · rw [hcall']
    intro held hmem
    rcases List.mem_cons.mp (hperm.mem_iff.mp hmem) with rfl | hmem
    · refine ⟨by simp [LogState.acquiresleep, setBuf, LogState.buf], ?_⟩
      have hblock := hcache.want p i b hcall
      simpa [LogState.acquiresleep, setBuf, LogState.buf] using hblock
    · have hne := hfresh held hmem
      have hbuf : (s.acquiresleep p i b).buf held.1 = s.buf held.1 := Bcache.set_buf_of_ne _ _ hne
      rw [hbuf]
      exact hlocked held hmem
  · rw [hcall']
    refine (hperm.map Prod.fst).nodup_iff.mpr ?_
    rw [List.map_cons, List.nodup_cons]
    refine ⟨?_, hnodup⟩
    intro hmem
    obtain ⟨held, hmem, heq⟩ := List.mem_map.mp hmem
    exact hfresh held hmem heq
  · rw [hcall']
    intro j b' hwant
    contradiction
  · rw [hcall']
    exact LogPc.inRange_afterBread hrange i
  · exact h.phase.of_same rfl rfl rfl rfl

theorem LogState.LoggerAt.fill (hcall : s.call p = .check i b) : ({ s.fill p i with
        mode := update s.mode p (.logging (pc.afterBread i)) } :
      LogState).LoggerAt g p (pc.afterBread i) := by
  have hlocked := h.locked
  have hnodup := h.nodup
  have hrange := h.range
  rw [hcall] at hlocked hnodup hrange
  have hlock : ∀ j, ((s.fill p i).buf j).lock = (s.buf j).lock := by
    apply s.bcache.set_field Buf.lock
    split <;> rfl
  have hblock : ∀ j, ((s.fill p i).buf j).blockno = (s.buf j).blockno := by
    apply s.bcache.set_field Buf.blockno
    split <;> rfl
  have hcall' : (s.fill p i).call p = .none := by
    simp [LogState.fill]
  constructor
  · simp only [hcall']
    intro held hmem
    obtain ⟨hheld, hheldBlock⟩ := hlocked held hmem
    exact ⟨(hlock _).trans hheld, (hblock _).trans hheldBlock⟩
  · simp only [hcall']
    exact hnodup
  · simp only [hcall']
    intro j b' hwant
    contradiction
  · simp only [hcall']
    exact hrange
  · exact h.phase.congr rfl rfl rfl rfl (by simp) (by simp) (by simp) (by simp)

theorem LogState.LoggerAt.releasesleep (hcall : s.call p = .none)
    (hreleasing : pc.releasing = some i) : (s.releasesleep p i).LoggerAt g p pc := by
  rcases s.releasesleep_cases p i with ⟨_, heq⟩ | ⟨_, heq⟩
  · obtain ⟨b, hheld⟩ : ∃ b, pc.held g s.log.lh = (i, b) :: pc.afterBrelse.held g s.log.lh :=
      LogPc.held_afterBrelse hreleasing
    have hlocked := h.locked
    have hnodup := h.nodup
    have hrange := h.range
    rw [hcall] at hlocked hnodup hrange
    simp only [LogPc.seen, hheld, List.map_cons, List.nodup_cons] at hlocked hnodup
    rw [heq]
    constructor
    · simp only [update_self]
      intro held hmem
      have hne : held.1 ≠ i := by
        intro hi
        exact hnodup.1 (List.mem_map.mpr ⟨held, hmem, hi⟩)
      change ((s.bcache.set i _).buf held.1).lock = _ ∧ ((s.bcache.set i _).buf held.1).blockno = _
      rw [Bcache.set_buf_of_ne _ _ hne]
      exact hlocked held (List.mem_cons_of_mem _ hmem)
    · simp only [update_self]
      exact hnodup.2
    · simp only [update_self]
      intro j b' hwant
      contradiction
    · simp only [update_self]
      exact LogPc.inRange_afterBrelse hrange
    · exact h.phase.of_same rfl rfl rfl rfl
  · rw [heq]
    exact h.of_keeps (.refl _ _) rfl rfl (h.phase.of_same rfl rfl rfl rfl)

theorem LogState.LoggerAt.drop (hcall : s.call p = .drop i) : ({ s.drop p i with
        mode := update s.mode p (.logging pc.afterBrelse) } :
      LogState).LoggerAt g p pc.afterBrelse := by
  have hlocked := h.locked
  have hnodup := h.nodup
  have hrange := h.range
  rw [hcall] at hlocked hnodup hrange
  have hkeeps := Bcache.Keeps.brelse p i s.bcache
  have hcall' : (s.drop p i).call p = .none := by
    simp [LogState.drop]
  constructor
  · simp only [hcall']
    intro held hmem
    obtain ⟨hlock, hblock⟩ := hlocked held hmem
    exact ⟨hkeeps.lock hlock, (hkeeps.blockno hlock).trans hblock⟩
  · simp only [hcall']
    exact hnodup
  · simp only [hcall']
    intro j b' hwant
    contradiction
  · simp only [hcall']
    exact hrange
  · exact h.phase.congr rfl rfl rfl rfl (by simp) (by simp) (by simp) (by simp)

end

end

/-! ## The statements of the log's own code -/

section

variable (s : LogState)
include s

@[simp] theorem LogState.bwrite_bcache (p i : ℕ) : (s.bwrite p i).bcache = s.bcache := by
  rcases s.bwrite_cases p i with ⟨_, heq⟩ | ⟨_, heq⟩ <;> rw [heq]

@[simp] theorem LogState.bwrite_call (p i : ℕ) : (s.bwrite p i).call = s.call := by
  rcases s.bwrite_cases p i with ⟨_, heq⟩ | ⟨_, heq⟩ <;> rw [heq]

@[simp] theorem LogState.bwrite_log (p i : ℕ) : (s.bwrite p i).log = s.log := by
  rcases s.bwrite_cases p i with ⟨_, heq⟩ | ⟨_, heq⟩ <;> rw [heq]

@[simp] theorem LogState.bwrite_refs (p i : ℕ) : (s.bwrite p i).refs = s.refs := by
  rcases s.bwrite_cases p i with ⟨_, heq⟩ | ⟨_, heq⟩ <;> rw [heq]

@[simp] theorem LogState.bwrite_booted (p i : ℕ) : (s.bwrite p i).booted = s.booted := by
  rcases s.bwrite_cases p i with ⟨_, heq⟩ | ⟨_, heq⟩ <;> rw [heq]

@[simp] theorem LogState.bwrite_pins (p i : ℕ) : (s.bwrite p i).pins = s.pins := by
  rcases s.bwrite_cases p i with ⟨_, heq⟩ | ⟨_, heq⟩ <;> rw [heq]

@[simp] theorem LogState.bwrite_ops (p i : ℕ) : (s.bwrite p i).ops = s.ops := by
  rcases s.bwrite_cases p i with ⟨_, heq⟩ | ⟨_, heq⟩ <;> rw [heq]

@[simp] theorem LogState.bwrite_installed (p i : ℕ) : (s.bwrite p i).installed = s.installed := by
  rcases s.bwrite_cases p i with ⟨_, heq⟩ | ⟨_, heq⟩ <;> rw [heq]

end

section

variable {g : LogGeometry} {s : LogState} {p : ℕ} {pc pc' : LogPc}

theorem LogState.LoggerAt.goto (h : s.LoggerAt g p pc) (hcall : s.call p = .none)
    (hheld : pc'.held g s.log.lh = pc.held g s.log.lh) (hrange : pc'.inRange s.log.lh.length)
    (hphase : s.Phase pc') : (s.goto p pc').LoggerAt g p pc' :=
  h.of_goto hcall hcall hheld (fun _ => rfl) (fun _ => rfl) hrange
    (hphase.of_same rfl rfl rfl rfl)

theorem LogState.LoggerAt.change_goto (h : s.LoggerAt g p pc)
    (hcall : s.call p = .none) {t : LogState} (hlock : ∀ i, (t.buf i).lock = (s.buf i).lock)
    (hblock : ∀ i, (t.buf i).blockno = (s.buf i).blockno) (hcall' : t.call = s.call)
    (hlog : t.log = s.log) (hheld : pc'.held g s.log.lh = pc.held g s.log.lh)
    (hrange : pc'.inRange s.log.lh.length) (hphase : t.Phase pc') :
    (t.goto p pc').LoggerAt g p pc' := by
  refine h.of_goto hcall ?_ ?_ hlock hblock ?_ (hphase.of_same rfl rfl rfl rfl)
  · change t.call p = .none
    rw [hcall', hcall]
  · change pc'.held g t.log.lh = _
    rw [hlog, hheld]
  · change pc'.inRange t.log.lh.length
    rw [hlog]
    exact hrange

theorem LogState.LoggerAt.setData_goto
    (h : s.LoggerAt g p pc) (hcall : s.call p = .none) (i : ℕ) (data : Block) {t : LogState}
    (hbcache : t.bcache = s.bcache.set i { s.buf i with data := data }) (hcall' : t.call = s.call)
    (hlog : t.log = s.log) (hheld : pc'.held g s.log.lh = pc.held g s.log.lh)
    (hrange : pc'.inRange s.log.lh.length) (hphase : t.Phase pc') :
    (t.goto p pc').LoggerAt g p pc' := by
  refine h.change_goto hcall ?_ ?_ hcall' hlog hheld hrange hphase
  · intro j
    rw [LogState.buf, hbcache]
    exact s.bcache.set_field (b := { s.buf i with data := data }) Buf.lock rfl j
  · intro j
    rw [LogState.buf, hbcache]
    exact s.bcache.set_field (b := { s.buf i with data := data }) Buf.blockno rfl j

theorem LogState.LoggerAt.bwrite_goto (h : s.LoggerAt g p pc) (hcall : s.call p = .none) (i : ℕ)
    (hheld : pc'.held g s.log.lh = pc.held g s.log.lh) (hrange : pc'.inRange s.log.lh.length)
    (hphase : s.Phase pc') : ((s.bwrite p i).goto p pc').LoggerAt g p pc' := by
  refine h.change_goto hcall ?_ ?_ (by simp) (by simp) hheld hrange
    (hphase.of_same (by simp) (by simp) (by simp) (by simp)) <;>
    simp [LogState.buf]

variable {s' : LogState}

theorem LogState.Phase.installWrite
    {tail lbuf dbuf : ℕ} (h : s.Phase (.installWrite false tail lbuf dbuf))
    (hrange : tail < s.log.lh.length) (hlh : s'.log.lh = s.log.lh) (hpins : s'.pins = s.pins)
    (hops : s'.ops = s.ops) (hinstalled : s'.installed = s.installed ++ [s.log.lh.getD tail 0]) :
    s'.Phase (.installUnpin tail lbuf dbuf) := by
  constructor
  · exact fun hcleared => absurd hcleared (by simp [LogPc.cleared])
  · exact fun hrec => absurd hrec (by simp [LogPc.recovering])
  · rw [hpins, hlh]
    exact h.pins
  · rw [hlh, hops]
    exact h.logged
  · intro _ _
    have hold : s.installed = s.log.lh.take tail := h.installing rfl rfl
    rw [hinstalled, hold, hlh, List.getD_eq_getElem _ _ hrange]
    exact List.take_append_getElem hrange
  · exact fun _ hcleared => absurd hcleared (by simp [LogPc.cleared])

theorem erase_drop_getD {α : Type*} [DecidableEq α] {l : List α}
    {k : ℕ} (d : α) (hk : k < l.length) : (l.drop k).erase (l.getD k d) = l.drop (k + 1) := by
  rw [List.getD_eq_getElem _ _ hk, List.drop_eq_getElem_cons hk, List.erase_cons_head]

theorem LogState.Phase.installUnpin {tail lbuf dbuf : ℕ}
    (h : s.Phase (.installUnpin tail lbuf dbuf)) (hrange : tail < s.log.lh.length)
    (hlh : s'.log.lh = s.log.lh) (hpins : s'.pins = s.pins.erase (s.log.lh.getD tail 0))
    (hops : s'.ops = s.ops) (hinstalled : s'.installed = s.installed) :
    s'.Phase (.installRelLog false tail lbuf dbuf) := by
  constructor
  · exact fun hcleared => absurd hcleared (by simp [LogPc.cleared])
  · exact fun hrec => absurd hrec (by simp [LogPc.recovering])
  · intro _
    have hold : s.pins = s.log.lh.drop tail := h.pins rfl
    rw [hpins, hold, hlh, erase_drop_getD 0 hrange]
    rfl
  · rw [hlh, hops]
    exact h.logged
  · rw [hlh, hinstalled]
    exact h.installing
  · exact fun _ hcleared => absurd hcleared (by simp [LogPc.cleared])

theorem LogState.Phase.clear (h : s.Phase (.clear false)) (hnodup : s.log.lh.Nodup)
    (hlh : s'.log.lh = []) (hpins : s'.pins = s.pins) (hops : s'.ops = s.ops)
    (hinstalled : s'.installed = s.installed) : s'.Phase (.headRead .erase) := by
  have hold : s.installed = s.log.lh := by
    rw [h.installing rfl rfl]
    exact List.take_length
  constructor
  · exact fun _ => hlh
  · exact fun hrec => absurd hrec (by simp [LogPc.recovering])
  · intro _
    have hpinned : s.pins = s.log.lh.drop s.log.lh.length := h.pins rfl
    rw [hpins, hpinned, hlh, List.drop_length, List.drop_nil]
  · exact fun _ hcleared => absurd hcleared (by simp [LogPc.cleared])
  · exact fun _ hcleared => absurd hcleared (by simp [LogPc.cleared])
  · intro _ _
    rw [hinstalled, hops, hold]
    exact ⟨hnodup, h.logged rfl rfl⟩

theorem LogState.Phase.commit_done (h : s.Phase .commit)
    (hempty : s.log.lh = []) : s.Phase (.done false) := by
  constructor
  · exact fun _ => hempty
  · exact fun hrec => absurd hrec (by simp [LogPc.recovering])
  · exact h.pins
  · exact fun _ hcleared => absurd hcleared (by simp [LogPc.cleared])
  · exact fun _ hcleared => absurd hcleared (by simp [LogPc.cleared])
  · intro _ _
    have hinstalled : s.installed = [] := h.installing rfl rfl
    rw [hinstalled]
    refine ⟨List.nodup_nil, fun b => ?_⟩
    rw [← h.logged rfl rfl b, hempty]

theorem LogState.LoggerAt.exec
    (h : s.LoggerAt g p pc) (hcache : CacheInv s.bcache s.call s.refs s.pins)
    (hmode : s.mode p = .logging pc) (hcall : s.call p = .none)
    (hdone : ∀ r, pc ≠ .done r) (hnodup : pc.recovering = false → s.log.lh.Nodup) :
    ∃ pc', (s.exec g p pc).mode p = .logging pc' ∧ (s.exec g p pc).LoggerAt g p pc' := by
  have hrange := h.range
  have hlocked := h.locked
  rw [hcall] at hrange hlocked
  cases hwanted : pc.wanted g s.log.lh with
  | some b =>
    rw [exec_wanted hwanted]
    refine ⟨pc, ?_, h.bget hcache hcall hwanted⟩
    rcases s.bget_cases p b with ⟨_, heq⟩ | ⟨i, c, _, heq⟩
    · rw [heq]
      exact hmode
    · rw [heq]
      exact hmode
  | none =>
  cases hreleasing : pc.releasing with
  | some i =>
    rw [exec_releasing hreleasing]
    refine ⟨pc, ?_, h.releasesleep hcall hreleasing⟩
    rcases s.releasesleep_cases p i with ⟨_, heq⟩ | ⟨_, heq⟩
    · rw [heq]
      exact hmode
    · rw [heq]
      exact hmode
  | none =>
  cases pc with
  | commit =>
    simp only [LogState.exec]
    split
    · refine ⟨_, update_self _ _ _, ?_⟩
      exact h.of_goto hcall hcall rfl (fun _ => rfl) (fun _ => rfl)
        (Nat.zero_le _) (h.phase.congr rfl rfl rfl rfl rfl rfl rfl rfl)
    · rename_i hempty
      refine ⟨_, update_self _ _ _, ?_⟩
      have hlh : s.log.lh = [] := by
        apply List.eq_nil_of_length_eq_zero
        omega
      exact h.goto hcall rfl trivial (h.phase.commit_done hlh)
  | writeLogTest tail =>
    simp only [LogState.exec]
    split
    · rename_i hlt
      refine ⟨_, update_self _ _ _, ?_⟩
      exact h.goto hcall rfl hlt (h.phase.congr rfl rfl rfl rfl rfl rfl rfl rfl)
    · refine ⟨_, update_self _ _ _, ?_⟩
      exact h.goto hcall rfl trivial (h.phase.congr rfl rfl rfl rfl rfl rfl rfl rfl)
  | writeLogCopy tail dst src =>
    refine ⟨_, update_self _ _ _, ?_⟩
    exact h.setData_goto hcall dst _ rfl rfl rfl rfl hrange
      (h.phase.congr rfl rfl rfl rfl rfl rfl rfl rfl)
  | writeLogWrite tail dst src =>
    refine ⟨_, update_self _ _ _, ?_⟩
    exact h.bwrite_goto hcall dst rfl hrange (h.phase.congr rfl rfl rfl rfl rfl rfl rfl rfl)
  | headFill use buf =>
    refine ⟨_, update_self _ _ _, ?_⟩
    refine h.setData_goto hcall buf _ rfl rfl rfl rfl trivial ?_
    cases use with
    | _ => exact h.phase.congr rfl rfl rfl rfl rfl rfl rfl rfl
  | headWrite use buf =>
    cases use with
    | commit =>
      refine ⟨_, update_self _ _ _, ?_⟩
      refine h.change_goto hcall ?_ ?_ ?_ ?_ rfl trivial ?_
      · simp [LogState.buf]
      · simp [LogState.buf]
      · exact s.bwrite_call p buf
      · exact s.bwrite_log p buf
      · refine h.phase.congr ?_ ?_ ?_ ?_ rfl rfl rfl rfl <;> simp
    | erase | recover =>
      refine ⟨_, update_self _ _ _, ?_⟩
      exact h.bwrite_goto hcall buf rfl trivial (h.phase.congr rfl rfl rfl rfl rfl rfl rfl rfl)
  | installTest r tail =>
    simp only [LogState.exec]
    split
    · rename_i hlt
      refine ⟨_, update_self _ _ _, ?_⟩
      exact h.goto hcall rfl hlt (h.phase.congr rfl rfl rfl rfl rfl rfl rfl rfl)
    · rename_i hge
      have hend : s.log.lh.length = tail := le_antisymm (not_lt.mp hge) hrange
      refine ⟨_, update_self _ _ _, ?_⟩
      exact h.goto hcall rfl trivial (h.phase.congr rfl rfl rfl rfl rfl rfl hend hend)
  | installCopy r tail lbuf dbuf =>
    cases r with
    | true | false =>
      refine ⟨_, update_self _ _ _, ?_⟩
      exact h.setData_goto hcall dbuf _ rfl rfl rfl rfl hrange
        (h.phase.congr rfl rfl rfl rfl rfl rfl rfl rfl)
  | installWrite r tail lbuf dbuf =>
    cases r with
    | true =>
      refine ⟨_, update_self _ _ _, ?_⟩
      obtain ⟨hpins, hops⟩ := h.phase.recovering rfl
      exact h.bwrite_goto hcall dbuf rfl hrange
        (.of_recovering rfl (fun hc => absurd hc (by simp [LogPc.cleared])) hpins hops)
    | false =>
      obtain ⟨hlock, hblock⟩ := hlocked (dbuf, s.log.lh.getD tail 0)
        (by simp [LogPc.seen, LogPc.held])
      refine ⟨_, update_self _ _ _, ?_⟩
      refine h.change_goto hcall ?_ ?_ ?_ ?_ rfl hrange ?_
      · simp [LogState.buf]
      · simp [LogState.buf]
      · exact s.bwrite_call p dbuf
      · exact s.bwrite_log p dbuf
      · apply h.phase.installWrite hrange
        · simp
        · simp
        · simp
        · simpa [hlock] using hblock
  | installUnpin tail lbuf dbuf =>
    obtain ⟨hlock, hblock⟩ := hlocked (dbuf, s.log.lh.getD tail 0)
      (by simp [LogPc.seen, LogPc.held])
    refine ⟨_, update_self _ _ _, ?_⟩
    refine h.of_goto hcall hcall rfl (s.bcache.set_field (i := dbuf) Buf.lock rfl)
      (s.bcache.set_field (i := dbuf) Buf.blockno rfl) hrange ?_
    refine h.phase.installUnpin hrange rfl ?_ rfl rfl
    exact congrArg s.pins.erase hblock
  | clear r =>
    cases r with
    | true =>
      obtain ⟨hpins, hops⟩ := h.phase.recovering rfl
      refine ⟨_, update_self _ _ _, ?_⟩
      exact h.of_goto hcall hcall rfl (fun _ => rfl) (fun _ => rfl)
        trivial (.of_recovering rfl (fun _ => rfl) hpins hops)
    | false =>
      refine ⟨_, update_self _ _ _, ?_⟩
      exact h.of_goto hcall hcall rfl (fun _ => rfl) (fun _ => rfl)
        trivial (h.phase.clear (hnodup rfl) rfl rfl rfl rfl)
  | recoverHead buf =>
    obtain ⟨hpins, hops⟩ := h.phase.recovering rfl
    refine ⟨_, update_self _ _ _, ?_⟩
    exact h.of_goto hcall hcall rfl (fun _ => rfl) (fun _ => rfl)
      trivial (.of_recovering rfl (fun hc => absurd hc (by simp [LogPc.cleared])) hpins hops)
  | done r => exact absurd rfl (hdone r)
  | _ => contradiction

end

/-! ## Blocks of the operations -/

@[simp] theorem logged_nil (b : ℕ) : ¬Logged [] b := by
  simp [Logged]

theorem logged_append_new (ops : List Op) (p b : ℕ) :
    Logged (ops ++ [{ pid := p, live := true, blocks := [] }]) b ↔ Logged ops b := by
  simp [Logged, or_and_right, exists_or]

theorem Op.close_blocks (p : ℕ) (o : Op) : (o.close p).blocks = o.blocks := by
  unfold Op.close
  split <;> rfl

theorem logged_map_close (ops : List Op) (p b : ℕ) :
    Logged (ops.map (Op.close p)) b ↔ Logged ops b := by
  simp [Logged, Op.close_blocks]

theorem Op.mem_log_blocks (p b b' : ℕ) (o : Op) : b' ∈ (o.log p b).blocks ↔
      b' ∈ o.blocks ∨ b' = b ∧ o.pid = p ∧ o.live = true := by
  unfold Op.log
  split
  · rename_i hlive
    simp [hlive, or_comm]
  · rename_i hlive
    simp [hlive]

theorem logged_map_log {ops : List Op} {p : ℕ} (hlive : p ∈ livePids ops) (b b' : ℕ) :
    Logged (ops.map (Op.log p b)) b' ↔ Logged ops b' ∨ b' = b := by
  obtain ⟨o, hmem, hpid⟩ := List.mem_map.mp hlive
  obtain ⟨hmem, hlive⟩ := List.mem_filter.mp hmem
  constructor
  · rintro ⟨o', hmem', hb'⟩
    obtain ⟨o'', hmem'', rfl⟩ := List.mem_map.mp hmem'
    rcases (Op.mem_log_blocks p b b' o'').mp hb' with hb' | ⟨hb', _⟩
    · exact Or.inl ⟨o'', hmem'', hb'⟩
    · exact Or.inr hb'
  · rintro (⟨o', hmem', hb'⟩ | rfl)
    · exact ⟨_, List.mem_map_of_mem hmem', (Op.mem_log_blocks p b b' o').mpr (Or.inl hb')⟩
    · exact ⟨_, List.mem_map_of_mem hmem,
        (Op.mem_log_blocks p b' b' o).mpr (Or.inr ⟨rfl, hpid, hlive⟩)⟩

/-! ## Steps and the journal -/

section

variable {g : LogGeometry} {s s' : LogState}

theorem LogState.Journal.of_client (h : s.Journal g) (hmode : ∀ q pc, s'.mode q = .logging pc ↔
    s.mode q = .logging pc) (hbooted : s'.booted = s.booted) (hlog : s'.log = s.log)
    (hpins : s'.pins = s.pins) (hops : s'.ops = s.ops) (hinstalled : s'.installed = s.installed)
    (hkeeps : ∀ q pc, s.mode q = .logging pc → s.bcache.Keeps q s'.bcache ∧ s'.call q = s.call q) :
    s'.Journal g := by
  constructor
  · rw [hbooted, hlog]
    exact h.list
  · simp only [ne_eq, hmode, hpins, hlog, hops]
    exact h.idle
  · intro q pc hq
    have hq := (hmode q pc).mp hq
    obtain ⟨hbcache, hcall⟩ := hkeeps q pc hq
    refine (h.logger q pc hq).of_keeps hbcache hcall hlog ?_
    exact (h.logger q pc hq).phase.of_same (by rw [hlog]) hpins hops hinstalled

theorem LogState.Journal.of_logger
    {p : ℕ} {pc : LogPc} (hadmission : s'.Admission) (hmode : s'.mode p = .logging pc)
    (hat : s'.LoggerAt g p pc) (hlist : s'.booted = true → LogList g s'.log.lh) : s'.Journal g := by
  constructor
  · exact hlist
  · intro hnone
    exact absurd hmode (hnone p pc)
  · intro q pc' hq
    obtain rfl := hadmission.unique q p pc' pc hq hmode
    rw [hmode] at hq
    cases hq
    exact hat

theorem LogState.Journal.of_idle (hnone : ∀ p pc, s'.mode p ≠ .logging pc)
    (hlist : LogList g s'.log.lh) (hpins : s'.pins = s'.log.lh)
    (hlogged : ∀ b, b ∈ s'.log.lh ↔ Logged s'.ops b) : s'.Journal g := by
  constructor
  · exact fun _ => hlist
  · exact fun _ => ⟨hpins, hlogged⟩
  · intro p pc hp
    exact absurd hp (hnone p pc)

theorem LogList.nil (g : LogGeometry) : LogList g [] where
  nodup := List.nodup_nil
  home := by simp
  length := Nat.zero_le _
  space := Nat.zero_le _

theorem LogList.append {lh : List ℕ} (h : LogList g lh) {b : ℕ}
    (hnew : b ∉ lh) (hhome : ¬g.inLog b) (hlength : ¬logSize ≤ lh.length)
    (hspace : ¬g.nlog ≤ lh.length + 1) : LogList g (lh ++ [b]) := by
  constructor
  · refine List.Nodup.append h.nodup (List.nodup_singleton b) ?_
    simpa using hnew
  · intro b' hmem
    rcases List.mem_append.mp hmem with hmem | hmem
    · exact h.home b' hmem
    · rw [List.mem_singleton.mp hmem]
      exact hhome
  · simp only [List.length_append, List.length_singleton]
    omega
  · simp only [List.length_append, List.length_singleton]
    omega

end

end Xv6
