import Xv6.MemorySafety
import Xv6.UserBytes

/-!
# The arguments of a program

`exec` puts the argument strings and the array of pointers to them on the new
stack.  The layout is described with integers, from the end of memory down;
what `exec` computes with 64-bit numbers is the same, and it fails if the
arguments would not fit.
-/

namespace Xv6

/-! ## The layout -/

/-- The aligned address of `n` bytes below `sp`. -/
def below (sp n : ℤ) : ℤ := (sp - n) / 16 * 16

def argAddrs : ℤ → List (List UInt8) → List ℤ
  | _, [] => []
  | sp, s :: argv =>
    below sp (s.length + 1) :: argAddrs (below sp (s.length + 1)) argv

def argsEnd : ℤ → List (List UInt8) → ℤ
  | sp, [] => sp
  | sp, s :: argv => argsEnd (below sp (s.length + 1)) argv

def argvAddr (sp : ℤ) (argv : List (List UInt8)) : ℤ :=
  below (argsEnd sp argv) ((argv.length + 1) * 8)

def ArgsFit (argv : List (List UInt8)) : Prop := -(userstack * pgsize : ℕ) ≤ argvAddr 0 argv

theorem below_add (sp n : ℤ) {c : ℤ} (hc : c % 16 = 0) : below (c + sp) n = c + below sp n := by
  unfold below
  omega

theorem argsEnd_add (sp : ℤ) (argv : List (List UInt8)) {c : ℤ}
    (hc : c % 16 = 0) : argsEnd (c + sp) argv = c + argsEnd sp argv := by
  induction argv generalizing sp with
  | nil => rfl
  | cons s argv ih => rw [argsEnd, argsEnd, below_add _ _ hc, ih]

theorem argvAddr_eq (argv : List (List UInt8)) {sz : ℤ} (hsz : sz % 16 = 0) :
    argvAddr sz argv = sz + argvAddr 0 argv := by
  have hend := argsEnd_add 0 argv hsz
  rw [Int.add_zero] at hend
  rw [argvAddr, argvAddr, hend, below_add _ _ hsz]

theorem pushSp_eq {sp n : ℕ} (hn : n ≤ sp) (hsp : sp < 2 ^ 64) :
    (pushSp sp n : ℤ) = below sp n := by
  simp only [pushSp, below]
  omega

theorem below_bounds (sp n : ℤ) : below sp n % 16 = 0 ∧ below sp n + n ≤ sp := by
  unfold below
  omega

theorem argsEnd_le (sp : ℤ) (argv : List (List UInt8)) : argsEnd sp argv ≤ sp := by
  induction argv generalizing sp with
  | nil => exact le_refl _
  | cons s argv ih =>
    have hbelow := (below_bounds sp (s.length + 1)).2
    have hrest := ih (below sp (s.length + 1))
    rw [argsEnd]
    omega

variable {argv : List (List UInt8)}

theorem argAddrs_apart {sp : ℤ} {addrs : List ℕ}
    (h : addrs.map (Nat.cast : ℕ → ℤ) = argAddrs sp argv) : (∀ a ∈ addrs, a % 16 = 0) ∧
    (∀ x ∈ addrs.zip argv, argsEnd sp argv ≤ x.1 ∧ x.1 + (x.2.length + 1) ≤ sp) ∧
    (addrs.zip argv).Pairwise fun x y => y.1 + (y.2.length + 1) ≤ x.1 := by
  induction argv generalizing sp addrs with
  | nil => simp_all [argAddrs]
  | cons s argv ih =>
    cases addrs with
    | nil => cases h
    | cons a addrs =>
      rw [List.map_cons, argAddrs, List.cons.injEq] at h
      obtain ⟨ha, hrest⟩ := h
      rw [← ha] at hrest
      obtain ⟨haligned, hbetween, hapart⟩ := ih hrest
      have hbelow := below_bounds sp (s.length + 1)
      rw [← ha] at hbelow
      have hend := argsEnd_le a argv
      rw [argsEnd, ← ha, List.zip_cons_cons]
      refine ⟨?_, ?_, ?_⟩
      · intro b hb
        rcases List.mem_cons.mp hb with rfl | hb
        · omega
        · exact haligned b hb
      · intro x hx
        rcases List.mem_cons.mp hx with rfl | hx
        · exact ⟨hend, hbelow.2⟩
        · have hx := hbetween x hx
          omega
      · refine List.pairwise_cons.mpr ⟨fun x hx => ?_, hapart⟩
        have hx := hbetween x hx
        dsimp only
        omega

/-! ## What the program finds -/

def PhysMem.HasString (m : PhysMem) (pt a : ℕ) (s : List UInt8) : Prop :=
  ∀ k ≤ s.length, m.userByte pt (a + k) = some (s.getD k 0)

def PhysMem.HasWord (m : PhysMem) (pt a w : ℕ) : Prop :=
  ∀ k < 8, m.userByte pt (a + k) = some (UInt8.ofNat (w / 256 ^ k))

section

variable {m m' : PhysMem} {pt : ℕ} {T ptes : List ℕ} {hi : ℕ → Option ℕ}

/-- The strings have been pushed below `sp`, down to `sp'`. -/
structure PhysMem.Strings (m : PhysMem) (pt npages : ℕ)
    (argv : List (List UInt8)) (sp : ℕ) (addrs : List ℕ) (sp' : ℕ)
    (m' : PhysMem) : Prop where
  addrs_eq : addrs.map (Nat.cast : ℕ → ℤ) = argAddrs sp argv
  end_eq : (sp' : ℤ) = argsEnd sp argv
  strings : List.Forall₂ (m'.HasString pt) addrs argv
  same : ∀ va, sp ≤ va → va / pgsize < npages → m'.userByte pt va = m.userByte pt va

variable {argv : List (List UInt8)}

theorem PhysMem.Shape.pushArgs_strings
    (h : m.Shape pt T ptes hi) (hhi : Supervisor hi) (hown : m.Owns (mapped ptes ++ T))
    {stackbase sp sp' : ℕ} {ustack ustack' : List ℕ} (hbase : pgsize ≤ stackbase)
    (hsp : stackbase ≤ sp) (htop : sp ≤ ptes.length * pgsize) (hlen : ∀ s ∈ argv, s.length < pgsize)
    (hcall : Xv6.pushArgs pt stackbase argv sp ustack m = .ok (some (sp', ustack'), m')) :
    ∃ addrs, ustack' = ustack ++ addrs ∧
    stackbase ≤ sp' ∧ m.Strings pt ptes.length argv sp addrs sp' m' := by
  induction argv generalizing m sp ustack with
  | nil =>
    cases hcall
    exact ⟨[], (List.append_nil _).symm, hsp, rfl, rfl, .nil, fun _ _ _ => rfl⟩
  | cons s argv ih =>
    have hs := hlen s List.mem_cons_self
    have hbound := h.bound
    have hlt : sp < 2 ^ 64 := by
      simp only [trapframeVa, trampolineVa, maxva, pgsize] at *
      omega
    have hpush : (pushSp sp (s.length + 1) : ℤ) =
        below sp (s.length + 1) := pushSp_eq (by omega) hlt
    rw [Xv6.pushArgs] at hcall
    by_cases hmany : ustack.length ≥ maxarg
    · rw [if_pos hmany] at hcall
      cases hcall
    rw [if_neg hmany] at hcall
    dsimp only at hcall
    generalize pushSp sp (s.length + 1) = sp1 at hcall hpush
    by_cases hlow : sp1 < stackbase
    · rw [if_pos hlow] at hcall
      cases hcall
    rw [if_neg hlow] at hcall
    obtain ⟨r, m1, hcopy, hext⟩ := h.copyout hhi hown sp1 (fun k => s.getD k 0) (s.length + 1)
    rw [hcopy, ok_bind] at hcall
    cases r with
    | false => cases hcall
    | true =>
      have hwrote := h.copyout_bytes hhi hown hcopy
      have hbelow := below_bounds sp (s.length + 1)
      rw [← hpush] at hbelow
      obtain ⟨addrs, rfl, hsp', hrest⟩ :=
          ih (h.congr (hown.words_eq hext)) (hown.of_extends (hext.append T))
          (not_lt.mp hlow) (by omega) (fun s' hs' => hlen s' (List.mem_cons_of_mem s hs')) hcall
      refine ⟨sp1 :: addrs, by simp, hsp', ?_, ?_, .cons ?_ hrest.strings, ?_⟩
      · rw [List.map_cons, argAddrs, hrest.addrs_eq, hpush]
      · rw [hrest.end_eq, argsEnd, hpush]
      · intro k hk
        have hva : (sp1 + k) / pgsize < ptes.length :=
          (Nat.div_lt_iff_lt_mul pgsize_pos).mpr (by omega)
        rw [hrest.same _ (by omega) hva, hwrote _ hva, if_pos (by omega), Nat.add_sub_cancel_left]
      · intro va hle hva
        rw [hrest.same va (by omega) hva, hwrote va hva, if_neg (by omega)]

/-- The arguments of a program on its stack. -/
structure PhysMem.ArgsOnStack (m : PhysMem) (pt sz sp : ℕ)
    (argv : List (List UInt8)) (addrs : List ℕ) : Prop where
  sp_eq : (sp : ℤ) = argvAddr sz argv
  addrs_eq : addrs.map (Nat.cast : ℕ → ℤ) = argAddrs sz argv
  aligned : sp % 16 = 0 ∧ ∀ a ∈ addrs, a % 16 = 0
  above : sz - userstack * pgsize ≤ sp ∧ sp + 8 * (argv.length + 1) ≤ sz
  within : ∀ x ∈ addrs.zip argv, sp + 8 * (argv.length + 1) ≤ x.1 ∧ x.1 + (x.2.length + 1) ≤ sz
  apart : (addrs.zip argv).Pairwise fun x y =>
    y.1 + (y.2.length + 1) ≤ x.1
  pointers : ∀ i a, addrs[i]? = some a → m.HasWord pt (sp + 8 * i) a
  null : m.HasWord pt (sp + 8 * argv.length) 0
  strings : List.Forall₂ (m.HasString pt) addrs argv

theorem ustackByte_eq (ustack : List ℕ) {i k : ℕ} (hk : k < 8) : ustackByte ustack (8 * i + k) =
      UInt8.ofNat (ustack.getD i 0 / 256 ^ k) := by
  have hdiv : (8 * i + k) / 8 = i := by omega
  have hmod : (8 * i + k) % 8 = k := by omega
  rw [ustackByte, hdiv, hmod]

theorem PhysMem.Space.pushStack_args {trampoline trapframe n sz sp : ℕ}
    (h : m.Space trampoline trapframe pt sz T ptes)
    (hown : m.Owns (mapped ptes ++ T)) (hsz : sz = (n + 2) * pgsize)
    (hmany : argv.length < maxarg) (hlen : ∀ s ∈ argv, s.length < pgsize)
    (hcall : Xv6.pushStack pt sz argv m = .ok (some sp, m')) :
    ∃ addrs, m'.ArgsOnStack pt sz sp argv addrs := by
  have htop : sz ≤ ptes.length * pgsize := h.takes.1
  have hbase : pgsize ≤ sz - userstack * pgsize := by
    simp only [hsz, userstack, pgsize]
    omega
  have hlt : sz < 2 ^ 64 := by
    have hbound := h.shape.bound
    simp only [trapframeVa, trampolineVa, maxva, pgsize] at *
    omega
  have hhi : Supervisor (procHi trampoline trapframe) := procHi_supervisor
  obtain ⟨r, m1, hpush, hext⟩ := h.shape.pushArgs hhi hown (sz - userstack * pgsize) argv sz []
  rw [Xv6.pushStack, hpush, ok_bind] at hcall
  cases r with
  | none => cases hcall
  | some x =>
    obtain ⟨sp1, ustack⟩ := x
    obtain ⟨addrs, haddrs, hsp1, hstrings⟩ := h.shape.pushArgs_strings hhi
      hown hbase (Nat.sub_le _ _) htop hlen hpush
    rw [List.nil_append] at haddrs
    subst haddrs
    have hlength : ustack.length = argv.length := hstrings.strings.length_eq
    dsimp only at hcall
    rw [hlength] at hcall
    have hend := argsEnd_le sz argv
    rw [← hstrings.end_eq] at hend
    unfold maxarg at hmany
    have hroom : (argv.length + 1) * 8 ≤ sp1 := by
      have hpage : 33 * 8 ≤ pgsize := by decide
      omega
    have hpush2 := pushSp_eq hroom (by omega)
    push_cast at hpush2
    have hbelow := below_bounds sp1 ((argv.length + 1) * 8)
    rw [← hpush2] at hbelow
    generalize pushSp sp1 ((argv.length + 1) * 8) = sp2
      at hcall hpush2 hbelow
    by_cases hlow : sp2 < sz - userstack * pgsize
    · rw [if_pos hlow] at hcall
      cases hcall
    rw [if_neg hlow] at hcall
    have hown1 := hown.of_extends (hext.append T)
    have hshape1 := h.shape.congr (hown.words_eq hext)
    obtain ⟨r, m2, hcopy, -⟩ := hshape1.copyout hhi hown1 sp2
      (ustackByte ustack) ((argv.length + 1) * 8)
    rw [hcopy, ok_bind] at hcall
    cases r with
    | false => cases hcall
    | true =>
      cases hcall
      have hwrote := hshape1.copyout_bytes hhi hown1 hcopy
      obtain ⟨haligned, hbetween, hapart⟩ := argAddrs_apart hstrings.addrs_eq
      have hword : ∀ i ≤ argv.length, m2.HasWord pt (sp + 8 * i) (ustack.getD i 0) := by
        intro i hi k hk
        have hva : (sp + 8 * i + k) / pgsize < ptes.length :=
          (Nat.div_lt_iff_lt_mul pgsize_pos).mpr (by omega)
        have hindex : sp + 8 * i + k - sp = 8 * i + k := by omega
        rw [hwrote _ hva, if_pos (by omega), hindex, ustackByte_eq _ hk]
      refine ⟨ustack, ?_, hstrings.addrs_eq, ⟨by omega, haligned⟩,
        ⟨not_lt.mp hlow, by omega⟩, ?_, hapart, ?_, ?_, ?_⟩
      · rw [hpush2, argvAddr, hstrings.end_eq]
      · intro x hx
        have hx := hbetween x hx
        rw [← hstrings.end_eq] at hx
        omega
      · intro i a ha
        obtain ⟨hi, rfl⟩ := List.getElem?_eq_some_iff.mp ha
        have hword := hword i (by omega)
        rwa [List.getD_eq_getElem?_getD, ha] at hword
      · have hword := hword argv.length (le_refl _)
        rwa [List.getD_eq_getElem?_getD, List.getElem?_eq_none (by omega)] at hword
      · obtain ⟨-, hall⟩ := List.forall₂_iff_zip.mp hstrings.strings
        refine List.forall₂_iff_zip.mpr ⟨hlength, fun {a s} hx k hk => ?_⟩
        have hx' := hbetween _ hx
        rw [← hstrings.end_eq] at hx'
        dsimp only at hx'
        have hva : (a + k) / pgsize < ptes.length :=
          (Nat.div_lt_iff_lt_mul pgsize_pos).mpr (by omega)
        rw [hwrote _ hva, if_neg (by omega)]
        exact hall hx k hk

theorem PhysMem.ArgsOnStack.congr {sz sp : ℕ} {addrs : List ℕ}
    (h : m.ArgsOnStack pt sz sp argv addrs)
    (hbytes : ∀ va < sz, m'.userByte pt va = m.userByte pt va) :
    m'.ArgsOnStack pt sz sp argv addrs := by
  obtain ⟨hlength, hstrings⟩ := List.forall₂_iff_zip.mp h.strings
  have habove := h.above.2
  refine ⟨h.sp_eq, h.addrs_eq, h.aligned, h.above, h.within, h.apart, ?_, ?_, ?_⟩
  · intro i a ha k hk
    obtain ⟨hi, -⟩ := List.getElem?_eq_some_iff.mp ha
    rw [hbytes _ (by omega)]
    exact h.pointers i a ha k hk
  · intro k hk
    rw [hbytes _ (by omega)]
    exact h.null k hk
  · refine List.forall₂_iff_zip.mpr ⟨hlength, fun {a s} hx k hk => ?_⟩
    have hx' := h.within _ hx
    dsimp only at hx'
    rw [hbytes _ (by omega)]
    exact hstrings hx k hk

theorem PhysMem.Pushed.args
    {trampoline trapframe sz sp : ℕ} (h : m.Pushed trampoline trapframe pt sz sp T ptes argv)
    (hspace : m.Space trampoline trapframe pt sz T ptes) (hown : m.Owns (mapped ptes ++ T))
    (hmany : argv.length < maxarg) (hlen : ∀ s ∈ argv, s.length < pgsize) :
    sz % pgsize = 0 ∧ ∃ addrs, m.ArgsOnStack pt sz sp argv addrs := by
  obtain ⟨n, m0, m1, hsz, hspace0, hown0, hpush, hwords⟩ := h
  obtain ⟨addrs, hargs⟩ := hspace0.pushStack_args hown0 hsz hmany hlen hpush
  obtain ⟨r, m2, hpush2, hext⟩ := hspace0.shape.pushStack procHi_supervisor hown0 sz argv
  rw [hpush] at hpush2
  cases hpush2
  have hown1 := hown0.of_extends (hext.append T)
  have hshape1 := hspace0.shape.congr (hown0.words_eq hext)
  refine ⟨by rw [hsz]; exact Nat.mul_mod_left _ _, addrs, hargs.congr fun va hva => ?_⟩
  have hj : va / pgsize < ptes.length :=
    (Nat.div_lt_iff_lt_mul pgsize_pos).mpr (lt_of_lt_of_le hva hspace.takes.1)
  refine hshape1.userByte_congr hown1 hspace.shape hown hj hj ?_
  exact hwords _ (List.mem_append_left _ (List.mem_map_of_mem (List.getElem_mem hj)))

end

theorem Fetched.length_lt {args : List UserArg} (h : Fetched args argv) :
    ∀ s ∈ argv, s.length < pgsize := by
  intro s hs
  obtain ⟨i, hi, rfl⟩ := List.getElem_of_mem hs
  obtain ⟨hlength, hall⟩ := List.forall₂_iff_get.mp h.2
  obtain ⟨hlt, -⟩ := hall i (by omega) hi
  exact hlt

theorem Fetched.unique {args : List UserArg} {argv' : List (List UInt8)}
    (h : Fetched args argv) (h' : Fetched args argv') : argv = argv' := by
  refine List.ext_getElem ?_ ?_
  · rw [← h.2.length_eq, h'.2.length_eq]
  · intro i hi hi'
    have hargs : i < args.length := by
      rw [h.2.length_eq]
      exact hi
    obtain ⟨_, heq⟩ := (List.forall₂_iff_get.mp h.2).2 i hargs hi
    obtain ⟨_, heq'⟩ := (List.forall₂_iff_get.mp h'.2).2 i hargs hi'
    rw [heq] at heq'
    exact (UserArg.str.inj heq')

namespace MemSystem

variable {s s₀ : MemSystem} {k nboot : ℕ} {trampoline : UInt64} {labels : List MemLabel}

/-- A program that has been started finds its arguments where `a1` and `sp`
say; `exec` returns -1 if they do not fit on the stack. -/
theorem exec_arguments (hboot : memBoot k nboot trampoline = some s₀)
    (hrun : Machine.run MemSystem.step labels s₀ = some s)
    {p : Fin nproc} {pm : ProcMem} (hp : s.procs p = some pm)
    (hrunning : s.zombie p = false) (path : Option (List UInt8))
    (ip : Option ExecInode) {args : List UserArg} {argv : List (List UInt8)}
    (hargs : Fetched args argv) :
    ∃ r s', s.exec p path ip args = some (.ok (r, s')) ∧
      (∀ argc, r = some argc → argc = argv.length ∧ ∃ pm' sp addrs, s'.procs p = some pm' ∧
          s'.mem.words pm'.trapframe trapframeA1 = sp ∧
          s'.mem.words pm'.trapframe trapframeSp = sp ∧
          s'.mem.ArgsOnStack pm'.pagetable pm'.sz sp argv addrs) ∧
      (¬ArgsFit argv → r = none) := by
  obtain ⟨T, ptes, h⟩ := inv_of_run hboot hrun
  obtain ⟨x, hexec⟩ : ∃ x, s.exec p path ip args = some x := by
    unfold MemSystem.exec
    rw [hp, hrunning]
    exact ⟨_, rfl⟩
  obtain ⟨pm', hp', ⟨m, rfl, hext⟩ |
    ⟨argv', pm₁, m, T₁, ptes₁, rfl, -, -, hspace, hext, -, hfetched,
      sp, hpushed, ha1, hsp⟩⟩ := h.exec hexec
  · refine ⟨none, _, hexec, ?_, fun _ => rfl⟩
    rintro argc ⟨⟩
  · obtain rfl := hargs.unique hfetched
    have hown₁ : m.Owns (mapped ptes₁ ++ T₁) := ((h.ownsBut p).left.of_extends hext).of_sublist
        (List.sublist_cons_self _ _)
    obtain ⟨hsz, addrs, hstack⟩ := hpushed.args hspace hown₁ hargs.1 hargs.length_lt
    refine ⟨some argv.length, _, hexec, ?_, ?_⟩
    · rintro argc ⟨⟩
      exact ⟨rfl, pm₁, sp, addrs, Function.update_self _ _ _, ha1, hsp, hstack⟩
    · intro hfit
      exfalso
      apply hfit
      have habove := hstack.above.1
      have heq := hstack.sp_eq
      rw [argvAddr_eq argv (by
        unfold pgsize at hsz
        omega)] at heq
      unfold ArgsFit
      omega

def emptyProgram : ExecInode where
  readi off n :=
    (([0x7F, 0x45, 0x4C, 0x46] ++ List.replicate 60 (0 : UInt8)).drop off).take n
  length_le := by simp

def oneArg : List UserArg := [.str [97] (by decide)]

theorem sysExec_ne_none {trampoline : ℕ} {path : List UInt8} {pages : List ℕ}
    {args : List UserArg} {argv : List (List UInt8)} {ip : ExecInode}
    {p p' : ProcMem} {m m1 m2 m' : PhysMem} {image : ℕ × ℕ × ℕ}
    (hfetch : fetchArgs args [] [] m = (pages, some argv, m1))
    (hlen : (ip.readi 0 sizeofElfhdr).length = sizeofElfhdr)
    (hmagic : (Elfhdr.ofBytes (ip.readi 0 sizeofElfhdr)).magic = elfMagic)
    (himage : execImage trampoline p.trapframe ip
      (Elfhdr.ofBytes (ip.readi 0 sizeofElfhdr)) argv m1 = .ok (some image, m2)) :
    sysExec trampoline (some path) (some ip) args p m ≠
      .ok (none, p', m') := by
  intro hcall
  obtain ⟨pt, sz, sp⟩ := image
  rw [sysExec, hfetch] at hcall
  dsimp only at hcall
  rw [Xv6.exec] at hcall
  dsimp only at hcall
  rw [if_neg (not_not.mpr hlen), if_neg (not_not.mpr hmagic), himage, ok_bind] at hcall
  dsimp only at hcall
  generalize ((m2.setWord p.trapframe trapframeA1 sp).setWord p.trapframe
    trapframeEpc _).setWord p.trapframe trapframeSp sp = m3 at hcall
  cases hfree : procFreepagetable p.pagetable p.sz m3 with
  | error e =>
    rw [hfree] at hcall
    cases hcall
  | ok m4 =>
    rw [hfree, ok_bind, ok_bind] at hcall
    dsimp only at hcall
    cases hpages : kfreeAll pages m4 with
    | error e =>
      rw [hpages] at hcall
      cases hcall
    | ok m5 =>
      rw [hpages, ok_bind] at hcall
      cases hcall

/-- The first process is not a zombie, and its image of the empty program can
be built. -/
def execsEmpty (s : MemSystem) : Bool := (s.procs 0).any fun pm => s.zombie 0 == false &&
    match fetchArgs oneArg [] [] s.mem with
    | (_, some argv, m) =>
      match execImage s.trampoline pm.trapframe emptyProgram
        (Elfhdr.ofBytes (emptyProgram.readi 0 sizeofElfhdr)) argv m with
      | .ok (some _, _) => true
      | _ => false
    | _ => false

theorem exec_arguments_one : ∃ s s' pm sp addrs,
      memBoot (128 * 1024 * 1024 - 20 * pgsize) 1 0x80007000 = some s ∧
      s.exec 0 (some [97]) (some emptyProgram) oneArg = some (.ok (some 1, s')) ∧
      s'.procs 0 = some pm ∧
      s'.mem.ArgsOnStack pm.pagetable pm.sz sp [[97]] addrs := by
  have hany : (memBoot (128 * 1024 * 1024 - 20 * pgsize) 1 0x80007000).any
      execsEmpty := by decide +kernel
  obtain ⟨s, hboot, hs⟩ := (Option.any_eq_true _ _).mp hany
  obtain ⟨pm, hp, hs⟩ := (Option.any_eq_true _ _).mp hs
  rw [Bool.and_eq_true, beq_iff_eq] at hs
  obtain ⟨hzombie, hs⟩ := hs
  have hargs : Fetched oneArg [[97]] := ⟨by decide, .cons ⟨by decide, rfl⟩ .nil⟩
  obtain ⟨r, s', hexec, hstarted, -⟩ := exec_arguments hboot
    (show Machine.run MemSystem.step [] s = some s from rfl) hp hzombie
    (some [97]) (some emptyProgram) hargs
  cases r with
  | none =>
    exfalso
    split at hs
    · rename_i pages argv m₁ hfetch
      split at hs
      · rename_i image m₂ himage
        unfold MemSystem.exec at hexec
        rw [hp, hzombie] at hexec
        dsimp only at hexec
        cases hcall : sysExec s.trampoline (some [97]) (some emptyProgram)
          oneArg pm s.mem with
        | error e =>
          rw [hcall] at hexec
          cases hexec
        | ok x =>
          obtain ⟨argc, p', m'⟩ := x
          rw [hcall, ok_bind] at hexec
          cases hexec
          exact sysExec_ne_none hfetch (by decide +kernel) (by decide +kernel) himage hcall
      · cases hs
    · cases hs
  | some argc =>
    obtain ⟨rfl, pm', sp, addrs, hp', -, -, hstack⟩ := hstarted argc rfl
    exact ⟨s, s', pm', sp, addrs, hboot, hexec, hp', hstack⟩

end MemSystem

end Xv6
