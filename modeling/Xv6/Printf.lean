import Mathlib

/-!
# Formatted output

The kernel and the user library have a `printf` each.  They read the format in
the same way and print integers through a `printint` with a buffer of 16 bytes,
but the kernel's takes a 64-bit argument and the library's a 32-bit one.  What
they should print is stated for the format as a sequence of items.
-/

namespace Xv6
namespace Printf

/-! ## Integers -/

/-- The loop that stores the digits of `x`, with the room left in `buf`; there
is no result if it stores past the end. -/
def digitLoop (digits : List Char) (base : ℕ) : ℕ → ℕ → Option (List Char)
  | 0, _ => none
  | room + 1, x =>
    let c := digits.getD (x % base) '?'
    if x / base ≠ 0 then
      (digitLoop digits base room (x / base)).map (c :: ·)
    else some [c]

/-- Both `printint`s: `buf` is filled from the last digit on and printed
backwards. -/
def printint {w : ℕ} (digits : List Char) (xx : BitVec w) (base : ℕ)
    (sign : Bool) : Option (List Char) :=
  let neg := sign && xx.slt 0
  let x := if neg then -xx else xx
  (digitLoop digits base 16 x.toNat).bind fun buf =>
    if neg then
      if buf.length < 16 then some ('-' :: buf.reverse) else none
    else some buf.reverse

/-- What an argument stands for. -/
def intValue {w : ℕ} (sign : Bool) (a : BitVec w) : ℤ := if sign then a.toInt else a.toNat

/-- The canonical numeral of `v`. -/
def numeral (digits : List Char) (base : ℕ) (v : ℤ) : List Char :=
  (if v < 0 then ['-'] else []) ++
    if v = 0 then ['0']
    else (Nat.digits base v.natAbs).reverse.map fun d => digits.getD d '?'

theorem digitLoop_eq (digits : List Char) {base : ℕ} (hb : 1 < base)
    (hzero : digits.getD 0 '?' = '0') {room x : ℕ} (hroom : 0 < room) (hx : x < base ^ room) :
    digitLoop digits base room x = some (if x = 0 then ['0']
        else (Nat.digits base x).map fun d => digits.getD d '?') := by
  induction room generalizing x with
  | zero => omega
  | succ room ih =>
    unfold digitLoop
    by_cases hdiv : x / base = 0
    · have hlt : x < base := by
        rcases Nat.div_eq_zero_iff.mp hdiv with h | h <;> omega
      by_cases hx : x = 0
      · simp [hx]
        exact hzero
      · simp [hdiv, hx, Nat.digits_of_lt base x hx hlt, Nat.mod_eq_of_lt hlt]
    · have hx0 : x ≠ 0 := by
        rintro rfl
        simp at hdiv
      have hroom : room ≠ 0 := by
        rintro rfl
        exact hdiv (Nat.div_eq_of_lt (by simpa using hx))
      have hlt : x / base < base ^ room := Nat.div_lt_of_lt_mul (by rwa [pow_succ'] at hx)
      rw [if_pos hdiv, ih (by omega) hlt, if_neg hdiv, if_neg hx0,
        Nat.digits_def' hb (Nat.pos_of_ne_zero hx0)]
      rfl

theorem slt_zero_iff {w : ℕ} (sign : Bool) (xx : BitVec w) :
    (sign && xx.slt 0) = decide (intValue sign xx < 0) := by
  cases sign <;> simp [intValue, BitVec.slt]

theorem toNat_eq_natAbs {w : ℕ} (sign : Bool) (xx : BitVec w) :
    (if intValue sign xx < 0 then -xx else xx).toNat = (intValue sign xx).natAbs := by
  have hlt := xx.isLt
  cases sign
  · simp [intValue, not_lt_of_ge]
  · have hneg := BitVec.toNat_neg xx
    simp only [intValue, if_true, BitVec.toInt_eq_toNat_cond]
    split_ifs
    · omega
    · omega
    · rw [hneg, Nat.mod_eq_of_lt (by omega)]
      omega
    · omega

theorem printint_eq (digits : List Char) {w base : ℕ}
    (hb : 1 < base) (hzero : digits.getD 0 '?' = '0') {xx : BitVec w} {sign : Bool} {v : ℤ}
    (hxx : intValue sign xx = v) (hv : v.natAbs < base ^ 16) (hneg : v < 0 → v.natAbs < base ^ 15) :
    printint digits xx base sign = some (numeral digits base v) := by
  have hx := toNat_eq_natAbs sign xx
  rw [hxx] at hx
  simp only [printint, slt_zero_iff, hxx, decide_eq_true_eq]
  rw [hx, digitLoop_eq digits hb hzero (by omega) hv]
  by_cases hv : v < 0
  · have hlen := (Nat.digits_length_le_iff hb _ (k := 15)).mpr (hneg hv)
    have h0 : v ≠ 0 := by omega
    simp [hv, h0, numeral, Nat.lt_succ_iff.mpr hlen]
  · by_cases h0 : v = 0 <;> simp [hv, h0, numeral]

/-! ## Formats -/

inductive Size
  | int
  | long
  | longLong
  deriving DecidableEq

inductive Letter
  | d
  | u
  | x
  deriving DecidableEq

def Letter.base : Letter → ℕ
  | d | u => 10
  | x => 16

def Letter.sign : Letter → Bool
  | d => true
  | u | x => false

/-- What `c0`, `c1` and `c2` select: the branch taken after a `%`. -/
inductive Directive
  | num (size : Size) (letter : Letter)
  | ptr
  | str
  | percent
  | unknown (c0 : Char)
  deriving DecidableEq

/-- The tests on the characters after a `%`, in the order of the source. -/
def directive : Char → Option Char → Option Char → Directive
  | 'd', _, _ => .num .int .d
  | 'l', some 'd', _ => .num .long .d
  | 'l', some 'l', some 'd' => .num .longLong .d
  | 'u', _, _ => .num .int .u
  | 'l', some 'u', _ => .num .long .u
  | 'l', some 'l', some 'u' => .num .longLong .u
  | 'x', _, _ => .num .int .x
  | 'l', some 'x', _ => .num .long .x
  | 'l', some 'l', some 'x' => .num .longLong .x
  | 'p', _, _ => .ptr
  | 's', _, _ => .str
  | '%', _, _ => .percent
  | c0, _, _ => .unknown c0

namespace Directive

/-- By how much a branch advances `i`. -/
def skip : Directive → ℕ
  | num .long _ => 1
  | num .longLong _ => 2
  | _ => 0

/-- The calls of `va_arg`. -/
def args : Directive → ℕ
  | num _ _ | ptr | str => 1
  | percent | unknown _ => 0

end Directive

/-- The loop of `printptr`. -/
def ptrLoop (digits : List Char) : ℕ → BitVec 64 → List Char
  | 0, _ => []
  | n + 1, x => digits.getD (x >>> 60).toNat '?' :: ptrLoop digits n (x <<< 4)

def printptr (digits : List Char) (x : BitVec 64) : List Char := '0' :: 'x' :: ptrLoop digits 16 x

/-- What the branch of a directive prints; a string is read from memory. -/
def Directive.print (digits : List Char) (num : Size → Letter → BitVec 64 → Option (List Char))
    (mem : BitVec 64 → List Char) (arg : BitVec 64) :
    Directive → Option (List Char)
  | .num size letter => num size letter arg
  | .ptr => some (printptr digits arg)
  | .str => some (if arg = 0 then "(null)".toList else mem arg)
  | .percent => some ['%']
  | .unknown c0 => some ['%', c0]

namespace Kernel

def digits : List Char := "0123456789abcdef".toList

/-- An `int` argument is extended to the `long long` of `printint`. -/
def num (size : Size) (letter : Letter) (arg : BitVec 64) : Option (List Char) :=
  let xx := match size with
    | .int => (arg.setWidth 32).signExtend 64
    | .long | .longLong => arg
  printint digits xx letter.base letter.sign

/-- The loop of the kernel's `printf`: the format from `i` on, the characters
of it that `i` has passed already, and the next slot of `ap`. -/
def printf (mem : BitVec 64 → List Char) (ap : ℕ → BitVec 64) :
    List Char → ℕ → ℕ → Option (List Char)
  | [], _, _ => some []
  | _ :: fmt, skip + 1, k => printf mem ap fmt skip k
  | cx :: fmt, 0, k =>
    if cx ≠ '%' then (printf mem ap fmt 0 k).map (cx :: ·)
    else
      match fmt[0]? with
      | none => some []
      | some c0 =>
        let dir := directive c0 fmt[1]? fmt[2]?
        (dir.print digits num mem (ap k)).bind fun out =>
          (printf mem ap fmt (1 + dir.skip) (k + dir.args)).map (out ++ ·)

end Kernel

namespace User

def digits : List Char := "0123456789ABCDEF".toList

/-- Every argument is passed as the `int` of `printint`. -/
def num (_size : Size) (letter : Letter) (arg : BitVec 64) : Option (List Char) :=
  printint digits (arg.setWidth 32) letter.base letter.sign

/-- The loop of `vprintf`, with `state` telling whether a `%` came before. -/
def vprintf (mem : BitVec 64 → List Char) (ap : ℕ → BitVec 64) :
    List Char → ℕ → Bool → ℕ → Option (List Char)
  | [], _, _, _ => some []
  | _ :: fmt, skip + 1, state, k => vprintf mem ap fmt skip state k
  | c0 :: fmt, 0, false, k =>
    if c0 = '%' then vprintf mem ap fmt 0 true k
    else (vprintf mem ap fmt 0 false k).map (c0 :: ·)
  | c0 :: fmt, 0, true, k =>
    let dir := directive c0 fmt[0]? fmt[1]?
    (dir.print digits num mem (ap k)).bind fun out =>
      (vprintf mem ap fmt dir.skip false (k + dir.args)).map (out ++ ·)

/-- The loop of `atoi`; `int` arithmetic wraps around. -/
def atoiLoop (n : BitVec 32) : List Char → BitVec 32
  | [] => n
  | c :: s =>
    if '0' ≤ c ∧ c ≤ '9' then
      atoiLoop (n * 10 + BitVec.ofNat 32 c.toNat - BitVec.ofNat 32 '0'.toNat) s
    else n

def atoi (s : List Char) : BitVec 32 := atoiLoop 0 s

end User

/-! ## What a format asks for -/

/-- The value of an argument at its own width and signedness. -/
def argValue (size : Size) (letter : Letter) (arg : BitVec 64) : ℤ :=
  match size with
  | .int => intValue letter.sign (arg.setWidth 32)
  | .long | .longLong => intValue letter.sign arg

def Letter.char : Letter → Char
  | d => 'd'
  | u => 'u'
  | x => 'x'

def Directive.text : Directive → List Char
  | num .int letter => [letter.char]
  | num .long letter => ['l', letter.char]
  | num .longLong letter => ['l', 'l', letter.char]
  | ptr => ['p']
  | str => ['s']
  | percent => ['%']
  | unknown c => [c]

/-- The arguments for which the kernel's buffer and widths suffice. -/
def Kernel.Fits (size : Size) (letter : Letter) (arg : BitVec 64) : Prop :=
  match size, letter with
  | .int, .d | .long, .x | .longLong, .x => True
  | .int, _ => argValue size letter arg < 2 ^ 31
  | _, _ => -10 ^ 15 < argValue size letter arg ∧ argValue size letter arg < 10 ^ 16

theorem Kernel.num_eq {size : Size} {letter : Letter}
    {arg : BitVec 64} (h : Kernel.Fits size letter arg) : Kernel.num size letter arg = some
    (numeral Kernel.digits letter.base (argValue size letter arg)) := by
  have hlt := arg.isLt
  have hbase : 1 < letter.base := by cases letter <;> decide
  apply printint_eq Kernel.digits hbase rfl
  · cases size <;> cases letter
    case int.d => exact BitVec.toInt_signExtend_of_le (by omega)
    case int.u | int.x =>
      simp [Fits, argValue, intValue, Letter.sign] at h ⊢
      rw [BitVec.signExtend_eq_setWidth_of_msb_false]
      · simp
        omega
      · rw [BitVec.msb_eq_false_iff_two_mul_lt]
        simp
        omega
    all_goals rfl
  all_goals
    cases size <;> cases letter <;>
      simp [Fits, argValue, intValue, Letter.sign, Letter.base,
        BitVec.toInt_eq_toNat_cond] at h ⊢ <;> omega

/-- The arguments that the library's `printint` receives whole. -/
def User.Fits (size : Size) (letter : Letter) (arg : BitVec 64) : Prop :=
  match size, letter with
  | .int, _ => True
  | _, .d => -2 ^ 31 ≤ argValue size letter arg ∧ argValue size letter arg < 2 ^ 31
  | _, _ => argValue size letter arg < 2 ^ 32

theorem User.num_eq {size : Size} {letter : Letter}
    {arg : BitVec 64} (h : User.Fits size letter arg) : User.num size letter arg = some
    (numeral User.digits letter.base (argValue size letter arg)) := by
  have hlt := arg.isLt
  have hbase : 1 < letter.base := by cases letter <;> decide
  apply printint_eq User.digits hbase rfl
  all_goals
    cases size <;> cases letter <;>
      simp [Fits, argValue, intValue, Letter.sign, Letter.base,
        BitVec.toInt_eq_toNat_cond] at h ⊢ <;> omega

/-! ## Whole formats -/

/-- A known directive is one that the tests name. -/
def Directive.Known : Directive → Prop
  | .unknown _ => False
  | _ => True

/-- What a format asks for from the argument `k` on: the arguments it converts
and its output.  A `%` that ends the format prints nothing, and one that no
known directive follows is echoed with the next character. -/
inductive Formats (mem : BitVec 64 → List Char) (ap : ℕ → BitVec 64) :
    List Char → ℕ → List (Size × Letter × BitVec 64) → List Char → Prop
  | nil (k) : Formats mem ap [] k [] []
  | lone (k) : Formats mem ap ['%'] k [] []
  | char {c fmt k as out} (hc : c ≠ '%') (h : Formats mem ap fmt k as out) :
    Formats mem ap (c :: fmt) k as (c :: out)
  | num (size letter) {fmt k as out} (h : Formats mem ap fmt (k + 1) as out) :
    Formats mem ap ('%' :: (Directive.num size letter).text ++ fmt) k
      ((size, letter, ap k) :: as)
      (numeral User.digits letter.base (argValue size letter (ap k)) ++ out)
  | ptr {fmt k as out} (h : Formats mem ap fmt (k + 1) as out) :
    Formats mem ap ('%' :: 'p' :: fmt) k as
      (printptr User.digits (ap k) ++ out)
  | str {fmt k as out} (h : Formats mem ap fmt (k + 1) as out) :
    Formats mem ap ('%' :: 's' :: fmt) k as
      ((if ap k = 0 then "(null)".toList else mem (ap k)) ++ out)
  | percent {fmt k as out} (h : Formats mem ap fmt k as out) :
    Formats mem ap ('%' :: '%' :: fmt) k as ('%' :: out)
  | unknown {c fmt k as out}
    (hc : ∀ dir : Directive, dir.Known → ¬ dir.text <+: c :: fmt)
    (h : Formats mem ap fmt k as out) :
    Formats mem ap ('%' :: c :: fmt) k as ('%' :: c :: out)

theorem directive_of_text {dir : Directive} (hd : dir.Known) {c0 : Char}
    {fmt : List Char} (h : dir.text <+: c0 :: fmt) : directive c0 fmt[0]? fmt[1]? = dir := by
  obtain ⟨rest, hrest⟩ := h
  match dir, hd with
  | .num size letter, _ =>
    cases size <;> cases letter <;>
      (obtain ⟨rfl, rfl⟩ := List.cons.inj hrest; rfl)
  | .ptr, _ | .str, _ | .percent, _ =>
    obtain ⟨rfl, rfl⟩ := List.cons.inj hrest
    rfl

theorem directive_text (c0 : Char) (fmt : List Char) : (directive c0 fmt[0]? fmt[1]?).text ++
      fmt.drop (directive c0 fmt[0]? fmt[1]?).skip = c0 :: fmt := by
  generalize hc1 : fmt[0]? = c1
  generalize hc2 : fmt[1]? = c2
  fun_cases directive c0 c1 c2 <;>
    first
      | rfl
      | (rcases fmt with _ | ⟨_, _ | ⟨_, _⟩⟩ <;>
          simp_all [Directive.text, Directive.skip, Letter.char])

/-- Every format string asks for something. -/
theorem exists_formats (mem : BitVec 64 → List Char) (ap : ℕ → BitVec 64)
    (fmt : List Char) (k : ℕ) : ∃ as out, Formats mem ap fmt k as out := by
  match fmt with
  | [] => exact ⟨_, _, .nil k⟩
  | c :: fmt =>
    by_cases hc : c = '%'
    · subst hc
      match fmt with
      | [] => exact ⟨_, _, .lone k⟩
      | c0 :: fmt =>
        have htext := directive_text c0 fmt
        have hknown {dir : Directive} (hd : dir.Known)
            (h : dir.text <+: c0 :: fmt) := directive_of_text hd h
        generalize directive c0 fmt[0]? fmt[1]? = dir at htext hknown
        obtain ⟨as, out, h⟩ := exists_formats mem ap (fmt.drop dir.skip) (k + dir.args)
        rw [← htext]
        cases dir with
        | num size letter => exact ⟨_, _, .num size letter h⟩
        | ptr => exact ⟨_, _, .ptr h⟩
        | str => exact ⟨_, _, .str h⟩
        | percent => exact ⟨_, _, .percent h⟩
        | unknown c =>
          obtain ⟨rfl, -⟩ := List.cons.inj htext
          refine ⟨_, _, .unknown (fun dir hd hpre => ?_) h⟩
          rw [← hknown hd hpre] at hd
          exact hd
    · obtain ⟨as, out, h⟩ := exists_formats mem ap fmt k
      exact ⟨_, _, .char hc h⟩
termination_by fmt.length

namespace User

variable {mem : BitVec 64 → List Char} {ap : ℕ → BitVec 64} {k : ℕ}

theorem directive_unknown {c : Char} {fmt : List Char} (hc : ∀ dir : Directive, dir.Known →
    ¬ dir.text <+: c :: fmt) : directive c fmt[0]? fmt[1]? = .unknown c := by
  have htext := directive_text c fmt
  cases hdir : directive c fmt[0]? fmt[1]? with
  | unknown c' =>
    rw [hdir] at htext
    exact congrArg _ (List.cons.inj htext).1
  | _ =>
    rw [hdir] at htext
    refine (hc _ ?_ ⟨_, htext⟩).elim
    trivial

theorem vprintf_eq {fmt out : List Char} {as : List (Size × Letter × BitVec 64)}
    (h : Formats mem ap fmt k as out) (hfits : ∀ a ∈ as, Fits a.1 a.2.1 a.2.2) :
    vprintf mem ap fmt 0 false k = some out := by
  induction h with
  | nil | lone => rfl
  | char hc _ ih => simp [vprintf, hc, ih hfits]
  | num size letter _ ih =>
    have hnum := num_eq (hfits _ List.mem_cons_self)
    have ih := ih fun a ha => hfits a (List.mem_cons_of_mem _ ha)
    cases size <;> cases letter <;>
      simp [vprintf, Directive.text, Letter.char, directive, Directive.skip,
        Directive.print, Directive.args, hnum, ih]
  | ptr _ ih | str _ ih | percent _ ih =>
    simp [vprintf, directive, Directive.skip, Directive.print, Directive.args, ih hfits]
  | unknown hc _ ih =>
    simp [vprintf, directive_unknown hc, Directive.skip, Directive.print, Directive.args, ih hfits]

theorem toNat_digit {d : ℕ} (h : d < 10) :
    ∃ c, digits.getD d '?' = c ∧ '0' ≤ c ∧ c ≤ '9' ∧ c.toNat = 48 + d := by
  interval_cases d <;> exact ⟨_, rfl, by decide⟩

theorem atoiLoop_digits (ds : List ℕ) (h : ∀ d ∈ ds, d < 10) (n : ℕ) : atoiLoop (BitVec.ofNat 32 n)
    (ds.map fun d => digits.getD d '?') = BitVec.ofNat 32 (ds.foldl (fun n d => d + 10 * n) n) := by
  induction ds generalizing n with
  | nil => rfl
  | cons d ds ih =>
    obtain ⟨c, hc, hlo, hhi, hval⟩ := toNat_digit (h d List.mem_cons_self)
    simp only [List.map_cons, List.foldl_cons, hc, atoiLoop]
    rw [if_pos ⟨hlo, hhi⟩, ← ih (fun d hd => h d (List.mem_cons_of_mem _ hd)), hval]
    congr 1
    apply BitVec.eq_of_toNat_eq
    simp
    omega

/-- `atoi` reads back what `%d` prints. -/
theorem atoi_numeral {v : BitVec 32} (h : 0 ≤ v.toInt) : atoi (numeral digits 10 v.toInt) = v := by
  have hv := v.isLt
  by_cases h0 : v.toInt = 0
  · obtain rfl : v = 0 := BitVec.toInt_inj.mp (by simpa using h0)
    decide
  · have hnat : v.toInt.natAbs = v.toNat := by
      rw [BitVec.toInt_eq_toNat_cond] at h ⊢
      omega
    have hdigits := Nat.ofDigits_digits 10 v.toNat
    rw [Nat.ofDigits_eq_foldr] at hdigits
    rw [numeral, if_neg (not_lt.mpr h), if_neg h0, atoi, List.nil_append,
      hnat, show (0 : BitVec 32) = BitVec.ofNat 32 0 from rfl, atoiLoop_digits, List.foldl_reverse]
    · exact (congrArg _ hdigits).trans (BitVec.ofNat_toNat ..)
    · intro d hd
      exact Nat.digits_lt_base (by omega) (List.mem_reverse.mp hd)

end User

end Printf
end Xv6
