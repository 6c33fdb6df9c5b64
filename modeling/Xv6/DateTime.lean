import Mathlib

/-!
# Dates of the datetime system call

`timestamp_to_date` walks years and months with two subtractive loops and
`adjust_timezone` moves the result by whole hours.  Both are compared with the
count of seconds since 1970-01-01, which is injective on the dates of the
Gregorian calendar.
-/

namespace Xv6
namespace DateTime

structure Rtcdate where
  second : ℕ
  minute : ℕ
  hour : ℕ
  day : ℕ
  month : ℕ
  year : ℕ
deriving DecidableEq

def isLeapYear (year : ℕ) : Bool := (year % 4 == 0 && year % 100 != 0) || year % 400 == 0

def daysInMonth : List ℕ := [31, 28, 31, 30, 31, 30, 31, 31, 30, 31, 30, 31]

def daysThisYear (year : ℕ) : ℕ := if isLeapYear year then 366 else 365

/-- Both functions look a month's length up by its index and replace it for
February of a leap year. -/
def daysThisMonth (year month : ℕ) : ℕ :=
  if month = 1 ∧ isLeapYear year then 29 else daysInMonth.getD month 0

theorem le_daysThisYear (year : ℕ) : 365 ≤ daysThisYear year := by
  unfold daysThisYear
  split <;> omega

/-- The loop over the years: what is left of `days`, and the year. -/
def yearLoop (days year : ℕ) : ℕ × ℕ := if days < daysThisYear year then (days, year)
  else yearLoop (days - daysThisYear year) (year + 1)
termination_by days
decreasing_by
  have := le_daysThisYear year
  omega

/-- The loop over the months: what is left of `days`, and the month's index. -/
def monthLoop (year days month : ℕ) : ℕ × ℕ := if month < 12 then
    if days < daysThisMonth year month then (days, month)
    else monthLoop year (days - daysThisMonth year month) (month + 1)
  else (days, month)
termination_by 12 - month

def timestampToDate (timestamp : ℕ) : Rtcdate := let second := timestamp % 60
  let minutes := timestamp / 60
  let minute := minutes % 60
  let hours := minutes / 60
  let hour := hours % 24
  let (days, year) := yearLoop (hours / 24) 1970
  let (days, month) := monthLoop year days 0
  { second, minute, hour, day := days + 1, month := month + 1, year }

/-- The fields are unsigned; the decrements below act on a day and a month
that are at least one. -/
def adjustTimezone (r : Rtcdate) (hoursOffset : ℤ) : Rtcdate :=
  let newHour : ℤ := r.hour + hoursOffset
  if newHour < 0 then
    let r := { r with hour := (newHour + 24).toNat, day := r.day - 1 }
    if r.day < 1 then
      let r := { r with month := r.month - 1 }
      let r := if r.month < 1 then
        { r with month := 12, year := r.year - 1 } else r
      { r with day := daysThisMonth r.year (r.month - 1) }
    else r
  else if newHour ≥ 24 then
    let r := { r with hour := (newHour - 24).toNat, day := r.day + 1 }
    if r.day > daysThisMonth r.year (r.month - 1) then
      let r := { r with day := 1, month := r.month + 1 }
      if r.month > 12 then { r with month := 1, year := r.year + 1 } else r
    else r
  else { r with hour := newHour.toNat }

/-! ## The calendar -/

/-- Month lengths of the Gregorian calendar, January being 1. -/
def monthLength (year month : ℕ) : ℕ := if month = 2 then
    if 4 ∣ year ∧ (100 ∣ year → 400 ∣ year) then 29 else 28
  else if month = 4 ∨ month = 6 ∨ month = 9 ∨ month = 11 then 30 else 31

/-- Days of `year` before the first of `month`. -/
def yearDays (year month : ℕ) : ℕ := ∑ m ∈ Finset.Ico 1 month, monthLength year m

/-- Days from 1970-01-01 to the first of January of `year`. -/
def epochDays (year : ℕ) : ℕ := ∑ y ∈ Finset.Ico 1970 year, yearDays y 13

namespace Rtcdate

def dayNumber (r : Rtcdate) : ℕ := epochDays r.year + yearDays r.year r.month + (r.day - 1)

def seconds (r : Rtcdate) : ℕ := ((r.dayNumber * 24 + r.hour) * 60 + r.minute) * 60 + r.second

structure Valid (r : Rtcdate) : Prop where
  second : r.second < 60
  minute : r.minute < 60
  hour : r.hour < 24
  month : 1 ≤ r.month ∧ r.month ≤ 12
  day : 1 ≤ r.day ∧ r.day ≤ monthLength r.year r.month
  year : 1970 ≤ r.year

/-- The fields from the year down, compared as a dictionary does. -/
def key (r : Rtcdate) : ℕ ×ₗ ℕ ×ₗ ℕ ×ₗ ℕ ×ₗ ℕ ×ₗ ℕ :=
  toLex (r.year, toLex (r.month, toLex (r.day, toLex (r.hour, toLex (r.minute, r.second)))))

end Rtcdate

theorem isLeapYear_iff (year : ℕ) : isLeapYear year ↔ 4 ∣ year ∧ (100 ∣ year → 400 ∣ year) := by
  simp only [isLeapYear, Bool.or_eq_true, Bool.and_eq_true, beq_iff_eq, bne_iff_ne]
  omega

theorem daysThisMonth_eq (year : ℕ) {month : ℕ} (h : month < 12) :
    daysThisMonth year month = monthLength year (month + 1) := by
  have hleap := isLeapYear_iff year
  interval_cases month <;>
    simp [daysThisMonth, monthLength, daysInMonth, hleap]

theorem yearDays_succ (year month : ℕ) (h : 1 ≤ month) :
    yearDays year (month + 1) = yearDays year month + monthLength year month :=
  Finset.sum_Ico_succ_top h _

theorem epochDays_succ (year : ℕ) (h : 1970 ≤ year) :
    epochDays (year + 1) = epochDays year + yearDays year 13 :=
  Finset.sum_Ico_succ_top h _

theorem yearDays_mono (year : ℕ) : Monotone (yearDays year) := fun _ _ h =>
  Finset.sum_le_sum_of_subset (Finset.Ico_subset_Ico_right h)

theorem epochDays_mono : Monotone epochDays := fun _ _ h =>
  Finset.sum_le_sum_of_subset (Finset.Ico_subset_Ico_right h)

theorem daysThisYear_eq (year : ℕ) : daysThisYear year = yearDays year 13 := by
  have hleap := isLeapYear_iff year
  simp [yearDays, Finset.sum_Ico_succ_top, monthLength, daysThisYear, hleap]
  split <;> rfl

theorem yearLoop_spec (days year : ℕ) (h : 1970 ≤ year) : 1970 ≤ (yearLoop days year).2 ∧
    (yearLoop days year).2 ≤ year + days ∧ (yearLoop days year).1 < yearDays (yearLoop days year).2
    13 ∧ epochDays (yearLoop days year).2 + (yearLoop days year).1 = epochDays year + days := by
  fun_induction yearLoop days year with
  | case1 days year hlt =>
    rw [daysThisYear_eq] at hlt
    exact ⟨h, by omega, hlt, rfl⟩
  | case2 days year hle ih =>
    have hpos := le_daysThisYear year
    obtain ⟨h1, h2, h3, h4⟩ := ih (by omega)
    rw [epochDays_succ year h, ← daysThisYear_eq] at h4
    exact ⟨h1, by omega, h3, by omega⟩

theorem monthLoop_spec (year days month : ℕ) (hm : month < 12)
    (h : yearDays year (month + 1) + days < yearDays year 13) : (monthLoop year days month).2 < 12 ∧
    (monthLoop year days month).1 < monthLength year ((monthLoop year days month).2 + 1) ∧
    yearDays year ((monthLoop year days month).2 + 1) +
    (monthLoop year days month).1 = yearDays year (month + 1) + days := by
  fun_induction monthLoop year days month with
  | case1 days month _ hlt =>
    rw [daysThisMonth_eq year hm] at hlt
    exact ⟨hm, hlt, rfl⟩
  | case2 days month _ hle ih =>
    rw [daysThisMonth_eq year hm] at hle ih ⊢
    have hsucc := yearDays_succ year (month + 1) (by omega)
    have hm' : month + 1 < 12 := by
      by_contra hge
      have hlast : month + 1 + 1 = 13 := by omega
      rw [hlast] at hsucc
      omega
    obtain ⟨h1, h2, h3⟩ := ih hm' (by omega)
    exact ⟨h1, h2, by omega⟩
  | case3 days month hge => exact absurd hm hge

theorem timestampToDate_spec (t : ℕ) : (timestampToDate t).Valid ∧ (timestampToDate t).seconds = t ∧
      (timestampToDate t).year ≤ 1970 + t / 60 / 60 / 24 := by
  obtain ⟨h1, h2, h3, h4⟩ := yearLoop_spec (t / 60 / 60 / 24) 1970 le_rfl
  have hfirst : epochDays 1970 = 0 := by simp [epochDays]
  have hzero (y : ℕ) : yearDays y (0 + 1) = 0 := by simp [yearDays]
  obtain ⟨h5, h6, h7⟩ := monthLoop_spec _ _ 0 (by omega) ((hzero _).symm ▸
    (zero_add (yearLoop (t / 60 / 60 / 24) 1970).1).symm ▸ h3)
  rw [hzero] at h7
  refine ⟨⟨Nat.mod_lt _ (by omega), Nat.mod_lt _ (by omega),
    Nat.mod_lt _ (by omega), ?_, ?_, h1⟩, ?_, ?_⟩ <;>
    simp only [timestampToDate, Rtcdate.seconds, Rtcdate.dayNumber] <;> omega

namespace Rtcdate

variable {r r' : Rtcdate}

theorem Valid.dayNumber_lt (h : r.Valid) :
    r.dayNumber < epochDays r.year + yearDays r.year (r.month + 1) := by
  have := yearDays_succ r.year r.month h.month.1
  have := h.day
  unfold dayNumber
  omega

theorem Valid.seconds_lt (h : r.Valid) (h' : r'.Valid) (hlt : r.key < r'.key) :
    r.seconds < r'.seconds := by
  have hday := h.dayNumber_lt
  obtain ⟨hs, hm, hh, hmonths, hd, hy⟩ := h
  have hd' := h'.day
  -- a later day outweighs the time of day
  have hlater (hn : r.dayNumber < r'.dayNumber) : r.seconds < r'.seconds := by
    unfold seconds
    omega
  simp only [key, Prod.Lex.toLex_lt_toLex] at hlt
  rcases hlt with hyear | ⟨hyear, hmonth | ⟨hmonth, hlt⟩⟩
  · apply hlater
    have h1 := yearDays_mono r.year (show r.month + 1 ≤ 13 by omega)
    have h2 := epochDays_succ r.year hy
    have h3 := epochDays_mono hyear
    simp only [dayNumber, Nat.succ_eq_add_one] at hday h3 ⊢
    omega
  · apply hlater
    have h1 := yearDays_mono r.year hmonth
    simp only [dayNumber, Nat.succ_eq_add_one, ← hyear] at hday h1 ⊢
    omega
  · rcases hlt with hday | ⟨hday, hlt⟩
    · apply hlater
      simp only [dayNumber, ← hyear, ← hmonth]
      omega
    · simp only [seconds, dayNumber, ← hyear, ← hmonth, ← hday]
      omega

theorem key_injective : Function.Injective key := by
  rintro ⟨⟩ ⟨⟩ h
  simp only [key, toLex_inj, Prod.mk.injEq] at h
  simp [h]

/-- Seconds since the epoch determine a date of the calendar. -/
theorem Valid.eq_of_seconds (h : r.Valid) (h' : r'.Valid)
    (heq : r.seconds = r'.seconds) : r = r' := by
  apply key_injective
  apply le_antisymm
  · exact not_lt.mp fun hlt => heq.not_gt (h'.seconds_lt h hlt)
  · exact not_lt.mp fun hlt => heq.not_lt (h.seconds_lt h' hlt)

theorem Valid.key_lt (h : r.Valid) (h' : r'.Valid)
    (hlt : r.seconds < r'.seconds) : r.key < r'.key := by
  by_contra hge
  rcases (not_lt.mp hge).lt_or_eq with hkey | hkey
  · exact hlt.not_gt (h'.seconds_lt h hkey)
  · exact hlt.ne' (congrArg seconds (key_injective hkey))

end Rtcdate

/-- The conversion of a timestamp is the Gregorian calendar. -/
theorem timestampToDate_gregorian :
    (∀ t : UInt64, (timestampToDate t.toNat).Valid ∧ (timestampToDate t.toNat).seconds = t.toNat ∧
      (timestampToDate t.toNat).year < 2 ^ 64) ∧
    Function.Injective (fun t : UInt64 => timestampToDate t.toNat) ∧
    ∀ t t' : UInt64, t < t' ↔ (timestampToDate t.toNat).key < (timestampToDate t'.toNat).key := by
  have hspec (t : ℕ) := timestampToDate_spec t
  refine ⟨fun t => ⟨(hspec _).1, (hspec _).2.1, ?_⟩, fun t t' h => ?_,
    fun t t' => ⟨fun h => ?_, fun h => ?_⟩⟩
  · have := t.toNat_lt
    have := (hspec t.toNat).2.2
    omega
  · apply UInt64.toNat_inj.mp
    have := congrArg Rtcdate.seconds h
    rwa [(hspec _).2.1, (hspec _).2.1] at this
  · apply (hspec _).1.key_lt (hspec _).1
    rwa [(hspec _).2.1, (hspec _).2.1]
  · have := (hspec _).1.seconds_lt (hspec _).1 h
    rwa [(hspec _).2.1, (hspec _).2.1] at this

theorem daysThisMonth_pred (year month : ℕ) (h : 1 ≤ month ∧ month ≤ 12) :
    daysThisMonth year (month - 1) = monthLength year month := by
  rw [daysThisMonth_eq year (by omega), Nat.sub_add_cancel h.1]

theorem one_le_monthLength (year month : ℕ) : 1 ≤ monthLength year month := by
  unfold monthLength
  split_ifs <;> omega

theorem Rtcdate.seconds_of_hours {r r' : Rtcdate} {h : ℤ}
    (hs : r'.second = r.second) (hm : r'.minute = r.minute)
    (hh : (r'.dayNumber * 24 + r'.hour : ℤ) = r.dayNumber * 24 + r.hour + h) :
    (r'.seconds : ℤ) = r.seconds + 3600 * h := by
  unfold seconds
  omega

/-- Moving the hour moves the date by the same seconds. -/
theorem adjustTimezone_spec {r : Rtcdate} {h : ℤ} (hr : r.Valid)
    (hlo : -24 ≤ h) (hhi : h ≤ 24) (hpos : 0 ≤ r.seconds + 3600 * h) :
    (adjustTimezone r h).Valid ∧ ((adjustTimezone r h).seconds : ℤ) = r.seconds + 3600 * h := by
  obtain ⟨hs, hm, hh, hmonth, hday, hyear⟩ := hr
  have hfirst (y : ℕ) : yearDays y 1 = 0 := by simp [yearDays]
  have hlast (y : ℕ) : yearDays y 13 = yearDays y 12 + monthLength y 12 :=
    yearDays_succ y 12 (by omega)
  have hlen := daysThisMonth_pred r.year r.month hmonth
  have hdec (y : ℕ) := daysThisMonth_pred y 12
  have hback := daysThisMonth_pred r.year (r.month - 1)
  have hprev := yearDays_succ r.year (r.month - 1)
  have hnext := yearDays_succ r.year r.month hmonth.1
  have hyears := epochDays_succ (r.year - 1)
  have hyears' := epochDays_succ r.year hyear
  -- the day before the first of January 1970 is ruled out by `hpos`
  have hepoch : r.hour + h < 0 → r.day = 1 → r.month = 1 → 1970 < r.year := by
    intro hneg hd hm
    by_contra hge
    have hy : r.year = 1970 := by omega
    simp only [Rtcdate.seconds, Rtcdate.dayNumber, hy, hm, hd, hfirst,
      epochDays, Finset.Ico_self, Finset.sum_empty] at hpos
    omega
  simp only [adjustTimezone]
  split_ifs with h1 h2 h3 h4 h5 h6
  all_goals
    refine ⟨⟨hs, hm, ?_, ?_, ?_, ?_⟩, Rtcdate.seconds_of_hours rfl rfl ?_⟩ <;>
      grind [Rtcdate.dayNumber, one_le_monthLength]

/-- Adjusting a converted time is converting the adjusted time. -/
theorem adjustTimezone_timestampToDate (t : UInt64) (h : ℤ) (hlo : -24 ≤ h)
    (hhi : h ≤ 24) (hpos : 0 ≤ t.toNat + 3600 * h)
    (hlt : t.toNat + 3600 * h < 2 ^ 64) :
    adjustTimezone (timestampToDate t.toNat) h = timestampToDate (t.toNat + 3600 * h).toNat := by
  obtain ⟨hvalid, hsec, -⟩ := timestampToDate_spec t.toNat
  obtain ⟨hvalid', hsec', -⟩ := timestampToDate_spec (t.toNat + 3600 * h).toNat
  obtain ⟨hadj, heq⟩ := adjustTimezone_spec hvalid hlo hhi (by rwa [hsec])
  apply hadj.eq_of_seconds hvalid'
  omega

theorem adjustTimezone_leap_february :
    adjustTimezone (timestampToDate 951868799) 2 = timestampToDate 951875999 :=
  adjustTimezone_timestampToDate 951868799 2 (by decide) (by decide)
    (by decide) (by decide)

end DateTime
end Xv6
