import Nsdci.Lib.IsoWeek
import Nsdci.Lib.Word

/-!
# Weeks (`time.c`)

`GetWeekCmd` gives the week of a date, and `Week2GregorianCmd` the date of a week. Both know the
weekday of the first of January from the years of the century and the centuries. Division is the one
of C, towards zero.
-/

namespace Nsdci.Week

open Lib

/-- `isLeap`. -/
def isLeap (y : Int) : Bool := (y.tmod 4 = 0 && y.tmod 100 ≠ 0) || y.tmod 400 = 0

/-- `isLeap(year - 1)`. The macro has no parentheses around its argument: `%` takes the `1`. -/
def isLeapLast (year : Int) : Bool :=
  (year - Int.tmod 1 4 = 0 && year - Int.tmod 1 100 ≠ 0) || year - Int.tmod 1 400 = 0

/-- The weekday of the first of January. -/
def jan1WkDay (year : Int) : Int :=
  let yy := (year - 1).tmod 100
  let c := year - 1 - yy
  let g := yy + yy.tdiv 4
  1 + (((c.tdiv 100).tmod 4) * 5 + g).tmod 7

/-- `Month` of `GetWeekCmd`: the days before each month. -/
def monthStarts : List Int := [0, 31, 59, 90, 120, 151, 181, 212, 243, 273, 304, 334]

/-- `GetWeekCmd`. -/
def getWeekCmd (year month day : Int) : Int :=
  let leapYr := isLeap year
  let lastYrLeap := isLeapLast year
  let dayOfYr := day + monthStarts.getD (month - 1).toNat 0
  let dayOfYr := if leapYr && 2 < month then dayOfYr + 1 else dayOfYr
  let jan1WkDay := jan1WkDay year
  let wkDay := 1 + (dayOfYr + (jan1WkDay - 1) - 1).tmod 7
  let wkNum :=
    if dayOfYr ≤ 8 - jan1WkDay && 4 < jan1WkDay then
      if jan1WkDay = 5 || (jan1WkDay = 6 && lastYrLeap) then 53 else 52
    else 1
  -- what was said about the days before the first week is not kept
  let (yrNum, wkNum) :=
    if (if leapYr then 366 else 365) - dayOfYr < 4 - wkDay then (year + 1, 1) else (year, wkNum)
  if yrNum = year then
    let wkNum := (dayOfYr + (7 - wkDay) + (jan1WkDay - 1)).tdiv 7
    if 4 < jan1WkDay && !(leapYr && jan1WkDay = 7) then wkNum - 1 else wkNum
  else wkNum

/-- `Month` of `Week2GregorianCmd`: the days of each month. -/
def monthDays (leap : Bool) : List Int :=
  [31, if leap then 29 else 28, 31, 30, 31, 30, 31, 31, 30, 31, 30, 31]

/-- The loop that sums up the months: the number of months and the days of them, when it does not
leave the table. -/
def monthLoop (dayOfYr : Int) : List Int → Nat → Int → Option (Nat × Int)
  | [], i, H => if H < dayOfYr then none else some (i, H)
  | days :: months, i, H =>
      if H < dayOfYr then monthLoop dayOfYr months (i + 1) (H + days) else some (i, H)

/-- `Week2GregorianCmd`, when it does not read outside the table of the months. -/
def week2GregorianCmd (year week weekday : Int) : Option (Int × Int × Int) :=
  let jan1WkDay := jan1WkDay year
  if week = 1 ∧ jan1WkDay < 5 ∧ weekday < jan1WkDay then
    some (year - 1, 12, 32 - (jan1WkDay - weekday))
  else
    let dayOfYr := (week - 1) * 7 +
      if jan1WkDay < 5 then weekday - (jan1WkDay - 1) else weekday + (8 - jan1WkDay)
    let yearDays := if isLeap year then 366 else 365
    if yearDays < dayOfYr then some (year + 1, 1, dayOfYr - yearDays)
    else
      (monthLoop dayOfYr (monthDays (isLeap year)) 0 0).bind fun (i, H) =>
        match i with
        | 0 => none
        | i + 1 => (monthDays (isLeap year))[i]?.map fun days =>
            (year, (i : Int) + 1, dayOfYr - (H - days))

/-! ## Years -/

theorem isLeap_iff {year : Int} (h : 0 ≤ year) : isLeap year = true ↔ Leap year := by
  unfold isLeap Leap
  simp only [Int.tmod_eq_emod_of_nonneg h, Bool.or_eq_true, Bool.and_eq_true, decide_eq_true_eq]
  omega

/-- **The weekday of the first of January is the one of the day behind the years before.** -/
theorem jan1WkDay_eq {year : Int} (h : 1 ≤ year) :
    jan1WkDay year = daysBeforeYear year % 7 + 1 := by
  unfold jan1WkDay daysBeforeYear
  dsimp only
  have hyy : (year - 1).tmod 100 = (year - 1) % 100 := Int.tmod_eq_emod_of_nonneg (by omega)
  have hc : (year - 1 - (year - 1) % 100).tdiv 100 = (year - 1) / 100 := by
    rw [Int.tdiv_eq_ediv_of_nonneg (by omega)]
    omega
  have hq : ((year - 1) % 100).tdiv 4 = (year - 1) % 100 / 4 :=
    Int.tdiv_eq_ediv_of_nonneg (by omega)
  rw [hyy, hc, hq, Int.tmod_eq_emod_of_nonneg (show 0 ≤ (year - 1) / 100 by omega),
    Int.tmod_eq_emod_of_nonneg (by omega)]
  clear hyy hc hq
  -- the leap years by centuries
  have hfour : (year - 1) / 4 = 25 * ((year - 1) / 100) + (year - 1) % 100 / 4 := by omega
  have hcentury : (year - 1) / 400 = (year - 1) / 100 / 4 := by omega
  have hsplit : year - 1 = 100 * ((year - 1) / 100) + (year - 1) % 100 := by omega
  rw [hfour, hcentury]
  generalize (year - 1) / 100 = q at *
  generalize (year - 1) % 100 = r at *
  omega

/-- The days before a month, as `GetWeekCmd` counts them. -/
theorem ordinal_eq (d : Date) :
    d.ordinal = d.day + monthStarts.getD (d.month - 1).toNat 0 +
      if Leap d.year ∧ 2 < d.month then 1 else 0 := by
  have hmonth := d.month_range
  have hstarts : ∀ m < 12, [0, 31, 59, 90, 120, 151, 181, 212, 243, 273, 304, 334, 365].getD m 0 =
      monthStarts.getD m 0 := by decide
  have hleap : (2 ≤ (d.month - 1).toNat ∧ Leap d.year) ↔ (Leap d.year ∧ 2 < d.month) := by
    rw [and_comm]
    exact and_congr_right fun _ => by omega
  unfold Date.ordinal
  rw [daysBefore_eq d.year (by omega), hstarts _ (by omega), if_congr hleap rfl rfl]
  ring

/-- The weekday of a date, and its Thursday, from the first of January. -/
theorem isoWeekday_eq (d : Date) :
    d.isoWeekday = 1 + (d.ordinal + (jan1WkDay d.year - 1) - 1) % 7 := by
  rw [jan1WkDay_eq d.year_pos]
  unfold Date.isoWeekday Date.number
  omega

/-! ## The week of a date -/

/-- The week that `GetWeekCmd` gives. -/
theorem getWeekCmd_eq (d : Date) :
    getWeekCmd d.year d.month d.day =
      if daysInYear d.year - d.ordinal < 4 - d.isoWeekday then 1
      else (d.ordinal + (7 - d.isoWeekday) + (jan1WkDay d.year - 1)) / 7 -
        if 4 < jan1WkDay d.year ∧ ¬ (Leap d.year ∧ jan1WkDay d.year = 7) then 1 else 0 := by
  have hleap := isLeap_iff (show 0 ≤ d.year by have := d.year_pos; omega)
  have hordinal := d.ordinal_range
  have hjan1 : 1 ≤ jan1WkDay d.year ∧ jan1WkDay d.year ≤ 7 := by
    rw [jan1WkDay_eq d.year_pos]
    omega
  have hday : (if (isLeap d.year && decide (2 < d.month)) = true
      then d.day + monthStarts.getD (d.month - 1).toNat 0 + 1
      else d.day + monthStarts.getD (d.month - 1).toNat 0) = d.ordinal := by
    rw [ordinal_eq]
    simp only [Bool.and_eq_true, hleap, decide_eq_true_eq]
    split_ifs <;> omega
  have hwk : 1 + (d.ordinal + (jan1WkDay d.year - 1) - 1).tmod 7 = d.isoWeekday := by
    rw [isoWeekday_eq, Int.tmod_eq_emod_of_nonneg (by omega)]
  have hdays : (if isLeap d.year = true then 366 else 365) = daysInYear d.year := by
    simp only [hleap, daysInYear]
  have hrange := d.isoWeekday_range
  unfold getWeekCmd
  dsimp only
  rw [hday, hwk, hdays]
  by_cases hend : daysInYear d.year - d.ordinal < 4 - d.isoWeekday
  · rw [if_pos hend, if_pos hend, if_neg (show ¬ d.year + 1 = d.year by omega)]
  · have hlate : (decide (4 < jan1WkDay d.year) &&
        !(isLeap d.year && decide (jan1WkDay d.year = 7))) = true ↔
          4 < jan1WkDay d.year ∧ ¬ (Leap d.year ∧ jan1WkDay d.year = 7) := by
      simp only [Bool.and_eq_true, Bool.not_eq_true', Bool.and_eq_false_iff, decide_eq_true_eq,
        decide_eq_false_iff_not, ← hleap, not_and_or, Bool.not_eq_true]
    rw [if_neg hend, if_neg hend, if_pos rfl, if_congr hlate rfl rfl,
      Int.tdiv_eq_ediv_of_nonneg (by omega)]
    split_ifs <;> omega

/-- The date is before the first Monday of a year that begins behind a Thursday. -/
def BeforeFirstWeek (d : Date) : Prop :=
  4 < jan1WkDay d.year ∧ d.ordinal ≤ 8 - jan1WkDay d.year

/-- A leap year that begins on a Sunday. -/
def SundayLeap (year : Int) : Prop := Leap year ∧ jan1WkDay year = 7

/-- **`GetWeekCmd` gives the ISO week of a date if and only if the date is not before the first week
of its year, nor in a leap year that begins on a Sunday, but for the last day of it.** -/
theorem getWeekCmd_iff (d : Date) :
    (∃ year weekday, IsoDate d year (getWeekCmd d.year d.month d.day) weekday) ↔
      ¬ BeforeFirstWeek d ∧ (SundayLeap d.year → d.ordinal = 366) := by
  have hordinal := d.ordinal_range
  have hrange := d.isoWeekday_range
  have hwkDay := isoWeekday_eq d
  have hjan1 := jan1WkDay_eq d.year_pos
  have hthursday : d.thursday = daysBeforeYear d.year + d.ordinal - d.isoWeekday + 4 := rfl
  have hnext := daysBeforeYear_succ d.year
  have hnext' := daysBeforeYear_succ (d.year + 1)
  have hprev := daysBeforeYear_succ (d.year - 1)
  rw [Int.sub_add_cancel] at hprev
  have hdays := daysInYear_range (d.year - 1)
  have hdays' := daysInYear_range (d.year + 1)
  have hleap : daysInYear d.year = if Leap d.year then 366 else 365 := rfl
  rw [getWeekCmd_eq]
  unfold BeforeFirstWeek SundayLeap
  generalize jan1WkDay d.year = jan1 at *
  rcases lt_or_ge (daysInYear d.year) (d.ordinal - d.isoWeekday + 4) with hlate | hyear
  · -- a week of the next year
    rw [exists_isoDate_iff (y := d.year + 1) (by omega) (by omega), if_pos (by omega)]
    by_cases hl : Leap d.year
    · rw [if_pos hl] at hleap
      simp only [hl, true_and]
      omega
    · rw [if_neg hl] at hleap
      simp only [hl, false_and, false_implies, and_true]
      omega
  rcases lt_or_ge (d.ordinal - d.isoWeekday + 4) 1 with hearly | hthis
  · -- a week of the year before
    rw [exists_isoDate_iff (y := d.year - 1) (by omega) (by rw [Int.sub_add_cancel]; omega),
      if_neg (by omega)]
    split_ifs <;> omega
  · -- a week of this year
    rw [exists_isoDate_iff (y := d.year) (by omega) (by omega), if_neg (by omega)]
    by_cases hl : Leap d.year
    · rw [if_pos hl] at hleap
      simp only [hl, true_and]
      split_ifs <;> omega
    · rw [if_neg hl] at hleap
      simp only [hl, false_and, not_false_eq_true, and_true, false_implies]
      split_ifs <;> omega

theorem january_range : 1 ≤ (1 : Int) ∧ (1 : Int) ≤ 12 := by omega

theorem january_2010_day :
    1 ≤ (1 : Int) ∧ (1 : Int) ≤ daysInMonth 2010 1 := by decide

/-- The first of January 2010, a Friday. -/
def newYear2010 : Date := ⟨2010, 1, 1, by decide, january_range, january_2010_day⟩

/-- It is in week 53 of 2009, and `GetWeekCmd` gives 0. -/
theorem getWeekCmd_newYear2010 : getWeekCmd 2010 1 1 = 0 ∧ IsoDate newYear2010 2009 53 5 ∧
    ¬ ∃ year weekday, IsoDate newYear2010 year (getWeekCmd 2010 1 1) weekday := by
  have hweek : IsoDate newYear2010 2009 53 5 :=
    (isoDate_iff newYear2010 2009 53 5).mpr ⟨by decide, by decide, by decide, by decide⟩
  refine ⟨by decide, hweek, fun h => ?_⟩
  have hthursday : daysBeforeYear 2009 < newYear2010.thursday ∧
      newYear2010.thursday ≤ daysBeforeYear (2009 + 1) := by decide
  rw [exists_isoDate_iff hthursday.1 hthursday.2] at h
  exact absurd h (by decide)

/-! ## The date of a week -/

/-- The first Thursday of a year, from the weekday of the first of January. -/
theorem firstThursday_eq {year : Int} (h : 1 ≤ year) :
    firstThursday year =
      if jan1WkDay year < 5 then 5 - jan1WkDay year else 12 - jan1WkDay year := by
  rw [jan1WkDay_eq h, firstThursday]
  split_ifs <;> omega

/-- The table of the months. -/
theorem monthDays_get {year : Int} (hyear : 0 ≤ year) {k : Nat} (hk : k < 12) :
    (monthDays (isLeap year))[k]? = some (daysInMonth year (k + 1)) := by
  unfold daysInMonth
  simp only [← isLeap_iff hyear]
  interval_cases k <;> rfl

/-- **The loop goes on to the month of the day, and does not leave the table.** -/
theorem monthLoop_eq {year n : Int} (hyear : 0 ≤ year) {m k : Nat} (hm : m < 12)
    (hspan : daysBefore year m < n ∧ n ≤ daysBefore year (m + 1)) (hk : k ≤ m + 1) :
    monthLoop n ((monthDays (isLeap year)).drop k) k (daysBefore year k) =
      some (m + 1, daysBefore year (m + 1)) := by
  obtain ⟨j, hj⟩ := Nat.exists_eq_add_of_le hk
  induction j generalizing k with
  | zero =>
      obtain rfl : k = m + 1 := hj.symm
      cases hdays : (monthDays (isLeap year)).drop (m + 1) with
      | nil => rw [monthLoop, if_neg (not_lt.mpr hspan.2)]
      | cons days months => rw [monthLoop, if_neg (not_lt.mpr hspan.2)]
  | succ j ih =>
      have hlt : k < (monthDays (isLeap year)).length := show k < 12 by omega
      have hdays : (monthDays (isLeap year))[k] = daysInMonth year (k + 1) := by
        have hget := monthDays_get hyear (show k < 12 by omega)
        rw [List.getElem?_eq_getElem hlt] at hget
        exact Option.some.inj hget
      have hle : daysBefore year k ≤ daysBefore year m := daysBefore_mono (by omega)
      rw [List.drop_eq_getElem_cons hlt, monthLoop, if_pos (by omega), hdays]
      exact ih (by omega) (by omega)

/-- A weekday of a week that an ISO year has. -/
structure IsoDay where
  year : Int
  week : Int
  weekday : Int
  year_ge : 2 ≤ year
  week_range : 1 ≤ week ∧ week ≤ weeksInYear year
  weekday_range : 1 ≤ weekday ∧ weekday ≤ 7

/-- `Week2GregorianCmd` gives the date of a week. -/
theorem week2GregorianCmd_date (w : IsoDay) :
    ∃ d : Date, week2GregorianCmd w.year w.week w.weekday = some (d.year, d.month, d.day) ∧
      IsoDate d w.year w.week w.weekday := by
  obtain ⟨year, week, weekday, hyear, hweek, hweekday⟩ := w
  dsimp only
  have hjan1 := jan1WkDay_eq (show 1 ≤ year by omega)
  have hfirst := firstThursday_eq (show 1 ≤ year by omega)
  have hnext := daysBeforeYear_succ year
  have hprev := daysBeforeYear_succ (year - 1)
  rw [Int.sub_add_cancel] at hprev
  have hleap := isLeap_iff (show 0 ≤ year by omega)
  have hdays : (if isLeap year = true then 366 else 365) = daysInYear year := by
    simp only [hleap, daysInYear]
  have hweeks := hweek.2
  unfold weeksInYear at hweeks
  -- the day of the year
  obtain ⟨n, hn⟩ : ∃ n, n = (week - 1) * 7 +
      if jan1WkDay year < 5 then weekday - (jan1WkDay year - 1)
      else weekday + (8 - jan1WkDay year) := ⟨_, rfl⟩
  have hoffset : n = firstThursday year + 7 * (week - 1) + (weekday - 4) := by
    rw [hn, hfirst]
    split_ifs <;> omega
  have hiso : ∀ d : Date, d.number = daysBeforeYear year + n → IsoDate d year week weekday :=
    fun d hd => isoDate_of_number hweek hweekday (by omega)
  unfold week2GregorianCmd
  dsimp only
  rw [hdays, ← hn]
  split_ifs with hbefore hafter
  · -- in December of the year before
    obtain ⟨rfl, hearly, hlt⟩ := hbefore
    rw [if_pos hearly] at hn
    have hdecember := daysInMonth_december (year - 1)
    have hyear' : daysBefore (year - 1) 12 =
        daysBefore (year - 1) 11 + daysInMonth (year - 1) 12 := rfl
    rw [daysBefore_twelve] at hyear'
    refine ⟨⟨year - 1, 12, 32 - (jan1WkDay year - weekday), by omega, by decide, by omega⟩, rfl,
      hiso _ ?_⟩
    show daysBeforeYear (year - 1) +
      (daysBefore (year - 1) 11 + (32 - (jan1WkDay year - weekday))) = _
    omega
  · -- in January of the year after
    have hjanuary : daysInMonth (year + 1) 1 = 31 := by simp [daysInMonth]
    refine ⟨⟨year + 1, 1, n - daysInYear year, by omega, by decide, by omega⟩, rfl, hiso _ ?_⟩
    show daysBeforeYear (year + 1) + (0 + (n - daysInYear year)) = _
    omega
  · -- in the year
    have hpos : 1 ≤ n := by
      split_ifs at hn <;> omega
    have hle : n ≤ daysBefore year 12 := by
      rw [daysBefore_twelve]
      omega
    obtain ⟨m, hm, hspan⟩ := Date.exists_month hpos hle
    have hloop : monthLoop n (monthDays (isLeap year)) 0 0 =
        some (m + 1, daysBefore year (m + 1)) :=
      monthLoop_eq (show 0 ≤ year by omega) hm hspan (Nat.zero_le _)
    refine ⟨Date.ofSpan year n m (by omega) hm hspan, ?_, hiso _ ?_⟩
    · rw [hloop, Option.bind_some]
      show (monthDays (isLeap year))[m]?.map _ = _
      rw [monthDays_get (show 0 ≤ year by omega) hm, daysBefore, Option.map_some,
        Int.add_sub_cancel]
      rfl
    · show daysBeforeYear year + (Date.ofSpan year n m _ hm hspan).ordinal = _
      rw [Date.ordinal_ofSpan]

/-- **For every week that an ISO year has and every weekday, `Week2GregorianCmd` gives the date of
it, and so different dates for different weekdays.** -/
theorem week2GregorianCmd_iso :
    (∀ w : IsoDay, ∃ d : Date,
      week2GregorianCmd w.year w.week w.weekday = some (d.year, d.month, d.day) ∧
        IsoDate d w.year w.week w.weekday) ∧
    ∀ w w' : IsoDay, week2GregorianCmd w.year w.week w.weekday =
      week2GregorianCmd w'.year w'.week w'.weekday → w = w' := by
  refine ⟨week2GregorianCmd_date, fun w w' heq => ?_⟩
  obtain ⟨d, hd, hiso⟩ := week2GregorianCmd_date w
  obtain ⟨d', hd', hiso'⟩ := week2GregorianCmd_date w'
  rw [hd, hd'] at heq
  have hsame : d = d' := by
    obtain ⟨hyear, hrest⟩ := Prod.mk.inj (Option.some.inj heq)
    obtain ⟨hmonth, hday⟩ := Prod.mk.inj hrest
    cases d
    cases d'
    simp_all
  subst hsame
  obtain ⟨hyear, hweek, hweekday⟩ := hiso.unique hiso'
  cases w
  cases w'
  simp_all

/-- The Friday of the last week of 2009. -/
def lastFriday2009 : IsoDay := ⟨2009, 53, 5, by decide, by decide, by decide⟩

/-- It has a date. -/
theorem week2GregorianCmd_2009 :
    ∃ d : Date, week2GregorianCmd 2009 53 5 = some (d.year, d.month, d.day) ∧
      IsoDate d 2009 53 5 :=
  week2GregorianCmd_iso.1 lastFriday2009

example : week2GregorianCmd 2009 53 5 = some (2010, 1, 1) := by decide

end Nsdci.Week
