import Nsdci.Lib.Calendar
import Nsdci.Lib.Word
import Mathlib.Tactic.IntervalCases

/-!
# Day numbers (`datenum.c`)

A day has a number, 0 for the beginning of Unix time. `Dci_Date2Dn` counts the days of the years and
the months before a date, `Dci_Dn2Date` guesses the year and goes on to the right one, and
`Dci_Time2Dn` divides a time. Division is the one of C, towards zero.
-/

namespace Nsdci.Datenum

open Lib

/-- `DNOFF`. -/
def dnoff : Int := 719163

/-- `SECPERDAY`. -/
def secperday : Int := 86400

/-- `isleap`. -/
def isleap (yr : Int) : Bool := yr.tmod 400 = 0 || (yr.tmod 4 = 0 && yr.tmod 100 ≠ 0)

/-- `months_to_days`. -/
def monthsToDays (month : Int) : Int := (month * 3057 - 3007).tdiv 100

/-- `years_to_days`. -/
def yearsToDays (yr : Int) : Int := yr * 365 + yr.tdiv 4 - yr.tdiv 100 + yr.tdiv 400

/-- `Dci_Date2Dn`. -/
def date2Dn (yr mo day : Int) : Int :=
  let dn := day + monthsToDays mo
  let dn := if mo > 2 then dn - (if isleap yr then 1 else 2) else dn
  dn + (yearsToDays (yr - 1) - dnoff)

/-- A year has more than no days. -/
theorem yearsToDays_lt_succ (n : Int) : yearsToDays n < yearsToDays (n + 1) := by
  unfold yearsToDays
  simp only [tdiv_eq_ite]
  split_ifs <;> omega

/-- The `for` loop of `Dci_Dn2Date`. -/
def yearLoop (dn n : Int) : Int :=
  if yearsToDays n < dn then yearLoop dn (n + 1) else n
termination_by (dn - yearsToDays n).toNat
decreasing_by
  have := yearsToDays_lt_succ n
  omega

/-- `Dci_Dn2Date`. -/
def dn2Date (dn : Int) : Int × Int × Int :=
  let dn := dn + dnoff
  let yr := yearLoop dn ((dn * 400).tdiv 146097)
  let n := dn - yearsToDays (yr - 1)
  let n := if n > 59 then
      let n := n + 2
      if isleap yr then n - (if n > 62 then 1 else 2) else n
    else n
  let mo := (n * 100 + 3007).tdiv 3057
  (yr, mo, n - monthsToDays mo)

/-- `Dci_Dn2Dow`. -/
def dn2Dow (dn : Int) : Int := (dn + dnoff).tmod 7

/-- `Dci_Time2Dn`. -/
def time2Dn (time : Int) : Int := time.tdiv secperday

/-! ## Years and months -/

theorem isleap_iff {yr : Int} (h : 0 ≤ yr) : isleap yr = true ↔ Leap yr := by
  unfold isleap Leap
  simp only [Int.tmod_eq_emod_of_nonneg h, Bool.or_eq_true, Bool.and_eq_true, decide_eq_true_eq]
  omega

theorem yearsToDays_eq {yr : Int} (h : 0 ≤ yr) :
    yearsToDays yr = yr * 365 + yr / 4 - yr / 100 + yr / 400 := by
  unfold yearsToDays
  simp only [Int.tdiv_eq_ediv_of_nonneg h]

/-- The days up to the end of a year, and up to its beginning. -/
theorem yearsToDays_sub_one {yr : Int} (h : 1 ≤ yr) :
    yearsToDays yr = yearsToDays (yr - 1) + if Leap yr then 366 else 365 := by
  rw [yearsToDays_eq (by omega), yearsToDays_eq (by omega)]
  unfold Leap
  split_ifs <;> omega

theorem yearsToDays_mono {m n : Int} (h : m ≤ n) : yearsToDays m ≤ yearsToDays n := by
  obtain ⟨k, rfl⟩ := Int.le.dest h
  induction k with
  | zero => exact (congrArg yearsToDays (Int.add_zero m)).ge
  | succ k ih =>
      have hlt := yearsToDays_lt_succ (m + k)
      have hle := ih (by omega)
      push_cast
      rw [← Int.add_assoc]
      omega

/-- The number of a day in its year. -/
def dayOfYear (yr mo day : Int) : Int :=
  day + monthsToDays mo - if mo > 2 then if Leap yr then 1 else 2 else 0

theorem date2Dn_eq {yr : Int} (h : 1 ≤ yr) (mo day : Int) :
    date2Dn yr mo day = dayOfYear yr mo day + yearsToDays (yr - 1) - dnoff := by
  unfold date2Dn dayOfYear
  simp only [isleap_iff (show 0 ≤ yr by omega)]
  split_ifs <;> omega

theorem monthsToDays_eq {mo : Int} (h : 1 ≤ mo) : monthsToDays mo = (mo * 3057 - 3007) / 100 :=
  Int.tdiv_eq_ediv_of_nonneg (by omega)

/-- The days of the months before, as if February had 30. -/
theorem monthsToDays_succ {mo : Int} (hlo : 1 ≤ mo) (hhi : mo < 12) :
    monthsToDays (mo + 1) = monthsToDays mo +
      if mo = 2 ∨ mo = 4 ∨ mo = 6 ∨ mo = 9 ∨ mo = 11 then 30 else 31 := by
  interval_cases mo <;> rfl

/-- The first day of a month is the one after the last of the month before. -/
theorem dayOfYear_month {yr mo : Int} (hlo : 1 ≤ mo) (hhi : mo < 12) :
    dayOfYear yr (mo + 1) 1 = dayOfYear yr mo (daysInMonth yr mo) + 1 := by
  unfold dayOfYear daysInMonth
  rw [monthsToDays_succ hlo hhi]
  split_ifs <;> omega

theorem dayOfYear_pos (d : Date) : 1 ≤ dayOfYear d.year d.month d.day := by
  have hmonth := d.month_range
  have hday := d.day_range
  unfold dayOfYear
  rw [monthsToDays_eq hmonth.1]
  split_ifs <;> omega

/-- The last day of a year. -/
theorem dayOfYear_le (d : Date) :
    dayOfYear d.year d.month d.day ≤ if Leap d.year then 366 else 365 := by
  have hmonth := d.month_range
  have hday := d.day_range.2
  unfold daysInMonth at hday
  unfold dayOfYear
  rw [monthsToDays_eq hmonth.1]
  split_ifs at hday ⊢ <;> omega

/-! ## From a date to its number and back -/

/-- The loop ends at the year whose days the number is among. -/
theorem yearLoop_eq {dn n m : Int} (hn : n ≤ m) (hlo : yearsToDays (m - 1) < dn)
    (hhi : dn ≤ yearsToDays m) : yearLoop dn n = m := by
  fun_induction yearLoop dn n with
  | case1 n hlt ih =>
      refine ih ?_
      by_contra hgt
      have hle := yearsToDays_mono (show m ≤ n by omega)
      omega
  | case2 n hge =>
      by_contra hne
      have hle := yearsToDays_mono (show n ≤ m - 1 by omega)
      omega

/-- The guess of the year is not too large. -/
theorem guess_le {dn yr : Int} (hyr : 1 ≤ yr) (hdn : 0 ≤ dn) (hhi : dn ≤ yearsToDays yr) :
    (dn * 400).tdiv 146097 ≤ yr := by
  rw [yearsToDays_eq (by omega)] at hhi
  rw [Int.tdiv_eq_ediv_of_nonneg (by omega)]
  omega

/-- The month of a day, from the days of the months before. -/
theorem month_eq (d : Date) :
    ((d.day + monthsToDays d.month) * 100 + 3007).tdiv 3057 = d.month := by
  obtain ⟨yr, mo, day, -, ⟨hlo, hhi⟩, hday, hlast⟩ := d
  dsimp only
  rw [monthsToDays_eq hlo, Int.tdiv_eq_ediv_of_nonneg (by omega)]
  by_cases hshort : day ≤ 30
  · omega
  · -- the last day of a long month
    obtain rfl : day = 31 := by
      have := daysInMonth_le yr mo
      omega
    have hlong : mo ≠ 2 ∧ mo ≠ 4 ∧ mo ≠ 6 ∧ mo ≠ 9 ∧ mo ≠ 11 := by
      unfold daysInMonth at hlast
      split_ifs at hlast <;> omega
    clear hlast
    interval_cases mo <;> first | rfl | omega

/-- The correction of a day of a year, as if February had 30 days. -/
theorem dayOfYear_correct (d : Date) :
    (if dayOfYear d.year d.month d.day > 59 then
        if Leap d.year then dayOfYear d.year d.month d.day + 2 -
            (if dayOfYear d.year d.month d.day + 2 > 62 then 1 else 2)
        else dayOfYear d.year d.month d.day + 2
      else dayOfYear d.year d.month d.day) = d.day + monthsToDays d.month := by
  obtain ⟨yr, mo, day, -, ⟨hlo, hhi⟩, hday, hlast⟩ := d
  dsimp only
  unfold dayOfYear
  by_cases hmo : mo > 2
  · have hmonths : 61 ≤ monthsToDays mo := by
      rw [monthsToDays_eq hlo]
      omega
    simp only [if_pos hmo]
    split_ifs <;> omega
  · simp only [if_neg hmo, Int.sub_zero]
    rcases show mo = 1 ∨ mo = 2 by omega with rfl | rfl
    · have hmonths : monthsToDays 1 = 0 := rfl
      have := daysInMonth_le yr 1
      rw [if_neg (by omega)]
    · have hmonths : monthsToDays 2 = 31 := rfl
      rw [daysInMonth, if_pos rfl] at hlast
      split_ifs at hlast ⊢ <;> omega

/-- The number of a date, from the year 1 on. -/
def number (d : Date) : Int := date2Dn d.year d.month d.day

theorem number_eq (d : Date) :
    number d + dnoff = dayOfYear d.year d.month d.day + yearsToDays (d.year - 1) := by
  rw [number, date2Dn_eq d.year_pos]
  omega

theorem number_pos (d : Date) : 1 ≤ number d + dnoff := by
  have hday := dayOfYear_pos d
  have hyears := yearsToDays_mono (show 0 ≤ d.year - 1 by have := d.year_pos; omega)
  have hzero : yearsToDays 0 = 0 := rfl
  rw [number_eq]
  omega

/-- **`Dci_Dn2Date` inverts `Dci_Date2Dn`.** -/
theorem dn2Date_number (d : Date) : dn2Date (number d) = (d.year, d.month, d.day) := by
  have hyear := d.year_pos
  have hpos := dayOfYear_pos d
  have hle := dayOfYear_le d
  have hnumber := number_eq d
  have hyears := yearsToDays_sub_one hyear
  have hhi : number d + dnoff ≤ yearsToDays d.year := by omega
  have hguess := guess_le hyear (by have := number_pos d; omega) hhi
  have hloop := yearLoop_eq hguess (by omega) hhi
  have hday : number d + dnoff - yearsToDays (d.year - 1) = dayOfYear d.year d.month d.day := by
    omega
  unfold dn2Date
  simp only [hloop, hday, isleap_iff (show 0 ≤ d.year by omega)]
  rw [dayOfYear_correct d, month_eq d, Int.add_sub_cancel]

/-- **The day after a date has the next number.** -/
theorem number_next (d : Date) : number d.next = number d + 1 := by
  have hyear := d.year_pos
  have hmonth := d.month_range
  have hday := d.day_range
  unfold Date.next
  split_ifs with hlt hmo
  · -- in the same month
    have hsame : dayOfYear d.year d.month (d.day + 1) = dayOfYear d.year d.month d.day + 1 := by
      unfold dayOfYear
      omega
    show date2Dn d.year d.month (d.day + 1) = number d + 1
    rw [number, date2Dn_eq hyear, date2Dn_eq hyear, hsame]
    omega
  · -- the first of a month
    have hlast : d.day = daysInMonth d.year d.month := by omega
    show date2Dn d.year (d.month + 1) 1 = number d + 1
    rw [number, date2Dn_eq hyear, date2Dn_eq hyear, dayOfYear_month hmonth.1 hmo, hlast]
    omega
  · -- the first day of a year
    have hlast : d.month = 12 ∧ d.day = 31 := by
      have hdecember : d.month = 12 := by omega
      rw [hdecember, daysInMonth_december] at hday hlt
      omega
    have hend : dayOfYear d.year 12 31 = if Leap d.year then 366 else 365 := by
      rw [dayOfYear, if_pos (show (12 : Int) > 2 by decide)]
      split_ifs <;> rfl
    have hstart : dayOfYear (d.year + 1) 1 1 = 1 := rfl
    show date2Dn (d.year + 1) 1 1 = number d + 1
    rw [number, date2Dn_eq (by omega), date2Dn_eq hyear, hlast.1, hlast.2, hend, hstart,
      Int.add_sub_cancel, yearsToDays_sub_one hyear]
    omega

/-- The first date has the number 1 from the year 1 on. -/
theorem number_first : number Date.first + dnoff = 1 := rfl

/-- **Every number from that of the first date on is one of a date.** -/
theorem exists_number {dn : Int} (h : number Date.first ≤ dn) : ∃ d, number d = dn := by
  obtain ⟨k, rfl⟩ := Int.le.dest h
  clear h
  induction k with
  | zero => exact ⟨Date.first, (Int.add_zero _).symm⟩
  | succ k ih =>
      obtain ⟨d, hd⟩ := ih
      refine ⟨d.next, ?_⟩
      rw [number_next, hd]
      push_cast
      exact Int.add_assoc _ _ _

/-! ## Weekdays and times -/

/-- **`Dci_Dn2Dow` is the weekday.** -/
theorem weekday_iff_dn2Dow (d : Date) (w : Int) : Weekday d w ↔ dn2Dow (number d) = w := by
  have hmod : ∀ d, dn2Dow (number d) = (number d + dnoff) % 7 := fun d =>
    Int.tmod_eq_emod_of_nonneg (by have := number_pos d; omega)
  refine weekday_iff (f := fun d => dn2Dow (number d)) rfl (fun d => ?_) (fun d => ?_) d w
  · rw [hmod, hmod, number_next]
    omega
  · rw [hmod]
    omega

/-- The UTC day with a number contains a time. -/
def Contains (dn time : Int) : Prop := dn * secperday ≤ time ∧ time < (dn + 1) * secperday

/-- **`Dci_Time2Dn` is the day that contains the time exactly for times from the beginning of Unix
time on, and at the beginning of a day.** -/
theorem contains_time2Dn_iff (time : Int) :
    Contains (time2Dn time) time ↔ 0 ≤ time ∨ secperday ∣ time := by
  unfold Contains time2Dn
  rw [tdiv_eq_ite]
  unfold secperday
  split_ifs <;> omega

/-- **Day numbers.** Dates and numbers are in step, from 0 for the beginning of Unix time, and a
weekday is that of the calendar; the day of a time is the one that contains it exactly for times
from the beginning of Unix time on, and at the beginning of a day. -/
theorem datenum_iff (time : Int) :
    date2Dn 1970 1 1 = 0 ∧
      (∀ d : Date, dn2Date (date2Dn d.year d.month d.day) = (d.year, d.month, d.day)) ∧
      (∀ dn, date2Dn 1 1 1 ≤ dn → ∃ d : Date, dn2Date dn = (d.year, d.month, d.day) ∧
        date2Dn d.year d.month d.day = dn) ∧
      (∀ d : Date, date2Dn d.next.year d.next.month d.next.day =
        date2Dn d.year d.month d.day + 1) ∧
      (∀ (d : Date) w, Weekday d w ↔ dn2Dow (date2Dn d.year d.month d.day) = w) ∧
      (Contains (time2Dn time) time ↔ 0 ≤ time ∨ secperday ∣ time) := by
  refine ⟨rfl, dn2Date_number, fun dn hdn => ?_, number_next, weekday_iff_dn2Dow,
    contains_time2Dn_iff time⟩
  obtain ⟨d, rfl⟩ := exists_number hdn
  exact ⟨d, dn2Date_number d, rfl⟩

/-- The second before the beginning of Unix time is not on its day. -/
theorem before_epoch : ¬ Contains (time2Dn (-1)) (-1) := by
  unfold Contains
  decide

end Nsdci.Datenum
