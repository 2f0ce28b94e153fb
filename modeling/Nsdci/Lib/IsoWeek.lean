import Nsdci.Lib.Calendar
import Mathlib.Tactic.IntervalCases

/-!
# Weeks of ISO 8601

Days are numbered from the first date on. A week goes from Monday to Sunday and belongs to the year
of its Thursday, and the weeks of a year are counted by their Thursdays (`IsoDate`).
-/

namespace Nsdci.Lib

/-! ## Days of a year -/

/-- The days of the months before a month, the months counted from 0. -/
def daysBefore (year : Int) : Nat → Int
  | 0 => 0
  | m + 1 => daysBefore year m + daysInMonth year (m + 1)

/-- The days of a year. -/
def daysInYear (year : Int) : Int := if Leap year then 366 else 365

/-- The days of the years before a year. -/
def daysBeforeYear (year : Int) : Int :=
  (year - 1) * 365 + (year - 1) / 4 - (year - 1) / 100 + (year - 1) / 400

theorem daysBeforeYear_succ (year : Int) :
    daysBeforeYear (year + 1) = daysBeforeYear year + daysInYear year := by
  unfold daysBeforeYear daysInYear Leap
  split_ifs <;> omega

theorem daysInYear_range (year : Int) : 365 ≤ daysInYear year ∧ daysInYear year ≤ 366 := by
  unfold daysInYear
  split_ifs <;> decide

/-- The days before a month: those of a common year, and one more behind a leap day. -/
theorem daysBefore_eq (year : Int) {m : Nat} (h : m ≤ 12) :
    daysBefore year m = [0, 31, 59, 90, 120, 151, 181, 212, 243, 273, 304, 334, 365].getD m 0 +
      if 2 ≤ m ∧ Leap year then 1 else 0 := by
  by_cases hleap : Leap year
  · interval_cases m <;> simp [daysBefore, daysInMonth, hleap]
  · interval_cases m <;> simp [daysBefore, daysInMonth, hleap]

/-- The months of a year make up the year. -/
theorem daysBefore_twelve (year : Int) : daysBefore year 12 = daysInYear year := by
  rw [daysBefore_eq year le_rfl, daysInYear]
  by_cases hleap : Leap year <;> simp [hleap]

theorem daysBefore_mono {year : Int} {m n : Nat} (h : m ≤ n) :
    daysBefore year m ≤ daysBefore year n := by
  induction h with
  | refl => exact le_rfl
  | @step n _ ih =>
      have hge := daysInMonth_ge year (n + 1)
      show daysBefore year m ≤ daysBefore year n + daysInMonth year (n + 1)
      omega

namespace Date

/-- The number of a date in its year. -/
def ordinal (d : Date) : Int := daysBefore d.year (d.month - 1).toNat + d.day

/-- The number of a date, from the first one on. -/
def number (d : Date) : Int := daysBeforeYear d.year + d.ordinal

/-- Monday is 1, and Sunday is 7. -/
def isoWeekday (d : Date) : Int := (d.number - 1) % 7 + 1

/-- The number of the Thursday in the week of a date. -/
def thursday (d : Date) : Int := d.number - d.isoWeekday + 4

theorem ordinal_range (d : Date) : 1 ≤ d.ordinal ∧ d.ordinal ≤ daysInYear d.year := by
  obtain ⟨year, month, day, -, hmonth, hday⟩ := d
  obtain ⟨m, rfl⟩ : ∃ m : Nat, month = m + 1 := ⟨(month - 1).toNat, by omega⟩
  have hm : ((m : Int) + 1 - 1).toNat = m := by omega
  have hzero : daysBefore year 0 ≤ daysBefore year m := daysBefore_mono (Nat.zero_le m)
  have hnext : daysBefore year (m + 1) ≤ daysBefore year 12 := daysBefore_mono (by omega)
  have hsucc : daysBefore year (m + 1) = daysBefore year m + daysInMonth year (m + 1) := rfl
  have hstart : daysBefore year 0 = 0 := rfl
  rw [daysBefore_twelve] at hnext
  unfold ordinal
  dsimp only
  rw [hm]
  omega

/-- The date in a month of which these are the days before. -/
theorem exists_month {year n : Int} {k : Nat} (hn : 1 ≤ n) (hle : n ≤ daysBefore year k) :
    ∃ m < k, daysBefore year m < n ∧ n ≤ daysBefore year (m + 1) := by
  induction k with
  | zero => exact absurd hle (by show ¬ n ≤ 0; omega)
  | succ k ih =>
      rcases le_or_gt n (daysBefore year k) with hbefore | hlast
      · obtain ⟨m, hm, hspan⟩ := ih hbefore
        exact ⟨m, Nat.lt_succ_of_lt hm, hspan⟩
      · exact ⟨k, Nat.lt_succ_self k, hlast, hle⟩

/-- The date with a day among those of a month. -/
def ofSpan (year n : Int) (m : Nat) (hyear : 1 ≤ year) (hm : m < 12)
    (hspan : daysBefore year m < n ∧ n ≤ daysBefore year (m + 1)) : Date :=
  ⟨year, m + 1, n - daysBefore year m, hyear, by omega, by
    have hsucc : daysBefore year (m + 1) = daysBefore year m + daysInMonth year (m + 1) := rfl
    omega⟩

theorem ordinal_ofSpan {year n : Int} {m : Nat} (hyear : 1 ≤ year) (hm : m < 12)
    (hspan : daysBefore year m < n ∧ n ≤ daysBefore year (m + 1)) :
    (ofSpan year n m hyear hm hspan).ordinal = n := by
  have hmonth : ((m : Int) + 1 - 1).toNat = m := by omega
  show daysBefore year ((m : Int) + 1 - 1).toNat + (n - daysBefore year m) = n
  rw [hmonth]
  omega

/-- A number in a year is the one of a date of the year. -/
theorem exists_ordinal {year n : Int} (hyear : 1 ≤ year) (hn : 1 ≤ n) (hle : n ≤ daysInYear year) :
    ∃ d : Date, d.year = year ∧ d.ordinal = n := by
  obtain ⟨m, hm, hspan⟩ := exists_month (k := 12) hn (daysBefore_twelve year ▸ hle)
  exact ⟨ofSpan year n m hyear hm hspan, rfl, ordinal_ofSpan hyear hm hspan⟩

/-- **The day after a date has the next number.** -/
theorem number_next (d : Date) : d.next.number = d.number + 1 := by
  have hmonth := d.month_range
  have hday := d.day_range
  have hsucc : daysBefore d.year ((d.month - 1).toNat + 1) =
      daysBefore d.year (d.month - 1).toNat + daysInMonth d.year d.month := by
    have hcast : (((d.month - 1).toNat : Nat) : Int) + 1 = d.month := by omega
    rw [daysBefore, hcast]
  unfold number next
  split_ifs with hlt hmo
  · -- in the same month
    show daysBeforeYear d.year + (daysBefore d.year (d.month - 1).toNat + (d.day + 1)) = _
    rw [ordinal]
    omega
  · -- the first of a month
    have hnext : (d.month + 1 - 1).toNat = (d.month - 1).toNat + 1 := by omega
    show daysBeforeYear d.year + (daysBefore d.year (d.month + 1 - 1).toNat + 1) = _
    rw [hnext, hsucc, ordinal]
    omega
  · -- the first day of a year
    have htwelve : (d.month - 1).toNat + 1 = 12 := by omega
    rw [htwelve, daysBefore_twelve] at hsucc
    show daysBeforeYear (d.year + 1) + (daysBefore (d.year + 1) 0 + 1) = _
    rw [daysBeforeYear_succ, ordinal, daysBefore]
    omega

theorem number_pos (d : Date) : 1 ≤ d.number := by
  have hyear := d.year_pos
  have hordinal := d.ordinal_range
  unfold number daysBeforeYear
  omega

/-- **The ISO weekday is the weekday of the calendar, where Sunday is 0.** -/
theorem weekday_iff_isoWeekday (d : Date) (w : Int) : Weekday d w ↔ d.isoWeekday % 7 = w := by
  refine weekday_iff (f := fun d => d.isoWeekday % 7) rfl (fun d => ?_) (fun d => ?_) d w
  · unfold isoWeekday
    rw [number_next]
    omega
  · omega

theorem isoWeekday_range (d : Date) : 1 ≤ d.isoWeekday ∧ d.isoWeekday ≤ 7 := by
  unfold isoWeekday
  omega

end Date

/-! ## Weeks -/

/-- The ISO year, week and weekday of a date: its week is counted by the Thursday in it. -/
structure IsoDate (d : Date) (year week weekday : Int) : Prop where
  weekday_range : 1 ≤ weekday ∧ weekday ≤ 7
  weekday_eq : Weekday d (weekday % 7)
  thursday : ∃ t : Date, t.number = d.number + (4 - weekday) ∧ t.year = year ∧
    week = (t.ordinal - 1) / 7 + 1

theorem daysBeforeYear_mono {m n : Int} (h : m ≤ n) : daysBeforeYear m ≤ daysBeforeYear n := by
  unfold daysBeforeYear
  omega

/-- A day is among those of one year. -/
theorem year_unique {n y y' : Int} (hlo : daysBeforeYear y < n) (hhi : n ≤ daysBeforeYear (y + 1))
    (hlo' : daysBeforeYear y' < n) (hhi' : n ≤ daysBeforeYear (y' + 1)) : y = y' := by
  by_contra hne
  rcases lt_or_gt_of_ne hne with hlt | hgt
  · have hle := daysBeforeYear_mono (show y + 1 ≤ y' by omega)
    omega
  · have hle := daysBeforeYear_mono (show y' + 1 ≤ y by omega)
    omega

/-- **The year of a date's Thursday is the one whose days it is among.** -/
theorem isoDate_iff (d : Date) (year week weekday : Int) :
    IsoDate d year week weekday ↔ weekday = d.isoWeekday ∧
      daysBeforeYear year < d.thursday ∧ d.thursday ≤ daysBeforeYear (year + 1) ∧
      week = (d.thursday - daysBeforeYear year - 1) / 7 + 1 := by
  have hrange := d.isoWeekday_range
  have hcongr : ∀ w, 1 ≤ w → w ≤ 7 → (Weekday d (w % 7) ↔ w = d.isoWeekday) := by
    intro w hlo hhi
    rw [Date.weekday_iff_isoWeekday]
    omega
  have hthursday : d.thursday = d.number - d.isoWeekday + 4 := rfl
  constructor
  · rintro ⟨⟨hlo, hhi⟩, hweekday, t, hnumber, rfl, rfl⟩
    obtain rfl := (hcongr _ hlo hhi).mp hweekday
    have hsplit : t.number = daysBeforeYear t.year + t.ordinal := rfl
    have hordinal := t.ordinal_range
    rw [daysBeforeYear_succ]
    exact ⟨rfl, by omega, by omega, by congr 2; omega⟩
  · rintro ⟨rfl, hlo, hhi, rfl⟩
    have hyear : 1 ≤ year := by
      by_contra hneg
      have hbefore : daysBeforeYear (year + 1) ≤ daysBeforeYear 1 := daysBeforeYear_mono (by omega)
      have hfirst : daysBeforeYear 1 = 0 := rfl
      have hnumber := d.number_pos
      unfold Date.thursday Date.isoWeekday at hhi
      omega
    rw [daysBeforeYear_succ] at hhi
    obtain ⟨t, rfl, hordinal⟩ := Date.exists_ordinal (n := d.thursday - daysBeforeYear year) hyear
      (by omega) (by omega)
    refine ⟨hrange, (hcongr _ hrange.1 hrange.2).mpr rfl, t, ?_, rfl, by rw [hordinal]⟩
    have hsplit : t.number = daysBeforeYear t.year + t.ordinal := rfl
    omega

/-- The week of a date, from the year of its Thursday. -/
theorem exists_isoDate_iff {d : Date} {y : Int} (hlo : daysBeforeYear y < d.thursday)
    (hhi : d.thursday ≤ daysBeforeYear (y + 1)) (week : Int) :
    (∃ year weekday, IsoDate d year week weekday) ↔
      week = (d.thursday - daysBeforeYear y - 1) / 7 + 1 := by
  constructor
  · rintro ⟨year, weekday, h⟩
    obtain ⟨-, hlo', hhi', hweek⟩ := (isoDate_iff d year week weekday).mp h
    obtain rfl := year_unique hlo hhi hlo' hhi'
    exact hweek
  · intro hweek
    exact ⟨y, d.isoWeekday, (isoDate_iff d y week _).mpr ⟨rfl, hlo, hhi, hweek⟩⟩

/-- The first Thursday of a year. -/
def firstThursday (year : Int) : Int := (3 - daysBeforeYear year) % 7 + 1

/-- The weeks of a year: its Thursdays. -/
def weeksInYear (year : Int) : Int := (daysInYear year - firstThursday year) / 7 + 1

/-- **The date as far from the first Thursday of a year as a weekday of a week is.** -/
theorem isoDate_of_number {d : Date} {year week weekday : Int}
    (hweek : 1 ≤ week ∧ week ≤ weeksInYear year) (hweekday : 1 ≤ weekday ∧ weekday ≤ 7)
    (hnumber : d.number =
      daysBeforeYear year + firstThursday year + 7 * (week - 1) + (weekday - 4)) :
    IsoDate d year week weekday := by
  have hnext := daysBeforeYear_succ year
  unfold weeksInYear firstThursday at hweek
  unfold firstThursday at hnumber
  rw [isoDate_iff]
  unfold Date.thursday Date.isoWeekday
  rw [hnumber]
  exact ⟨by omega, by omega, by omega, by omega⟩

/-- A date has one ISO date. -/
theorem IsoDate.unique {d : Date} {year year' week week' weekday weekday' : Int}
    (h : IsoDate d year week weekday) (h' : IsoDate d year' week' weekday') :
    year = year' ∧ week = week' ∧ weekday = weekday' := by
  obtain ⟨hday, hlo, hhi, hweek⟩ := (isoDate_iff d _ _ _).mp h
  obtain ⟨hday', hlo', hhi', hweek'⟩ := (isoDate_iff d _ _ _).mp h'
  obtain rfl := year_unique hlo hhi hlo' hhi'
  exact ⟨rfl, hweek.trans hweek'.symm, hday.trans hday'.symm⟩

end Nsdci.Lib
