import Mathlib.Algebra.Order.Group.Int
import Mathlib.Order.Basic
import Mathlib.Tactic.Common

/-!
# The Gregorian calendar

Dates of the calendar from the year 1 on, the day after a date, and the weekdays, which follow one
another from a known one. `Date.induction` reaches every date from the first one.
-/

namespace Nsdci.Lib

/-- A leap year. -/
def Leap (year : Int) : Prop := year % 4 = 0 ∧ (year % 100 ≠ 0 ∨ year % 400 = 0)

instance (year : Int) : Decidable (Leap year) := inferInstanceAs (Decidable (_ ∧ _))

/-- The days of a month. -/
def daysInMonth (year month : Int) : Int :=
  if month = 2 then if Leap year then 29 else 28
  else if month = 4 ∨ month = 6 ∨ month = 9 ∨ month = 11 then 30
  else 31

/-- A date of the calendar. -/
structure Date where
  year : Int
  month : Int
  day : Int
  year_pos : 1 ≤ year
  month_range : 1 ≤ month ∧ month ≤ 12
  day_range : 1 ≤ day ∧ day ≤ daysInMonth year month
  deriving DecidableEq

theorem daysInMonth_ge (year month : Int) : 28 ≤ daysInMonth year month := by
  unfold daysInMonth
  split_ifs <;> decide

theorem daysInMonth_december (year : Int) : daysInMonth year 12 = 31 := by
  simp [daysInMonth]

theorem daysInMonth_le (year month : Int) : daysInMonth year month ≤ 31 := by
  unfold daysInMonth
  split_ifs <;> decide

namespace Date

/-- The first date. -/
def first : Date := ⟨1, 1, 1, by decide, by decide, by decide⟩

/-- The first day of a month. -/
def startOfMonth (year month : Int) (hyear : 1 ≤ year) (hmonth : 1 ≤ month ∧ month ≤ 12) : Date :=
  ⟨year, month, 1, hyear, hmonth, le_rfl, by have := daysInMonth_ge year month; omega⟩

/-- The day after a date. -/
def next (d : Date) : Date :=
  if hday : d.day < daysInMonth d.year d.month then
    { d with
      day := d.day + 1
      day_range := ⟨by have := d.day_range; omega, by omega⟩ }
  else if hmonth : d.month < 12 then
    startOfMonth d.year (d.month + 1) d.year_pos ⟨by have := d.month_range; omega, by omega⟩
  else startOfMonth (d.year + 1) 1 (by have := d.year_pos; omega) (by decide)

/-- Every date but the first is the day after one. -/
theorem eq_first_or_next (d : Date) : d = first ∨ ∃ d', d = next d' := by
  obtain ⟨year, month, day, hyear, hmonth, hday⟩ := d
  by_cases hfirst : day = 1
  · subst hfirst
    by_cases hjanuary : month = 1
    · subst hjanuary
      by_cases hone : year = 1
      · subst hone
        exact Or.inl rfl
      · -- the last day of the year before
        refine Or.inr ⟨⟨year - 1, 12, 31, by omega, by decide, by decide,
          (daysInMonth_december (year - 1)).ge⟩, ?_⟩
        rw [next, dif_neg (daysInMonth_december (year - 1)).le.not_gt, dif_neg (lt_irrefl 12)]
        simp [startOfMonth]
    · -- the last day of the month before
      have hge := daysInMonth_ge year (month - 1)
      refine Or.inr ⟨⟨year, month - 1, daysInMonth year (month - 1), hyear, by omega, by omega⟩, ?_⟩
      rw [next, dif_neg (lt_irrefl _), dif_pos (by show month - 1 < 12; omega)]
      simp [startOfMonth]
  · refine Or.inr ⟨⟨year, month, day - 1, hyear, hmonth, by omega⟩, ?_⟩
    rw [next, dif_pos (by show day - 1 < daysInMonth year month; omega)]
    simp

/-- A number that grows with the date. -/
def rank (d : Date) : Nat := ((d.year * 12 + d.month) * 32 + d.day).toNat

theorem rank_lt_next (d : Date) : d.rank < d.next.rank := by
  have hyear := d.year_pos
  have hmonth := d.month_range
  have hday := d.day_range
  have hle := daysInMonth_le d.year d.month
  unfold rank next startOfMonth
  split_ifs <;> dsimp only <;> omega

/-- **What holds of the first date, and of the day after every date it holds of, holds of all.** -/
theorem induction {P : Date → Prop} (hfirst : P first) (hnext : ∀ d, P d → P d.next) (d : Date) :
    P d := by
  obtain ⟨n, hn⟩ : ∃ n, d.rank ≤ n := ⟨d.rank, Nat.le_refl _⟩
  induction n using Nat.strong_induction_on generalizing d with
  | _ n ih =>
      rcases eq_first_or_next d with rfl | ⟨d', rfl⟩
      · exact hfirst
      · have hlt := rank_lt_next d'
        exact hnext d' (ih (n - 1) (by omega) d' (by omega))

/-- The beginning of Unix time. -/
def epoch : Date := ⟨1970, 1, 1, by decide, by decide, by decide⟩

end Date

/-- The weekday of a date, Sunday being 0: it was a Thursday at the beginning of Unix time, and goes
on by one every day. -/
inductive Weekday : Date → Int → Prop where
  | epoch : Weekday Date.epoch 4
  | next {d : Date} {w : Int} (h : Weekday d w) : Weekday d.next ((w + 1) % 7)
  | prev {d : Date} {w : Int} (h : Weekday d.next w) : Weekday d ((w + 6) % 7)

/-- Every date has a weekday. -/
theorem Weekday.exists (d : Date) : ∃ w, Weekday d w := by
  have hstep : ∀ d : Date, (∃ w, Weekday d w) ↔ ∃ w, Weekday Date.first w := by
    intro d
    induction d using Date.induction with
    | hfirst => exact Iff.rfl
    | hnext d ih =>
        rw [← ih]
        exact ⟨fun ⟨w, h⟩ => ⟨_, h.prev⟩, fun ⟨w, h⟩ => ⟨_, h.next⟩⟩
  exact (hstep d).mpr ((hstep Date.epoch).mp ⟨4, .epoch⟩)

/-- A weekday that a function gives, which goes on by one every day, is the weekday. -/
theorem weekday_iff {f : Date → Int} (hepoch : f Date.epoch = 4)
    (hnext : ∀ d, f d.next = (f d + 1) % 7) (hrange : ∀ d, 0 ≤ f d ∧ f d < 7) (d : Date) (w : Int) :
    Weekday d w ↔ f d = w := by
  have hforward : ∀ {d w}, Weekday d w → f d = w := by
    intro d w h
    induction h with
    | epoch => exact hepoch
    | next _ ih => rw [hnext, ih]
    | prev _ ih =>
        rename_i d' w' _
        have hd := hrange d'
        rw [hnext] at ih
        omega
  refine ⟨hforward, fun h => ?_⟩
  obtain ⟨w', hw'⟩ := Weekday.exists d
  exact (hforward hw').symm.trans h ▸ hw'

end Nsdci.Lib
