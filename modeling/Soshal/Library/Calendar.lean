import Mathlib.Tactic.IntervalCases
import Mathlib.Data.Nat.Basic

/-! The proleptic Gregorian calendar by counting days, from the first of January of the year 0.

A date carries the proof that it exists. Counting is by sums of the lengths of years
and months. The count that starts a year in March, where the leap day comes last, has
a closed form; cutting it into spans of 400 years inverts it.
-/

set_option autoImplicit false

namespace Soshal.Library.Calendar

def IsLeap (year : Nat) : Prop := year % 4 = 0 ∧ (year % 100 ≠ 0 ∨ year % 400 = 0)

instance (year : Nat) : Decidable (IsLeap year) := inferInstanceAs (Decidable (_ ∧ _))

def yearLength (year : Nat) : Nat := if IsLeap year then 366 else 365

def monthLength (year : Nat) : Nat → Nat
  | 2 => if IsLeap year then 29 else 28
  | 4 | 6 | 9 | 11 => 30
  | _ => 31

structure Date where
  year : Nat
  month : Nat
  day : Nat
  month_mem : 1 ≤ month ∧ month ≤ 12
  day_mem : 1 ≤ day ∧ day ≤ monthLength year month

def daysBeforeYear : Nat → Nat
  | 0 => 0
  | year + 1 => daysBeforeYear year + yearLength year

/-- The days of the year before the first of a month; months count from 1. -/
def daysBeforeMonth (year : Nat) : Nat → Nat
  | 0 | 1 => 0
  | month + 2 => daysBeforeMonth year (month + 1) + monthLength year (month + 1)

namespace Date

def toDays (date : Date) : Nat :=
  daysBeforeYear date.year + daysBeforeMonth date.year date.month + (date.day - 1)

/-- Not later, comparing the year, then the month, then the day. -/
def AtMost (first second : Date) : Prop :=
  first.year < second.year ∨ first.year = second.year ∧
    (first.month < second.month ∨ first.month = second.month ∧ first.day ≤ second.day)

end Date

theorem daysBeforeYear_add (year : Nat) : daysBeforeYear (year + 1) = daysBeforeYear year + yearLength year := rfl

theorem daysBeforeYear_mono {first second : Nat} (before : first ≤ second) :
    daysBeforeYear first ≤ daysBeforeYear second := by
  induction before with
  | refl => exact Nat.le_refl _
  | step _ ih => exact ih.trans (Nat.le_add_right _ _)

theorem daysBeforeMonth_mono (year : Nat) {first second : Nat} (start : 1 ≤ first) (before : first < second) :
    daysBeforeMonth year first + monthLength year first ≤ daysBeforeMonth year second := by
  induction before with
  | refl =>
    obtain ⟨month, rfl⟩ := Nat.exists_eq_add_of_le' start
    exact Nat.le_refl _
  | step _ ih =>
    rename_i month later
    obtain ⟨month, rfl⟩ := Nat.exists_eq_add_of_le' (start.trans (Nat.le_of_lt later))
    exact ih.trans (Nat.le_add_right _ _)

theorem daysBeforeMonth_end (year : Nat) : daysBeforeMonth year 12 + monthLength year 12 = yearLength year := by
  simp only [daysBeforeMonth, monthLength, yearLength]
  split <;> rfl

theorem Date.toDays_lt (date : Date) : date.toDays < daysBeforeYear (date.year + 1) := by
  obtain ⟨year, month, day, monthMem, dayMem⟩ := date
  have whole := daysBeforeMonth_end year
  have month : daysBeforeMonth year month + monthLength year month ≤ yearLength year := by
    rcases Nat.eq_or_lt_of_le monthMem.2 with rfl | earlier
    · exact whole.le
    · exact (daysBeforeMonth_mono year monthMem.1 earlier).trans ((Nat.le_add_right _ _).trans whole.le)
  simp only [toDays, daysBeforeYear_add] at *
  omega

def newYearsEve (year : Nat) : Date := ⟨year, 12, 31, by decide, by simp [monthLength]⟩

theorem newYearsEve_toDays (year : Nat) : (newYearsEve year).toDays + 1 = daysBeforeYear (year + 1) := by
  have whole := daysBeforeMonth_end year
  have december : monthLength year 12 = 31 := rfl
  simp only [Date.toDays, newYearsEve, daysBeforeYear_add]
  omega

theorem Date.atMost_of_toDays {first second : Date} (before : first.toDays ≤ second.toDays) : first.AtMost second := by
  unfold AtMost
  rcases Nat.lt_trichotomy first.year second.year with earlier | same | later
  · exact .inl earlier
  · refine .inr ⟨same, ?_⟩
    unfold toDays at before
    rw [← same] at before
    rcases Nat.lt_trichotomy first.month second.month with earlier | sameMonth | later
    · exact .inl earlier
    · refine .inr ⟨sameMonth, ?_⟩
      rw [← sameMonth] at before
      have one := first.day_mem.1
      have two := second.day_mem.1
      omega
    · -- the first date would lie behind the whole month of the second
      have behind := daysBeforeMonth_mono first.year second.month_mem.1 later
      have within := second.day_mem
      rw [← same] at within
      omega
  · have behind : daysBeforeYear (second.year + 1) ≤ daysBeforeYear first.year := daysBeforeYear_mono later
    have within := second.toDays_lt
    unfold toDays at before within
    omega

theorem daysBeforeYear_eq (year : Nat) :
    daysBeforeYear year + (year + 99) / 100 = 365 * year + (year + 3) / 4 + (year + 399) / 400 := by
  induction year with
  | zero => rfl
  | succ year ih =>
    rw [daysBeforeYear_add, yearLength]
    split
    · rename_i leap
      obtain ⟨four, rest⟩ := leap
      omega
    · rename_i common
      have common : year % 4 ≠ 0 ∨ (year % 100 = 0 ∧ year % 400 ≠ 0) := by
        unfold IsLeap at common
        omega
      omega

/-- The month of the civil year, for a month counted from March. -/
def civilMonth (fromMarch : Nat) : Nat := if fromMarch < 10 then fromMarch + 3 else fromMarch - 9

/-- January and February belong to the civil year after the March in which their year started. -/
def civilYear (marchYear fromMarch : Nat) : Nat := if civilMonth fromMarch ≤ 2 then marchYear + 1 else marchYear

/-- Where a day of a year that starts in March falls. -/
structure MarchDay (marchYear dayOfYear : Nat) : Prop where
  bounded : dayOfYear ≤ 365
  last : dayOfYear = 365 → IsLeap (marchYear + 1)

variable {marchYear dayOfYear : Nat}

theorem civilMonth_mem {fromMarch : Nat} (bounded : fromMarch ≤ 11) :
    1 ≤ civilMonth fromMarch ∧ civilMonth fromMarch ≤ 12 := by
  unfold civilMonth
  split <;> omega

theorem MarchDay.day_mem (within : MarchDay marchYear dayOfYear) :
    let fromMarch := (5 * dayOfYear + 2) / 153
    let day := dayOfYear - (153 * fromMarch + 2) / 5 + 1
    1 ≤ day ∧ day ≤ monthLength (civilYear marchYear fromMarch) (civilMonth fromMarch) := by
  intro fromMarch day
  have bounded := within.bounded
  have last := within.last
  refine ⟨Nat.succ_pos _, ?_⟩
  have few : fromMarch ≤ 11 := by omega
  have low : 153 * fromMarch ≤ 5 * dayOfYear + 2 := Nat.mul_div_le _ _
  have high : 5 * dayOfYear + 2 < 153 * (fromMarch + 1) := Nat.lt_mul_div_succ _ (by decide)
  show dayOfYear - (153 * fromMarch + 2) / 5 + 1 ≤ _
  generalize fromMarch = index at few low high
  rcases Nat.lt_or_eq_of_le few with earlier | rfl
  · interval_cases index <;> simp [civilMonth, monthLength] <;> omega
  · -- February, at the end of the year, is as long as the year is
    simp only [civilMonth, civilYear, monthLength]
    by_cases leap : IsLeap (marchYear + 1)
    · simp [leap]
      omega
    · have short : dayOfYear ≠ 365 := fun full => leap (last full)
      simp [leap]
      omega

theorem daysBeforeMonth_civil (year : Nat) {fromMarch : Nat} (bounded : fromMarch ≤ 11) :
    daysBeforeMonth year (civilMonth fromMarch) + (if civilMonth fromMarch ≤ 2 then 306 else 0) =
      (153 * fromMarch + 2) / 5 + if civilMonth fromMarch ≤ 2 then 0 else yearLength year - 306 := by
  interval_cases fromMarch <;> simp [civilMonth, daysBeforeMonth, monthLength, yearLength] <;> split <;> rfl

/-- The civil date of a day of a year that starts in March. -/
def ofMarch (within : MarchDay marchYear dayOfYear) : Date :=
  let fromMarch := (5 * dayOfYear + 2) / 153
  { year := civilYear marchYear fromMarch
    month := civilMonth fromMarch
    day := dayOfYear - (153 * fromMarch + 2) / 5 + 1
    month_mem := civilMonth_mem (by have := within.bounded; omega)
    day_mem := within.day_mem }

theorem toDays_ofMarch (within : MarchDay marchYear dayOfYear) :
    (ofMarch within).toDays + marchYear / 100 =
      365 * marchYear + marchYear / 4 + marchYear / 400 + dayOfYear + 60 := by
  have bounded := within.bounded
  have few : (5 * dayOfYear + 2) / 153 ≤ 11 := by omega
  have months := daysBeforeMonth_civil (civilYear marchYear ((5 * dayOfYear + 2) / 153)) few
  have started : (153 * ((5 * dayOfYear + 2) / 153) + 2) / 5 ≤ dayOfYear := by omega
  show daysBeforeYear (civilYear marchYear _) + daysBeforeMonth (civilYear marchYear _) (civilMonth _) +
    (_ - _ + 1 - 1) + _ = _
  -- the count of leap years up to a year of the civil calendar, in terms of the March before it
  have years : daysBeforeYear (marchYear + 1) + (marchYear / 100 + 1) =
      365 * (marchYear + 1) + (marchYear / 4 + 1) + (marchYear / 400 + 1) := by
    have counted := daysBeforeYear_eq (marchYear + 1)
    omega
  by_cases early : civilMonth ((5 * dayOfYear + 2) / 153) ≤ 2
  · rw [if_pos early, if_pos early] at months
    rw [civilYear, if_pos early] at months ⊢
    omega
  · have next := daysBeforeYear_add marchYear
    have long : 306 ≤ yearLength marchYear := by
      unfold yearLength
      split <;> decide
    rw [if_neg early, if_neg early] at months
    rw [civilYear, if_neg early] at months ⊢
    omega

/-- The days of a span of 400 years before its `year`-th, both counted from March. -/
def daysBeforeSpanYear (year : Nat) : Nat := 365 * year + year / 4 - year / 100

/-- The year of a span on which a day falls, as a quotient: a year of 365 days, once the leap
days so far are taken out. -/
def spanYear (day : Nat) : Nat := (day - day / 1460 + day / 36524 - day / 146096) / 365

theorem spanYear_eq {century group year day : Nat} (centuries : century ≤ 3) (groups : group ≤ 24) (years : year ≤ 3)
    (days : day ≤ 364 ∨ day = 365 ∧ year = 3 ∧ (group < 24 ∨ century = 3)) :
    spanYear (36524 * century + 1461 * group + 365 * year + day) = 100 * century + 4 * group + year := by
  unfold spanYear
  generalize total : 36524 * century + 1461 * group + 365 * year + day = doe
  -- at most one leap day too many is taken out, and then only late in the year
  obtain ⟨early, fourth⟩ : ∃ early, doe / 1460 = 25 * century + group + early :=
    ⟨doe / 1460 - (25 * century + group), by omega⟩
  have small : early = 0 ∧ day ≤ 364 ∨ early = 1 ∧ 1 ≤ day := by omega
  -- the last day of the span is the only one that the two other quotients count apart
  have centuryQuotient : doe / 36524 = century + doe / 146096 := by
    obtain inside | rfl : 1461 * group + 365 * year + day < 36524 ∨ doe = 146096 := by omega
    · have short : doe < 146096 := by omega
      rw [Nat.div_eq_of_lt short]
      omega
    · omega
  have whole : doe - doe / 1460 + doe / 36524 - doe / 146096 =
      365 * (100 * century + 4 * group + year) + (day - early) := by
    rw [fourth, centuryQuotient]
    generalize doe / 146096 = last
    omega
  rw [whole, Nat.mul_add_div (by decide), Nat.div_eq_of_lt (by omega), Nat.add_zero]

theorem exists_span {doe : Nat} (bounded : doe ≤ 146096) : ∃ century group year day,
    doe = 36524 * century + 1461 * group + 365 * year + day ∧ century ≤ 3 ∧ group ≤ 24 ∧ year ≤ 3 ∧
      (day ≤ 364 ∨ day = 365 ∧ year = 3 ∧ (group < 24 ∨ century = 3)) := by
  obtain ⟨century, inCentury, centuries, span, rest⟩ : ∃ century inCentury, century ≤ 3 ∧
      doe = 36524 * century + inCentury ∧ (inCentury < 36524 ∨ inCentury = 36524 ∧ century = 3) := by
    by_cases last : doe = 146096
    · exact ⟨3, 36524, by omega⟩
    · exact ⟨doe / 36524, doe % 36524, by omega⟩
  obtain ⟨year, day, years, group, days⟩ : ∃ year day, year ≤ 3 ∧ inCentury % 1461 = 365 * year + day ∧
      (day ≤ 364 ∨ day = 365 ∧ year = 3) := by
    by_cases last : inCentury % 1461 = 1460
    · exact ⟨3, 365, by omega⟩
    · exact ⟨inCentury % 1461 / 365, inCentury % 1461 % 365, by omega⟩
  exact ⟨century, inCentury / 1461, year, day, by omega⟩

theorem marchDay_span (era : Nat) {doe : Nat} (bounded : doe ≤ 146096) :
    daysBeforeSpanYear (spanYear doe) ≤ doe ∧
      MarchDay (spanYear doe + era * 400) (doe - daysBeforeSpanYear (spanYear doe)) ∧
      365 * (spanYear doe + era * 400) + (spanYear doe + era * 400) / 4 + (spanYear doe + era * 400) / 400 +
          (doe - daysBeforeSpanYear (spanYear doe)) =
        era * 146097 + doe + (spanYear doe + era * 400) / 100 := by
  obtain ⟨century, group, year, day, rfl, centuries, groups, years, days⟩ := exists_span bounded
  rw [spanYear_eq centuries groups years days]
  have fours : (100 * century + 4 * group + year + era * 400) / 4 = 25 * century + group + 100 * era := by omega
  have hundreds : (100 * century + 4 * group + year + era * 400) / 100 = century + 4 * era := by omega
  have eras : (100 * century + 4 * group + year + era * 400) / 400 = era := by omega
  have before : daysBeforeSpanYear (100 * century + 4 * group + year) = 36524 * century + 1461 * group + 365 * year := by
    have groupsOf : (100 * century + 4 * group + year) / 4 = 25 * century + group := by omega
    have centuriesOf : (100 * century + 4 * group + year) / 100 = century := by omega
    rw [daysBeforeSpanYear, groupsOf, centuriesOf]
    omega
  rw [before, Nat.add_sub_cancel_left]
  rw [fours, hundreds, eras]
  refine ⟨Nat.le_add_right _ _, ⟨by omega, fun full => ?_⟩, by omega⟩
  unfold IsLeap
  omega

end Soshal.Library.Calendar
