import Soshal.Library.Calendar

/-! The date shown for a Unix timestamp. -/

set_option autoImplicit false

namespace Soshal.Common

open Library.Calendar

def maxTimestampSecs : Nat := 253402300799

def secsPerDay : Nat := 86400

def monthNames : List String :=
  ["Jan", "Feb", "Mar", "Apr", "May", "Jun", "Jul", "Aug", "Sep", "Oct", "Nov", "Dec"]

/-- A `u32` subtraction that would go below zero aborts. -/
def sub32 (a b : Nat) : Option Nat := if b ≤ a then some (a - b) else none

/-- An `i64` as a `u32`. -/
def asU32 (n : Int) : Nat := (n % 2 ^ 32).toNat

/-- `None` is an abort; the day of an era is small, so sums and products of its parts fit. -/
def secondsToYmd (seconds : Nat) : Option (Nat × String × Nat) :=
  if maxTimestampSecs ≤ seconds then some (9999, "Dec", 31)
  else do
    let z : Int := (seconds / secsPerDay : Nat) + 719468
    let era : Int := (if 0 ≤ z then z else z - 146096).tdiv 146097
    let doe := asU32 (z - era * 146097)
    let fewer ← sub32 doe (doe / 1460)
    let counted ← sub32 (fewer + doe / 36524) (doe / 146096)
    let yoe := counted / 365
    let y : Int := yoe + era * 400
    let before ← sub32 (365 * yoe + yoe / 4) (yoe / 100)
    let doy ← sub32 doe before
    let mp := (5 * doy + 2) / 153
    let d ← sub32 doy ((153 * mp + 2) / 5)
    let m ← (if mp < 10 then some (mp + 3) else sub32 mp 9)
    let year := asU32 (if m ≤ 2 then y + 1 else y)
    if 9999 < year then some (9999, "Dec", 31)
    else do
      let month ← sub32 m 1
      let name ← monthNames[month]?
      some (year, name, d + 1)

/-- The name of the month and the numbers around it are those of the date. -/
def Shows (seconds : Nat) (date : Date) : Prop :=
  ∃ name, monthNames[date.month - 1]? = some name ∧ secondsToYmd seconds = some (date.year, name, date.day)

def epoch : Date := ⟨1970, 1, 1, by decide, by decide⟩

theorem sub32_of_le {a b : Nat} (below : b ≤ a) : sub32 a b = some (a - b) := if_pos below

theorem monthNames_some (date : Date) : ∃ name, monthNames[date.month - 1]? = some name := by
  obtain ⟨low, high⟩ := date.month_mem
  have inside : date.month - 1 < monthNames.length := by
    show date.month - 1 < 12
    omega
  exact ⟨_, List.getElem?_eq_getElem inside⟩

theorem Shows.unique {seconds : Nat} {first second : Date} (one : Shows seconds first) (two : Shows seconds second) :
    first = second := by
  obtain ⟨name, month, shown⟩ := one
  obtain ⟨name', month', shown'⟩ := two
  obtain ⟨years, rfl, days⟩ : first.year = second.year ∧ name = name' ∧ first.day = second.day := by
    simpa using shown.symm.trans shown'
  have months : first.month - 1 = second.month - 1 :=
    (List.getElem?_inj (List.getElem?_eq_some_iff.mp month).1 (by decide)).mp (month.trans month'.symm)
  have low := first.month_mem.1
  have low' := second.month_mem.1
  obtain ⟨year, m, day, _, _⟩ := first
  obtain ⟨year', m', day', _, _⟩ := second
  obtain rfl : year = year' := years
  obtain rfl : day = day' := days
  obtain rfl : m = m' := by
    simp only at months low low'
    omega
  rfl

theorem civilMonth_eq {mp : Nat} (few : mp ≤ 11) :
    (if mp < 10 then some (mp + 3) else sub32 mp 9) = some (civilMonth mp) := by
  unfold civilMonth
  split
  · rfl
  · rw [sub32_of_le (by omega)]

theorem epoch_toDays : epoch.toDays = 719528 := by
  have years := daysBeforeYear_eq 1970
  have first : epoch.toDays = daysBeforeYear 1970 + 0 + 0 := by
    simp only [Date.toDays, epoch, daysBeforeMonth]
  omega

theorem daysBeforeYear_maxTimestampSecs : daysBeforeYear 10000 = epoch.toDays + maxTimestampSecs / secsPerDay + 1 := by
  have years := daysBeforeYear_eq 10000
  rw [epoch_toDays]
  unfold maxTimestampSecs secsPerDay
  omega

theorem year_le_of_toDays {date : Date} (early : date.toDays < daysBeforeYear 10000) : date.year ≤ 9999 := by
  by_contra late
  have before : daysBeforeYear 10000 ≤ daysBeforeYear date.year := daysBeforeYear_mono (Nat.not_le.mp late)
  have started : daysBeforeYear date.year ≤ date.toDays := (Nat.le_add_right _ _).trans (Nat.le_add_right _ _)
  omega

theorem secondsToYmd_of_span {seconds era doe : Nat} (early : seconds < maxTimestampSecs) (bounded : doe ≤ 146096)
    (split : seconds / secsPerDay + 719468 = era * 146097 + doe) :
    ∃ date, Shows seconds date ∧ date.toDays = epoch.toDays + seconds / secsPerDay := by
  obtain ⟨started, within, counted⟩ := marchDay_span era bounded
  have total := toDays_ofMarch within
  generalize named : ofMarch within = date at total
  have sum : date.toDays = epoch.toDays + seconds / secsPerDay := by
    rw [epoch_toDays]
    omega
  have limit := daysBeforeYear_maxTimestampSecs
  have days : seconds / secsPerDay ≤ maxTimestampSecs / secsPerDay := Nat.div_le_div_right (Nat.le_of_lt early)
  have small : date.year ≤ 9999 := year_le_of_toDays (by omega)
  obtain ⟨name, month⟩ := monthNames_some date
  refine ⟨date, ⟨name, month, ?_⟩, sum⟩
  have z : ((seconds / secsPerDay : Nat) : Int) + 719468 = ((era * 146097 + doe : Nat) : Int) := by
    exact_mod_cast split
  have eraQuotient : ((era * 146097 + doe : Nat) : Int).tdiv 146097 = era := by
    refine (Int.ofNat_tdiv _ 146097).symm.trans ?_
    omega
  have doeRest : asU32 (((era * 146097 + doe : Nat) : Int) - era * 146097) = doe := by
    unfold asU32
    omega
  have fewer : doe / 1460 ≤ doe := Nat.div_le_self _ _
  have counted : doe / 146096 ≤ doe - doe / 1460 + doe / 36524 := by omega
  have years : (doe - doe / 1460 + doe / 36524 - doe / 146096) / 365 = spanYear doe := rfl
  have leaps : spanYear doe / 100 ≤ 365 * spanYear doe + spanYear doe / 4 := by omega
  have before : 365 * spanYear doe + spanYear doe / 4 - spanYear doe / 100 = daysBeforeSpanYear (spanYear doe) := rfl
  generalize dayOfYear : doe - daysBeforeSpanYear (spanYear doe) = doy at within
  have last := within.bounded
  have few : (5 * doy + 2) / 153 ≤ 11 := by omega
  have monthStart : (153 * ((5 * doy + 2) / 153) + 2) / 5 ≤ doy := by omega
  obtain ⟨yearOf, monthOf, dayOf⟩ : date.year = civilYear (spanYear doe + era * 400) ((5 * doy + 2) / 153) ∧
      date.month = civilMonth ((5 * doy + 2) / 153) ∧
      date.day = doy - (153 * ((5 * doy + 2) / 153) + 2) / 5 + 1 := by
    subst dayOfYear
    rw [← named]
    exact ⟨rfl, rfl, rfl⟩
  have year : asU32 (if date.month ≤ 2 then (spanYear doe : Int) + era * 400 + 1 else spanYear doe + era * 400) =
      date.year := by
    rw [yearOf, civilYear, ← monthOf] at small ⊢
    unfold asU32
    split <;> rename_i part <;> simp only [part, if_true, if_false] at small <;> omega
  unfold secondsToYmd
  rw [if_neg (Nat.not_le.mpr early)]
  simp only [z, if_pos (Int.natCast_nonneg _), eraQuotient, doeRest, sub32_of_le fewer, sub32_of_le counted, years,
    sub32_of_le leaps, before, sub32_of_le started, Option.bind_eq_bind, Option.bind_some, dayOfYear,
    sub32_of_le monthStart, civilMonth_eq few, ← monthOf, year, if_neg (Nat.not_lt.mpr small),
    sub32_of_le date.month_mem.1, month, ← dayOf]

/-- Up to the end of the year 9999 the date shown exists, lies as many days after the epoch as
the timestamp has, and is never earlier than the date of an earlier timestamp. -/
theorem secondsToYmd_calendar :
    (∀ seconds ≤ maxTimestampSecs, ∃ date, Shows seconds date ∧ date.toDays = epoch.toDays + seconds / 86400) ∧
      ∀ earlier later, earlier ≤ later → later ≤ maxTimestampSecs → ∀ first second,
        Shows earlier first → Shows later second → first.AtMost second := by
  have converts : ∀ seconds ≤ maxTimestampSecs,
      ∃ date, Shows seconds date ∧ date.toDays = epoch.toDays + seconds / 86400 := by
    intro seconds bounded
    rcases Nat.lt_or_eq_of_le bounded with early | rfl
    · have split := Nat.div_add_mod' (seconds / secsPerDay + 719468) 146097
      exact secondsToYmd_of_span early (Nat.le_of_lt_succ (Nat.mod_lt _ (by decide))) split.symm
    · -- the last second is answered before any arithmetic
      refine ⟨newYearsEve 9999, ⟨"Dec", rfl, if_pos (Nat.le_refl _)⟩, ?_⟩
      have eve : (newYearsEve 9999).toDays + 1 = daysBeforeYear 10000 := newYearsEve_toDays 9999
      have limit := daysBeforeYear_maxTimestampSecs
      unfold secsPerDay at limit
      omega
  refine ⟨converts, fun earlier later order bounded first second one two => ?_⟩
  obtain ⟨date, shown, days⟩ := converts earlier (order.trans bounded)
  obtain ⟨date', shown', days'⟩ := converts later bounded
  obtain rfl := one.unique shown
  obtain rfl := two.unique shown'
  refine Date.atMost_of_toDays ?_
  rw [days, days']
  exact Nat.add_le_add_left (Nat.div_le_div_right order) _

end Soshal.Common
