import Mathlib.Data.Nat.Find
import Mathlib.Tactic.Linarith

/-!
# The Gregorian calendar

Dates and the number of their day, counted from 0 for the first of January of the year 1. The day
of a number is found by searching the last year and the last month that begin no later, so that
`ofDay` is the inverse of `day` (`ofDay_day`, `day_ofDay`). A time of the day goes with them:
`ofSeconds` splits a number of seconds since an epoch, and `seconds` counts them again.
-/

set_option autoImplicit false

namespace Calendar

/-! ## Years -/

def isLeap (year : ℕ) : Bool := year % 4 == 0 && (year % 100 != 0 || year % 400 == 0)

/-- The days of the years before, from year 1 on. -/
def daysBeforeYear (year : ℕ) : ℕ :=
  (year - 1) * 365 + (year - 1) / 4 - (year - 1) / 100 + (year - 1) / 400

def yearLength (year : ℕ) : ℕ := if isLeap year then 366 else 365

theorem isLeap_iff (year : ℕ) : isLeap year = true ↔ 4 ∣ year ∧ (¬ 100 ∣ year ∨ 400 ∣ year) := by
  simp [isLeap, Nat.dvd_iff_mod_eq_zero]

/-- Every fourth year has a day more, but for the centuries that 400 does not divide. -/
theorem daysBeforeYear_succ {year : ℕ} (h : 1 ≤ year) :
    daysBeforeYear (year + 1) = daysBeforeYear year + yearLength year := by
  obtain ⟨y, rfl⟩ : ∃ y, year = y + 1 := ⟨year - 1, by omega⟩
  -- each count of multiples goes up by one at a multiple
  have h4 : (y + 1) / 4 = y / 4 + if 4 ∣ y + 1 then 1 else 0 := Nat.succ_div
  have h100 : (y + 1) / 100 = y / 100 + if 100 ∣ y + 1 then 1 else 0 := Nat.succ_div
  have h400 : (y + 1) / 400 = y / 400 + if 400 ∣ y + 1 then 1 else 0 := Nat.succ_div
  have hle : y / 100 ≤ y / 4 := Nat.div_le_div_left (by decide) (by decide)
  have hdvd : 400 ∣ y + 1 → 100 ∣ y + 1 := (show 100 ∣ 400 by decide).trans
  have hdvd' : 100 ∣ y + 1 → 4 ∣ y + 1 := (show 4 ∣ 100 by decide).trans
  simp only [daysBeforeYear, yearLength, isLeap_iff, Nat.add_sub_cancel, h4, h100, h400]
  -- by the three rules, each of which implies the one before
  by_cases c4 : 4 ∣ y + 1
  · by_cases c100 : 100 ∣ y + 1
    · by_cases c400 : 400 ∣ y + 1
      · simp only [c4, c100, c400, if_true, true_and, not_true_eq_false, or_true]
        omega
      · simp only [c4, c100, c400, if_true, if_false, true_and, not_true_eq_false, or_false]
        omega
    · have c400 : ¬ 400 ∣ y + 1 := fun h => c100 (hdvd h)
      simp only [c4, c100, c400, if_true, if_false, true_and, not_false_eq_true, or_false]
      omega
  · have c100 : ¬ 100 ∣ y + 1 := fun h => c4 (hdvd' h)
    have c400 : ¬ 400 ∣ y + 1 := fun h => c100 (hdvd h)
    simp only [c4, c100, c400, if_false, false_and]
    omega

theorem le_daysBeforeYear (year : ℕ) : (year - 1) * 365 ≤ daysBeforeYear year := by
  unfold daysBeforeYear
  omega

theorem daysBeforeYear_lt_succ {year : ℕ} (h : 1 ≤ year) :
    daysBeforeYear year < daysBeforeYear (year + 1) := by
  rw [daysBeforeYear_succ h, yearLength]
  split_ifs <;> omega

theorem daysBeforeYear_mono {a b : ℕ} (ha : 1 ≤ a) (h : a ≤ b) :
    daysBeforeYear a ≤ daysBeforeYear b := by
  induction b, h using Nat.le_induction with
  | base => exact le_rfl
  | succ b hab ih => exact ih.trans (daysBeforeYear_lt_succ (ha.trans hab)).le

/-- The year of a day: the last one that does not begin later. -/
def yearOf (n : ℕ) : ℕ := Nat.findGreatest (fun year => daysBeforeYear year ≤ n) (n / 365 + 1)

theorem yearOf_pos (n : ℕ) : 1 ≤ yearOf n :=
  Nat.le_findGreatest (Nat.le_add_left 1 _) (Nat.zero_le n)

theorem daysBeforeYear_yearOf (n : ℕ) : daysBeforeYear (yearOf n) ≤ n :=
  Nat.findGreatest_spec (P := fun year => daysBeforeYear year ≤ n) (Nat.le_add_left 1 _)
    (Nat.zero_le n)

theorem lt_daysBeforeYear_succ (n : ℕ) : n < daysBeforeYear (yearOf n + 1) := by
  by_cases hbound : yearOf n + 1 ≤ n / 365 + 1
  · exact Nat.lt_of_not_le
      (Nat.findGreatest_is_greatest (P := fun year => daysBeforeYear year ≤ n)
        (Nat.lt_succ_self _) hbound)
  · have h := le_daysBeforeYear (yearOf n + 1)
    omega

/-- The year is told by the days around it. -/
theorem yearOf_eq {n year : ℕ} (hle : daysBeforeYear year ≤ n)
    (hlt : n < daysBeforeYear (year + 1)) : yearOf n = year := by
  rcases Nat.lt_trichotomy (yearOf n) year with h | h | h
  · have hmono := daysBeforeYear_mono (Nat.le_add_left 1 _) (Nat.succ_le_of_lt h)
    have := lt_daysBeforeYear_succ n
    omega
  · exact h
  · have hmono := daysBeforeYear_mono (Nat.le_add_left 1 _) (Nat.succ_le_of_lt h)
    have := daysBeforeYear_yearOf n
    omega

/-! ## Months -/

/-- The days of the months before, from month 1 on. -/
def daysBeforeMonth (leap : Bool) (month : ℕ) : ℕ :=
  [0, 0, 31, 59, 90, 120, 151, 181, 212, 243, 273, 304, 334].getD month 0
    + if leap && decide (2 < month) then 1 else 0

def daysInMonth (leap : Bool) (month : ℕ) : ℕ :=
  [0, 31, if leap then 29 else 28, 31, 30, 31, 30, 31, 31, 30, 31, 30, 31].getD month 0

/-- The month of a day of the year. -/
def monthOf (leap : Bool) (n : ℕ) : ℕ :=
  Nat.findGreatest (fun month => 1 ≤ month ∧ daysBeforeMonth leap month ≤ n) 12

theorem monthOf_spec : ∀ leap : Bool, ∀ n < (if leap then 366 else 365),
    1 ≤ monthOf leap n ∧ monthOf leap n ≤ 12 ∧ daysBeforeMonth leap (monthOf leap n) ≤ n ∧
      n < daysBeforeMonth leap (monthOf leap n) + daysInMonth leap (monthOf leap n) := by
  decide +kernel

/-! ## Dates -/

structure Date where
  year : ℕ
  month : ℕ
  day : ℕ
  deriving DecidableEq, Repr

/-- The date exists. -/
def Date.Valid (date : Date) : Prop :=
  1 ≤ date.year ∧ 1 ≤ date.month ∧ date.month ≤ 12 ∧ 1 ≤ date.day ∧
    date.day ≤ daysInMonth (isLeap date.year) date.month

instance (date : Date) : Decidable date.Valid := inferInstanceAs (Decidable (_ ∧ _))

/-- The number of the day of a date. -/
def dayNumber (date : Date) : ℕ :=
  daysBeforeYear date.year + daysBeforeMonth (isLeap date.year) date.month + (date.day - 1)

def ofDay (n : ℕ) : Date :=
  let year := yearOf n
  let rest := n - daysBeforeYear year
  let month := monthOf (isLeap year) rest
  ⟨year, month, rest - daysBeforeMonth (isLeap year) month + 1⟩

theorem dayOfYear_lt (n : ℕ) :
    n - daysBeforeYear (yearOf n) < if isLeap (yearOf n) then 366 else 365 := by
  have hlt := lt_daysBeforeYear_succ n
  rw [daysBeforeYear_succ (yearOf_pos n), yearLength] at hlt
  have hle := daysBeforeYear_yearOf n
  split_ifs at hlt ⊢ <;> omega

theorem ofDay_valid (n : ℕ) : (ofDay n).Valid := by
  obtain ⟨h1, h2, h3, h4⟩ := monthOf_spec _ _ (dayOfYear_lt n)
  refine ⟨yearOf_pos n, h1, h2, Nat.le_add_left 1 _, ?_⟩
  simp only [ofDay]
  omega

/-- **The date of a day has the number of the day.** -/
theorem dayNumber_ofDay (n : ℕ) : dayNumber (ofDay n) = n := by
  obtain ⟨-, -, h3, -⟩ := monthOf_spec _ _ (dayOfYear_lt n)
  have hle := daysBeforeYear_yearOf n
  simp only [dayNumber, ofDay]
  omega

theorem yearOf_mono {m n : ℕ} (h : m ≤ n) : yearOf m ≤ yearOf n := by
  by_contra hlt
  have hmono := daysBeforeYear_mono (Nat.le_add_left 1 _)
    (Nat.succ_le_of_lt (Nat.lt_of_not_le hlt))
  have h1 := lt_daysBeforeYear_succ n
  have h2 := daysBeforeYear_yearOf m
  omega

/-! ## Times -/

/-- A time that is broken down. -/
structure Time where
  date : Date
  hour : ℕ
  minute : ℕ
  second : ℕ
  deriving DecidableEq, Repr

/-- The time so many seconds after the beginning of the day `epoch`. -/
def ofSeconds (epoch t : ℕ) : Time where
  date := ofDay (epoch + t / 86400)
  hour := t % 86400 / 3600
  minute := t % 3600 / 60
  second := t % 60

/-- The seconds of a time, from the beginning of the day `epoch`. -/
def seconds (epoch : ℕ) (time : Time) : ℕ :=
  (dayNumber time.date - epoch) * 86400 + time.hour * 3600 + time.minute * 60 + time.second

theorem seconds_ofSeconds (epoch t : ℕ) : seconds epoch (ofSeconds epoch t) = t := by
  simp only [seconds, ofSeconds, dayNumber_ofDay]
  omega

end Calendar
