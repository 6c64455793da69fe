import Mathlib.Order.Basic
import Mathlib.Tactic.IntervalCases

namespace LineaSgxProver.Library.Calendar

structure DateTime where
  year : ℕ
  month : ℕ
  day : ℕ
  hour : ℕ
  minute : ℕ
  second : ℕ
  deriving DecidableEq

def IsLeap (year : ℕ) : Prop := year % 4 = 0 ∧ (year % 100 ≠ 0 ∨ year % 400 = 0)

instance (year : ℕ) : Decidable (IsLeap year) := inferInstanceAs (Decidable (_ ∧ _))

/-- The days before a month, in a year that is a leap year or not. -/
def daysBefore (leap : Bool) (month : ℕ) : ℕ :=
  [0, 31, 59, 90, 120, 151, 181, 212, 243, 273, 304, 334, 365].getD (month - 1) 0 +
    if leap = true ∧ 2 < month then 1 else 0

def daysIn (leap : Bool) (month : ℕ) : ℕ := daysBefore leap (month + 1) - daysBefore leap month

namespace DateTime

def leap (d : DateTime) : Bool := IsLeap d.year

structure Valid (d : DateTime) : Prop where
  year : 1970 ≤ d.year
  month : 1 ≤ d.month ∧ d.month ≤ 12
  day : 1 ≤ d.day ∧ d.day ≤ daysIn d.leap d.month
  hour : d.hour < 24
  minute : d.minute < 60
  second : d.second < 60

def dayOfYear (d : DateTime) : ℕ := daysBefore d.leap d.month + (d.day - 1)

end DateTime

/-- The leap days from 1970 up to a year. -/
@[irreducible] def leapDays (year : ℕ) : ℕ := (year - 1969) / 4 + (year - 1601) / 400 - (year - 1901) / 100

/-- The POSIX seconds of a date from 1970 on. -/
def posixSeconds (d : DateTime) : ℕ :=
  d.second + d.minute * 60 + d.hour * 3600 + d.dayOfYear * 86400 + (d.year - 1970) * 31536000 +
    leapDays d.year * 86400

theorem leapDays_start : leapDays 1970 = 0 := by
  unfold leapDays
  rfl

theorem leapDays_succ {year : ℕ} (h : 1970 ≤ year) :
    leapDays (year + 1) = leapDays year + if IsLeap year then 1 else 0 := by
  by_cases hleap : IsLeap year
  · rw [if_pos hleap]
    unfold IsLeap at hleap
    unfold leapDays
    omega
  · rw [if_neg hleap]
    unfold IsLeap at hleap
    unfold leapDays
    omega

def DateTime.Before (a b : DateTime) : Prop :=
  a.year < b.year ∨ a.year = b.year ∧ (a.month < b.month ∨ a.month = b.month ∧ (a.day < b.day ∨ a.day = b.day ∧
    (a.hour < b.hour ∨ a.hour = b.hour ∧ (a.minute < b.minute ∨ a.minute = b.minute ∧ a.second < b.second))))

theorem daysBefore_mono (leap : Bool) {m n : ℕ} (hm : 1 ≤ m) (hmn : m < n) (hn : n ≤ 12) :
    daysBefore leap (m + 1) ≤ daysBefore leap n := by
  have hn' : m + 1 ≤ n := hmn
  cases leap <;> interval_cases n <;> interval_cases m <;> decide

theorem daysBefore_le (leap : Bool) {m : ℕ} (hm : 1 ≤ m ∧ m ≤ 12) :
    daysBefore leap m ≤ daysBefore leap (m + 1) ∧ daysBefore leap (m + 1) ≤ 365 + if leap = true then 1 else 0 := by
  obtain ⟨hlow, hhigh⟩ := hm
  cases leap <;> interval_cases m <;> decide

section Order

variable {a b : DateTime}

theorem dayOfYear_lt (ha : a.Valid) : a.dayOfYear < daysBefore a.leap (a.month + 1) := by
  have hle := (daysBefore_le a.leap ha.month).1
  have hday := ha.day
  unfold daysIn at hday
  unfold DateTime.dayOfYear
  omega

theorem dayOfYear_le (ha : a.Valid) : a.dayOfYear < 365 + if IsLeap a.year then 1 else 0 := by
  have hlt := dayOfYear_lt ha
  have hle := (daysBefore_le a.leap ha.month).2
  simp only [DateTime.leap, decide_eq_true_eq] at hle hlt
  omega

theorem leapDays_le (year : ℕ) : leapDays year ≤ year := by
  unfold leapDays
  omega

theorem posixSeconds_bound (ha : a.Valid) (hyear : a.year < 10000) : posixSeconds a < 2 ^ 64 := by
  have hleaps := leapDays_le a.year
  have hday : a.dayOfYear < 367 := by
    have hle := dayOfYear_le ha
    split_ifs at hle <;> omega
  have hhour := ha.hour
  have hminute := ha.minute
  have hsecond := ha.second
  unfold posixSeconds
  omega

theorem yearStart_mono {y z : ℕ} (hy : 1970 ≤ y) (h : y < z) :
    (y + 1 - 1970) * 365 + leapDays (y + 1) ≤ (z - 1970) * 365 + leapDays z := by
  induction z, h using Nat.le_induction with
  | base => exact le_rfl
  | succ z hz ih =>
    have hstep : leapDays z ≤ leapDays (z + 1) := by
      rw [leapDays_succ (hy.trans (Nat.le_of_succ_le hz))]
      exact Nat.le_add_right _ _
    have hdays : (z - 1970) * 365 ≤ (z + 1 - 1970) * 365 :=
      Nat.mul_le_mul_right 365 (Nat.sub_le_sub_right (Nat.le_succ z) 1970)
    exact ih.trans (Nat.add_le_add hdays hstep)

theorem posixSeconds_lt (ha : a.Valid) (hb : b.Valid) (h : a.Before b) : posixSeconds a < posixSeconds b := by
  have ha1 := ha.hour
  have ha2 := ha.minute
  have ha3 := ha.second
  have hyear := ha.year
  unfold posixSeconds
  rcases h with hy | ⟨hy, hm | ⟨hm, h⟩⟩
  · have hday := dayOfYear_le ha
    have hstart := yearStart_mono hyear hy
    have hnext := leapDays_succ hyear
    omega
  · have hleap : a.leap = b.leap := by rw [DateTime.leap, DateTime.leap, hy]
    have hday := dayOfYear_lt ha
    have hmono := daysBefore_mono a.leap ha.month.1 hm hb.month.2
    have hdayb : daysBefore b.leap b.month ≤ b.dayOfYear := Nat.le_add_right _ _
    rw [hy]
    rw [hleap] at hday hmono
    omega
  · have hleap : a.leap = b.leap := by rw [DateTime.leap, DateTime.leap, hy]
    have hda := ha.day.1
    have hdb := hb.day.1
    have hdaya : a.dayOfYear = daysBefore b.leap b.month + (a.day - 1) := by
      rw [DateTime.dayOfYear, hleap, hm]
    have hdayb : b.dayOfYear = daysBefore b.leap b.month + (b.day - 1) := rfl
    rw [hy, hdaya, hdayb]
    omega

/-- The seconds are ordered as the dates are. -/
theorem posixSeconds_lt_iff (ha : a.Valid) (hb : b.Valid) : posixSeconds a < posixSeconds b ↔ a.Before b := by
  constructor
  · intro h
    by_contra hnot
    have hcases : a = b ∨ b.Before a := by
      unfold DateTime.Before at hnot ⊢
      by_cases hab : a = b
      · exact Or.inl hab
      · refine Or.inr ?_
        have hne : ¬ (a.year = b.year ∧ a.month = b.month ∧ a.day = b.day ∧ a.hour = b.hour ∧
            a.minute = b.minute ∧ a.second = b.second) := by
          rintro ⟨h1, h2, h3, h4, h5, h6⟩
          apply hab
          cases a
          cases b
          simp_all
        omega
    rcases hcases with rfl | hba
    · exact lt_irrefl _ h
    · exact lt_asymm h (posixSeconds_lt hb ha hba)
  · exact posixSeconds_lt ha hb

end Order

end LineaSgxProver.Library.Calendar
