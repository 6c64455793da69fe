import LineaSgxProver.Verifier.Asn1Decode
import LineaSgxProver.Library.Calendar
import Mathlib.Tactic.Linarith

namespace LineaSgxProver.Verifier.X509DateUtils

open Library Library.Calendar

def uint8 (n : ℕ) : Checked ℕ := if n < 2 ^ 8 then .ok n else .error .overflow

def uint16 (n : ℕ) : Checked ℕ := if n < 2 ^ 16 then .ok n else .error .overflow

/-- `uint8(x509Time[i]) - 48` -/
def digitAt (x509Time : Bytes) (i : ℕ) : Checked ℕ := do
  let c ← index x509Time i
  checkedSub c.toNat 48

/-- `(uint8(x509Time[i]) - 48) * 10 + uint8(x509Time[i + 1]) - 48` -/
def twoDigitsAt (x509Time : Bytes) (i : ℕ) : Checked ℕ := do
  let d ← digitAt x509Time i
  let tens ← uint8 (d * 10)
  let c ← index x509Time (i + 1)
  let sum ← uint8 (tens + c.toNat)
  checkedSub sum 48

def isLeapYear (year : ℕ) : Bool :=
  if year % 4 ≠ 0 then false
  else if year % 100 ≠ 0 then true
  else if year % 400 ≠ 0 then false
  else true

def addYears : ℕ → ℕ → ℕ → ℕ
  | 0, _, timestamp => timestamp
  | years + 1, i, timestamp => addYears years (i + 1) (timestamp + if isLeapYear i then 31622400 else 31536000)

def monthDays (year : ℕ) : List ℕ :=
  [31, if isLeapYear year then 29 else 28, 31, 30, 31, 30, 31, 31, 30, 31, 30, 31]

def addMonths (monthDays : List ℕ) : ℕ → ℕ → ℕ → Checked ℕ
  | 0, _, timestamp => .ok timestamp
  | months + 1, i, timestamp => do
    let days ← index monthDays (i - 1)
    addMonths monthDays months (i + 1) (timestamp + days * 86400)

def toUnixTimestamp (year month day hour minute second : ℕ) : Checked ℕ := do
  let timestamp := addYears (year - 1970) 1970 0
  let timestamp ← addMonths (monthDays year) (month - 1) 1 timestamp
  let days ← checkedSub day 1
  .ok (timestamp + days * 86400 + hour * 3600 + minute * 60 + second)

/-- The years before the last two digits, and where these stand. -/
def century (x509Time : Bytes) : Checked (ℕ × ℕ) :=
  if x509Time.length = 13 then do
    let d ← digitAt x509Time 0
    .ok (if d < 5 then 2000 else 1900, 0)
  else do
    let d ← digitAt x509Time 0
    let thousands ← uint16 (d * 1000)
    let e ← digitAt x509Time 1
    let hundreds ← uint8 (e * 100)
    let yrs ← uint16 (thousands + hundreds)
    .ok (yrs, 2)

def toTimestamp (x509Time : Bytes) : Checked ℕ := do
  let (yrs, offset) ← century x509Time
  let lastDigits ← twoDigitsAt x509Time offset
  let yrs ← uint16 (yrs + lastDigits)
  let mnths ← twoDigitsAt x509Time (offset + 2)
  let dys ← twoDigitsAt x509Time (offset + 4)
  let hrs ← twoDigitsAt x509Time (offset + 6)
  let mins ← twoDigitsAt x509Time (offset + 8)
  let secs ← twoDigitsAt x509Time (offset + 10)
  toUnixTimestamp yrs mnths dys hrs mins secs

section Timestamp

theorem isLeapYear_eq (year : ℕ) : isLeapYear year = decide (IsLeap year) := by
  unfold isLeapYear IsLeap
  split_ifs <;> simp_all

theorem addYears_eq (years i timestamp : ℕ) (hi : 1970 ≤ i) :
    addYears years i timestamp + leapDays i * 86400 =
      timestamp + years * 31536000 + leapDays (i + years) * 86400 := by
  induction years generalizing i timestamp with
  | zero => rw [addYears, Nat.zero_mul, Nat.add_zero, Nat.add_zero]
  | succ years ih =>
    have hstep := leapDays_succ hi
    have hrest := ih (i + 1) (timestamp + if isLeapYear i then 31622400 else 31536000) (by omega)
    have hassoc : i + 1 + years = i + (years + 1) := by omega
    rw [addYears]
    rw [hassoc, hstep] at hrest
    generalize addYears years (i + 1) _ = total at hrest ⊢
    by_cases hleap : IsLeap i
    · have hcode : isLeapYear i = true := by rw [isLeapYear_eq, decide_eq_true hleap]
      rw [if_pos hleap, hcode, if_pos rfl] at hrest
      linarith only [hrest]
    · have hcode : isLeapYear i = false := by rw [isLeapYear_eq, decide_eq_false hleap]
      rw [if_neg hleap, hcode, if_neg Bool.false_ne_true] at hrest
      linarith only [hrest]

theorem addMonths_eq (year timestamp : ℕ) {month : ℕ} (hmonth : 1 ≤ month ∧ month ≤ 12) :
    addMonths (monthDays year) (month - 1) 1 timestamp =
      .ok (timestamp + daysBefore (isLeapYear year) month * 86400) := by
  obtain ⟨hlow, hhigh⟩ := hmonth
  unfold monthDays
  cases isLeapYear year <;> interval_cases month <;>
    simp [addMonths, index, daysBefore, Nat.add_assoc]

theorem toUnixTimestamp_eq {d : DateTime} (hd : d.Valid) :
    toUnixTimestamp d.year d.month d.day d.hour d.minute d.second = .ok (posixSeconds d) := by
  have hyears := addYears_eq (d.year - 1970) 1970 0 le_rfl
  have hyear : 1970 + (d.year - 1970) = d.year := Nat.add_sub_cancel' hd.year
  have hday : checkedSub d.day 1 = .ok (d.day - 1) := checkedSub_eq_ok.mpr ⟨hd.day.1, rfl⟩
  rw [hyear, leapDays_start] at hyears
  rw [toUnixTimestamp]
  simp only [addMonths_eq _ _ hd.month, hday, ok_bind]
  have hleap : isLeapYear d.year = d.leap := isLeapYear_eq d.year
  rw [hleap, posixSeconds, DateTime.dayOfYear]
  generalize addYears (d.year - 1970) 1970 0 = total at hyears ⊢
  apply congrArg Except.ok
  linarith only [hyears]

end Timestamp

/-! The two ways a certificate writes a date. -/

def twoDigits (n : ℕ) : Bytes := [UInt8.ofNat (48 + n / 10), UInt8.ofNat (48 + n % 10)]

def withinYear (d : DateTime) : Bytes :=
  twoDigits d.month ++ twoDigits d.day ++ twoDigits d.hour ++ twoDigits d.minute ++ twoDigits d.second ++ [0x5A]

def utcTime (d : DateTime) : Bytes := twoDigits (d.year % 100) ++ withinYear d

def generalizedTime (d : DateTime) : Bytes := twoDigits (d.year / 100) ++ twoDigits (d.year % 100) ++ withinYear d

section Texts

theorem digit_toNat {n : ℕ} (hn : n < 10) : (UInt8.ofNat (48 + n)).toNat = 48 + n := by
  rw [UInt8.toNat_ofNat', Nat.mod_eq_of_lt (by omega)]

theorem digitAt_eq {x509Time : Bytes} {i n : ℕ} (hn : n < 10)
    (h : x509Time[i]? = some (UInt8.ofNat (48 + n))) : digitAt x509Time i = .ok n := by
  have hdigit : checkedSub (48 + n) 48 = .ok n := checkedSub_eq_ok.mpr ⟨by omega, by omega⟩
  rw [digitAt, index_eq_ok.mpr h, ok_bind, digit_toNat hn, hdigit]

theorem twoDigitsAt_eq {x509Time : Bytes} {i n : ℕ} (hn : n < 100)
    (h : (x509Time.drop i).take 2 = twoDigits n) : twoDigitsAt x509Time i = .ok n := by
  have hfirst : x509Time[i]? = some (UInt8.ofNat (48 + n / 10)) := by
    have hhead := congrArg (·[0]?) h
    simpa [twoDigits] using hhead
  have hsecond : x509Time[i + 1]? = some (UInt8.ofNat (48 + n % 10)) := by
    have hlast := congrArg (·[1]?) h
    simpa [twoDigits] using hlast
  have htens : uint8 (n / 10 * 10) = .ok (n / 10 * 10) := if_pos (by omega)
  have hsum : uint8 (n / 10 * 10 + (48 + n % 10)) = .ok (48 + n) := by
    rw [uint8, if_pos (by omega)]
    congr 1
    omega
  have hdigits : checkedSub (48 + n) 48 = .ok n := checkedSub_eq_ok.mpr ⟨by omega, by omega⟩
  rw [twoDigitsAt, digitAt_eq (by omega) hfirst, ok_bind, htens, ok_bind, index_eq_ok.mpr hsecond, ok_bind,
    digit_toNat (by omega), hsum, ok_bind, hdigits]

theorem toTimestamp_of_century {d : DateTime} (hd : d.Valid) (hyear : d.year < 10000) {x509Time start : Bytes}
    (htext : x509Time = start ++ (twoDigits (d.year % 100) ++ withinYear d))
    (hcentury : century x509Time = .ok (d.year / 100 * 100, start.length)) :
    toTimestamp x509Time = .ok (posixSeconds d) := by
  have hdayIn : daysIn d.leap d.month ≤ 31 := by
    obtain ⟨hlow, hhigh⟩ := hd.month
    generalize d.month = month at hlow hhigh ⊢
    cases d.leap <;> interval_cases month <;> decide
  have hday := hd.day
  have hmonth := hd.month
  have hhour := hd.hour
  have hminute := hd.minute
  have hsecond := hd.second
  have hread : ∀ i n, n < 100 → ((twoDigits (d.year % 100) ++ withinYear d).drop i).take 2 = twoDigits n →
      twoDigitsAt x509Time (start.length + i) = .ok n := by
    intro i n hn h
    apply twoDigitsAt_eq hn
    rw [htext, ← List.drop_drop, List.drop_left, h]
  have hyrs : uint16 (d.year / 100 * 100 + d.year % 100) = .ok d.year := by
    rw [uint16, if_pos (by omega)]
    congr 1
    omega
  rw [toTimestamp, hcentury]
  simp only [ok_bind]
  have hlast : twoDigitsAt x509Time start.length = .ok (d.year % 100) := hread 0 (d.year % 100) (by omega) rfl
  rw [hlast, ok_bind, hyrs, ok_bind, hread 2 d.month (by omega) rfl, ok_bind,
    hread 4 d.day (by omega) rfl, ok_bind, hread 6 d.hour (by omega) rfl, ok_bind,
    hread 8 d.minute (by omega) rfl, ok_bind, hread 10 d.second (by omega) rfl, ok_bind]
  exact toUnixTimestamp_eq hd

theorem toTimestamp_utcTime {d : DateTime} (hd : d.Valid) (hyear : d.year < 2050) :
    toTimestamp (utcTime d) = .ok (posixSeconds d) := by
  have hlow := hd.year
  have hdigit : digitAt (utcTime d) 0 = .ok (d.year % 100 / 10) := digitAt_eq (by omega) rfl
  refine toTimestamp_of_century hd (by omega) (List.nil_append _).symm ?_
  have hlen : (utcTime d).length = 13 := rfl
  rw [century, if_pos hlen, hdigit, ok_bind]
  split_ifs
  · simp only [Except.ok.injEq, Prod.mk.injEq, List.length_nil, and_true]
    omega
  · simp only [Except.ok.injEq, Prod.mk.injEq, List.length_nil, and_true]
    omega

theorem century_generalizedTime {d : DateTime} (hyear : d.year < 10000) :
    century (generalizedTime d) =
      if d.year / 100 % 10 ≤ 2 then .ok (d.year / 100 * 100, 2) else .error .overflow := by
  have hfirst : digitAt (generalizedTime d) 0 = .ok (d.year / 100 / 10) := digitAt_eq (by omega) rfl
  have hsecond : digitAt (generalizedTime d) 1 = .ok (d.year / 100 % 10) := digitAt_eq (by omega) rfl
  have hthousands : uint16 (d.year / 100 / 10 * 1000) = .ok (d.year / 100 / 10 * 1000) := if_pos (by omega)
  have hlen : (generalizedTime d).length = 15 := rfl
  rw [century, if_neg (by omega), hfirst, ok_bind, hthousands, ok_bind, hsecond, ok_bind]
  split_ifs with hhundreds
  · have hfits : uint8 (d.year / 100 % 10 * 100) = .ok (d.year / 100 % 10 * 100) := if_pos (by omega)
    have hsum : uint16 (d.year / 100 / 10 * 1000 + d.year / 100 % 10 * 100) = .ok (d.year / 100 * 100) := by
      rw [uint16, if_pos (by omega)]
      congr 1
      omega
    rw [hfits, ok_bind, hsum, ok_bind]
  · have hover : uint8 (d.year / 100 % 10 * 100) = .error .overflow := if_neg (by omega)
    rw [hover, error_bind]

theorem toTimestamp_generalizedTime {d : DateTime} (hd : d.Valid) (hyear : d.year < 10000) :
    toTimestamp (generalizedTime d) =
      if d.year / 100 % 10 ≤ 2 then .ok (posixSeconds d) else .error .overflow := by
  have hcentury := century_generalizedTime hyear
  split_ifs with hhundreds
  · rw [if_pos hhundreds] at hcentury
    exact toTimestamp_of_century hd hyear (List.append_assoc _ _ _) hcentury
  · rw [if_neg hhundreds] at hcentury
    rw [toTimestamp, hcentury, error_bind]

end Texts

end LineaSgxProver.Verifier.X509DateUtils
