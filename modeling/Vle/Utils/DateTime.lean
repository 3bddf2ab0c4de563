import Vle.Lib.Calendar
import Mathlib.Tactic

/-!
# Dates

`intern_date` of `DateTime.cpp`, with the conversions between dates and Julian days, and the
functions of `DateTime` over it. A Julian day is a `double`, read as an exact rational; integers
are 32-bit `int`s, and a function whose arithmetic leaves them has no value.
-/

namespace Vle.Utils

open Vle.Lib.Calendar

/-- The value of an `int` expression; beyond 32 bits the language gives none. -/
def int (x : ℤ) : Option ℤ := if -2147483648 ≤ x ∧ x ≤ 2147483647 then some x else none

/-- A sum of `int`s from the left. -/
def intSum (xs : List ℤ) : Option ℤ := xs.foldlM (fun s x => int (s + x)) 0

/-- `static_cast<int>` of a `double`. -/
def castInt (x : ℚ) : Option ℤ := int (if 0 ≤ x then ⌊x⌋ else ⌈x⌉)

def intern_isLeapYear (year : ℤ) : Bool :=
  if year.tmod 4 ≠ 0 then false
  else if year.tmod 100 ≠ 0 then true
  else if year.tmod 400 ≠ 0 then false
  else true

def intern_aYear (year : ℤ) : ℤ := if intern_isLeapYear year then 366 else 365

def intern_aMonth (year month : ℤ) : ℤ :=
  if month = 1 then 31
  else if month = 2 then if intern_isLeapYear year then 29 else 28
  else if month = 3 then 31
  else if month = 4 then 30
  else if month = 5 then 31
  else if month = 6 then 30
  else if month = 7 then 31
  else if month = 8 then 31
  else if month = 9 then 30
  else if month = 10 then 31
  else if month = 11 then 30
  else if month = 12 then 31
  else -2147483648

/-- The members of `intern_date`. -/
structure InternDate where
  myear : ℤ := 1400
  mmonth : ℤ := 1
  mday : ℤ := 1
  mhours : ℤ := 0
  mminutes : ℤ := 0
  mseconds : ℤ := 0
  deriving DecidableEq, Repr

/-- The formats of `toString` and `fromString`. -/
inductive StrFormat where
  | extended
  | ymd
  | hms
  deriving DecidableEq

namespace InternDate

/-- Set the time of day from a part of a day, between 0 and 1. -/
def initPartOfDay (d : InternDate) (partofday : ℚ) : InternDate :=
  let f := partofday * 24
  let mhours := ⌊f⌋
  let f := (f - ⌊f⌋) * 60
  let mminutes := ⌊f⌋
  let f := (f - ⌊f⌋) * 60
  { d with mhours := mhours, mminutes := mminutes, mseconds := ⌊f⌋ }

/-- The constructor from a date and a part of a day. -/
def ofDate (year month day : ℤ) (partofday : ℚ) : InternDate :=
  initPartOfDay { myear := year, mmonth := month, mday := day } partofday

/-- A number below 10 has a zero put before it. -/
def padded (x : ℤ) : String := (if x < 10 then "0" else "") ++ toString x

def toString (d : InternDate) (fmt : StrFormat) : String :=
  (if fmt ≠ .hms then ToString.toString d.myear ++ "-" ++ padded d.mmonth ++ "-" ++ padded d.mday else "") ++
    (if fmt = .extended then " " else "") ++
    if fmt ≠ .ymd then
      padded d.mhours ++ ":" ++ padded d.mminutes ++ ":" ++ padded d.mseconds
    else ""

/-- The date of a Julian day. The quotient by 146097 is one of `double`s. -/
def fromJulianDay (julianDay : ℚ) : Option InternDate := do
  let J : ℤ := if 0 ≤ julianDay then ⌊julianDay⌋ else ⌈julianDay⌉
  let partofday := julianDay - J
  let y := 4716
  let j := 1401
  let m := 2
  let n := 12
  let r := 4
  let p := 1461
  let v := 3
  let u := 5
  let s := 153
  let w := 2
  let B := 274277
  let C := -38
  let f ← castInt (J + j + (((4 * J + B) / 146097) * 3) / 4 + C)
  let e ← intSum [← int (r * f), v]
  let g := (e.tmod p).tdiv r
  let h := u * g + w
  let mday := (h.tmod s).tdiv u + 1
  let mmonth := ((h.tdiv s + m).tmod n) + 1
  let myear := e.tdiv p - y + (n + m - mmonth).tdiv n
  return ofDate myear mmonth mday partofday

def equals (d e : InternDate) : Bool :=
  d.myear == e.myear && d.mmonth == e.mmonth && d.mday == e.mday

/-- Whether a date is valid. -/
def isValid (d : InternDate) : Bool :=
  if 1 > d.mmonth || d.mmonth > 12 then false
  else if 1 > d.mday || d.mday > intern_aMonth d.myear d.mmonth then false
  else if 0 > d.mhours || d.mhours > 23 then false
  else if 0 > d.mminutes || d.mminutes > 60 then false
  else if 0 > d.mseconds || d.mseconds > 60 then false
  else true

/-- One turn of the loop of `addMonths`. The length of the month is asked of `intern_aMonth` with
the month in the place of the year. -/
def addMonthsTurn (d : InternDate) : Option InternDate := do
  let myear ← int (d.myear + 1)
  let mmonth := d.mmonth - 12
  let nbDaysInMonth := intern_aMonth mmonth myear
  if d.mday > nbDaysInMonth then
    return { d with
      myear := myear, mmonth := mmonth + 1, mday := ← int (d.mday - nbDaysInMonth) }
  else
    return { d with myear := myear, mmonth := mmonth }

/-- The loop of `addMonths`, for at most `fuel` turns. -/
def addMonthsLoop : ℕ → InternDate → Option InternDate
  | 0, d => some d
  | fuel + 1, d => if d.mmonth > 12 then d.addMonthsTurn >>= addMonthsLoop fuel else some d

/-- Add months to the date. Each turn takes months away, so there are no more turns than months. -/
def addMonths (d : InternDate) (months : ℤ) : Option InternDate := do
  let mmonth ← int (d.mmonth + months)
  addMonthsLoop mmonth.toNat { d with mmonth := mmonth }

/-- The day number of a date. -/
def julianDayNumber (d : InternDate) : Option ℤ := do
  let a := (← int (14 - d.mmonth)).tdiv 12
  let y ← intSum [d.myear, 4800, -a]
  let m ← intSum [d.mmonth, 12 * a, -3]
  intSum [d.mday, (← intSum [← int (153 * m), 2]).tdiv 5, ← int (365 * y), y.tdiv 4,
    -(y.tdiv 100), y.tdiv 400, -32045]

def julianDay (d : InternDate) : Option ℚ := do
  let res := (← d.julianDayNumber : ℚ)
  return res + (d.mhours : ℚ) / 24 + (d.mminutes : ℚ) / 1440 + (d.mseconds : ℚ) / 86400

/-- The day of the week, from Sunday, which is 0. -/
def dayOfWeek (d : InternDate) : Option ℤ := do
  let a := (← int (14 - d.mmonth)).tdiv 12
  let y ← int (d.myear - a)
  let m ← intSum [d.mmonth, 12 * a, -2]
  let sum ← intSum [d.mday, y, y.tdiv 4, -(y.tdiv 100), y.tdiv 400, (← int (31 * m)).tdiv 12]
  return sum.tmod 7

/-- The number of the week in the year. -/
def weekOfYear (d : InternDate) : Option ℤ := do
  let julianbegin ← castInt (← (ofDate d.myear 1 1 0).julianDay)
  let juliantoday ← castInt (← d.julianDay)
  let day := (← int (julianbegin + 3)).tmod 7
  let week := (← intSum [juliantoday, day, -julianbegin, 4]).tdiv 7
  if 1 ≤ week ∧ week ≤ 52 then
    return week
  else if week = 53 then
    if day = 6 ∨ (day = 5 ∧ intern_isLeapYear d.myear) then
      return week
    else
      return 1
  else if week = 0 then
    let julianbegin ← castInt (← (ofDate (← int (d.myear - 1)) 1 1 0).julianDay)
    let day := (← int (julianbegin + 3)).tmod 7
    return (← intSum [juliantoday, day, -julianbegin, 4]).tdiv 7
  else
    return week

end InternDate

namespace InternDate

/-- `std::stoi` of a run of digits or of another character; it throws on a number that is not an
`int` and on what is not a number. -/
def stoi (str : List Char) : Option ℤ :=
  if str.all Char.isDigit then int (Nat.ofDigitChars 10 str 0) else none

/-- The matches of the expression `[0-9]+|[^0-9]`: runs of digits, and single other characters. -/
def fieldMatches (date : List Char) : List (List Char) :=
  date.splitBy fun a b => a.isDigit && b.isDigit

/-- Set the member that the match at a place stands for. -/
def setMatch (toparse : StrFormat) (nbmatches : ℕ) (x : ℤ) (d : InternDate) : InternDate :=
  if nbmatches = 1 then
    if toparse = .ymd then { d with myear := x } else { d with mhours := x }
  else if nbmatches = 3 then
    if toparse = .ymd then { d with mmonth := x } else { d with mminutes := x }
  else if nbmatches = 5 then
    if toparse = .ymd then { d with mday := x } else { d with mseconds := x }
  else d

/-- Read the matches from a place on, to the first exception. The result has the matches counted
and whether there was one. -/
def readMatches (toparse : StrFormat) : ℕ → List (List Char) → InternDate → InternDate × ℕ × Bool
  | nbmatches, [], d => (d, nbmatches, false)
  | nbmatches, m :: ms, d =>
    if nbmatches + 1 = 1 ∨ nbmatches + 1 = 3 ∨ nbmatches + 1 = 5 then
      match stoi m with
      | some x => readMatches toparse (nbmatches + 1) ms (setMatch toparse (nbmatches + 1) x d)
      | none => (d, nbmatches + 1, true)
    else readMatches toparse (nbmatches + 1) ms d

/-- Read a date or a time of day; the result says whether there was an error. -/
def fromFields (d : InternDate) (date : List Char) (toparse : StrFormat) : InternDate × Bool :=
  let (d, nbmatches, error) := readMatches toparse 0 (fieldMatches date) d
  (d, error || nbmatches != 5)

def isSpace (c : Char) : Bool := c == ' ' || (9 ≤ c.toNat && c.toNat ≤ 13)

/-- The first match of `([^\s]+)\s([^\s]+)` in runs of spaces and of other characters. -/
def twoWords : List (List Char) → Option (List Char × List Char)
  | w :: [c] :: w' :: rest =>
    if isSpace c && !w.any isSpace then some (w, w') else twoWords ([c] :: w' :: rest)
  | _ :: rest => twoWords rest
  | [] => none

/-- Read a text in a format; the result says whether there was an error. Errors within the two words
of the extended format are not reported. -/
def fromString (d : InternDate) (date : String) (toparse : StrFormat) : InternDate × Bool :=
  if toparse = .extended then
    match twoWords (date.toList.splitBy fun a b => isSpace a == isSpace b) with
    | some (day, time) => (((d.fromFields day .ymd).1.fromFields time .hms).1, false)
    | none => (d, true)
  else d.fromFields date.toList toparse

end InternDate

/-! ## The functions of `DateTime` -/

namespace DateTime

open InternDate

def year (time : ℚ) : Option ℤ := do return (← fromJulianDay time).myear

def month (time : ℚ) : Option ℤ := do return (← fromJulianDay time).mmonth

def dayOfMonth (time : ℚ) : Option ℤ := do return (← fromJulianDay time).mday

def dayOfWeek (time : ℚ) : Option ℤ := do (← fromJulianDay time).dayOfWeek

def weekOfYear (time : ℚ) : Option ℤ := do (← fromJulianDay time).weekOfYear

/-- The conversion of an `unsigned int` to an `int`. -/
def ofUnsigned (n : ℕ) : ℤ := if n < 2147483648 then n else n - 4294967296

/-- The duration of `n` years. The sum is one of `unsigned int`s. -/
def years (time : ℚ) (n : ℕ) : Option ℚ := do
  let d1 ← fromJulianDay time
  let d2 := { d1 with myear := ofUnsigned ((d1.myear + n) % 4294967296).toNat }
  return (← d2.julianDay) - (← d1.julianDay)

/-- The duration of `n` months. -/
def months (time : ℚ) (n : ℕ) : Option ℚ := do
  let d1 ← fromJulianDay time
  let d2 ← d1.addMonths (ofUnsigned n)
  return (← d2.julianDay) - (← d1.julianDay)

/-- The text of the date of a day number. -/
def textOfJulianDayNumber (date : ℤ) : Option String := do
  return (← fromJulianDay date).toString .ymd

/-- The day number of the text of a date; an error leaves the date read so far. -/
def toJulianDayNumber (date : String) : Option ℤ :=
  (fromString {} date .ymd).1.julianDayNumber

end DateTime

/-! ## Day numbers -/

theorem int_eq_some {x y : ℤ} :
    int x = some y ↔ (-2147483648 ≤ x ∧ x ≤ 2147483647) ∧ x = y := by
  unfold int
  split_ifs with h <;> simp [h]

/-- Division rounds up below zero. -/
theorem tdiv_of_neg {a : ℤ} (b : ℤ) (h : a < 0) : a.tdiv b = -(-a / b) := by
  rw [← Int.tdiv_eq_ediv_of_nonneg (by omega : 0 ≤ -a), Int.neg_tdiv, neg_neg]

/-- How far a division by 4, 100 or 400 is from the exact quotient. -/
theorem tdiv_bounds (a : ℤ) {b : ℤ} (hb : 0 < b) :
    (0 ≤ a ∧ 0 ≤ a.tdiv b ∨ a < 0 ∧ a.tdiv b ≤ 0) ∧ -b < a - b * a.tdiv b ∧ a - b * a.tdiv b < b := by
  have hmod := Int.mul_tdiv_add_tmod a b
  have hlt := Int.tmod_lt_of_pos a hb
  have hgt := Int.lt_tmod_of_pos a hb
  refine ⟨?_, by omega, by omega⟩
  rcases le_or_gt 0 a with h | h
  · exact .inl ⟨h, Int.tdiv_nonneg h hb.le⟩
  · exact .inr ⟨h, by rw [tdiv_of_neg b h]; have := Int.ediv_nonneg (by omega : 0 ≤ -a) hb.le; omega⟩

/-- The leap days of the years before a year: below zero, truncated quotients count one more for
each year that is not a leap year. -/
theorem tdiv_leapDays (Y : ℤ) : Y.tdiv 4 - Y.tdiv 100 + Y.tdiv 400 =
    Y / 4 - Y / 100 + Y / 400 + if Y < 0 ∧ ¬ IsLeap Y then 1 else 0 := by
  rcases le_or_gt 0 Y with hpos | hneg
  · rw [Int.tdiv_eq_ediv_of_nonneg hpos, Int.tdiv_eq_ediv_of_nonneg hpos,
      Int.tdiv_eq_ediv_of_nonneg hpos, if_neg (by omega), add_zero]
  · have h4 : -(-Y / 4) = Y / 4 + if Y % 4 = 0 then 0 else 1 := by split_ifs <;> omega
    have h100 : -(-Y / 100) = Y / 100 + if Y % 100 = 0 then 0 else 1 := by split_ifs <;> omega
    have h400 : -(-Y / 400) = Y / 400 + if Y % 400 = 0 then 0 else 1 := by split_ifs <;> omega
    rw [tdiv_of_neg _ hneg, tdiv_of_neg _ hneg, tdiv_of_neg _ hneg, h4, h100, h400]
    unfold IsLeap
    split_ifs <;> omega

/-- The source's leap years are the calendar's. -/
theorem intern_isLeapYear_iff (year : ℤ) : intern_isLeapYear year = true ↔ IsLeap year := by
  have h (b : ℤ) : year.tmod b = 0 ↔ year % b = 0 := by
    rw [← Int.dvd_iff_tmod_eq_zero, Int.dvd_iff_emod_eq_zero]
  unfold intern_isLeapYear IsLeap
  simp only [ne_eq, h]
  split_ifs <;> simp only [false_iff, true_iff] <;> omega

/-- The source's months are the calendar's. -/
theorem intern_aMonth_eq (year : ℤ) {month : ℤ} (hm : 1 ≤ month) (hm' : month ≤ 12) :
    intern_aMonth year month = monthLength year month := by
  interval_cases month <;> simp [intern_aMonth, monthLength, intern_isLeapYear_iff]

namespace InternDate

/-- The number of a date in the calendar; a day past the end of its month counts on. -/
def number (d : InternDate) : ℤ := monthStart d.myear d.mmonth + d.mday

/-- The year of a date when years begin in March. -/
def marchYear (d : InternDate) : ℤ := d.myear - (14 - d.mmonth) / 12

/-- The month of a date counted from March. -/
def marchMonth (d : InternDate) : ℤ := d.mmonth + 12 * ((14 - d.mmonth) / 12) - 3

/-- The sum on the way to the day number that is the farthest from zero. -/
def largestSum (d : InternDate) : ℤ :=
  d.mday + (153 * d.marchMonth + 2) / 5 + 365 * (d.marchYear + 4800) +
    (d.marchYear + 4800).tdiv 4

/-- The sums on the way to the day number are within the `int`s. -/
def Fits (d : InternDate) : Prop := -2147483648 ≤ d.largestSum ∧ d.largestSum ≤ 2147483647

instance (d : InternDate) : Decidable d.Fits := by unfold Fits; infer_instance

/-- How far the day number is from the calendar's: quotients of years before -4800 round up. -/
def slip (d : InternDate) : ℤ := if d.marchYear < -4800 ∧ ¬ IsLeap d.marchYear then 1 else 0

/-- The leap days that the truncated quotients count. -/
theorem leapDays_eq (d : InternDate) :
    (d.marchYear + 4800).tdiv 4 - (d.marchYear + 4800).tdiv 100 + (d.marchYear + 4800).tdiv 400 =
      d.marchYear / 4 - d.marchYear / 100 + d.marchYear / 400 + 1164 + d.slip := by
  have hleap : IsLeap (d.marchYear + 4800) ↔ IsLeap d.marchYear := by unfold IsLeap; omega
  have h4 : (d.marchYear + 4800) / 4 = d.marchYear / 4 + 1200 := by omega
  have h100 : (d.marchYear + 4800) / 100 = d.marchYear / 100 + 48 := by omega
  have h400 : (d.marchYear + 4800) / 400 = d.marchYear / 400 + 12 := by omega
  have hneg : d.marchYear + 4800 < 0 ↔ d.marchYear < -4800 := by omega
  rw [tdiv_leapDays, h4, h100, h400, slip]
  simp only [hleap, hneg]
  ring

/-- The day number is the calendar's, but for the years whose quotients round up. -/
theorem julianDayNumber_eq_some (d : InternDate) {v : ℤ} (hm : 1 ≤ d.mmonth) (hm' : d.mmonth ≤ 12)
    (hd : 1 ≤ d.mday) (hd' : d.mday ≤ 31) :
    d.julianDayNumber = some v ↔ d.Fits ∧ v = d.number + d.slip := by
  have hstart := monthStart_eq d.myear hm hm' rfl rfl
  have hleap := d.leapDays_eq
  have hb4 := tdiv_bounds (d.marchYear + 4800) (by norm_num : (0 : ℤ) < 4)
  have hb100 := tdiv_bounds (d.marchYear + 4800) (by norm_num : (0 : ℤ) < 100)
  have hb400 := tdiv_bounds (d.marchYear + 4800) (by norm_num : (0 : ℤ) < 400)
  have ha : (14 - d.mmonth).tdiv 12 = (14 - d.mmonth) / 12 :=
    Int.tdiv_eq_ediv_of_nonneg (by omega)
  have hA : 0 ≤ (14 - d.mmonth) / 12 ∧ (14 - d.mmonth) / 12 ≤ 1 := by omega
  have hY : 0 + d.myear + 4800 + -((14 - d.mmonth) / 12) = d.marchYear + 4800 := by
    unfold marchYear
    omega
  have hM : 0 + d.mmonth + 12 * ((14 - d.mmonth) / 12) + -3 = d.marchMonth := by
    unfold marchMonth
    omega
  have hM₀ : 0 ≤ d.marchMonth ∧ d.marchMonth ≤ 11 := by unfold marchMonth; omega
  have hT : (0 + 153 * d.marchMonth + 2).tdiv 5 = (153 * d.marchMonth + 2) / 5 := by
    rw [Int.tdiv_eq_ediv_of_nonneg (by omega), zero_add]
  have hT₀ : 0 ≤ (153 * d.marchMonth + 2) / 5 ∧ (153 * d.marchMonth + 2) / 5 ≤ 337 := by omega
  have hnumber : d.number = (153 * d.marchMonth + 2) / 5 + 365 * d.marchYear + d.marchYear / 4 -
      d.marchYear / 100 + d.marchYear / 400 + 1721119 + d.mday := by
    rw [number, hstart]
    rfl
  unfold Fits largestSum
  simp only [julianDayNumber, intSum, List.foldlM_cons, List.foldlM_nil, Option.bind_eq_bind,
    Option.bind_eq_some_iff, int_eq_some, Option.pure_def, Option.some.injEq, and_assoc,
    exists_and_left, exists_eq_left', ha, hY, hM, hT]
  clear hstart hT ha
  generalize (153 * d.marchMonth + 2) / 5 = T at *
  constructor <;> intro h <;> omega

/-- The calendar's part of `isValid`. -/
def ValidDay (d : InternDate) : Prop :=
  1 ≤ d.mmonth ∧ d.mmonth ≤ 12 ∧ 1 ≤ d.mday ∧ d.mday ≤ monthLength d.myear d.mmonth

/-- What a valid date satisfies. -/
theorem isValid_iff (d : InternDate) : d.isValid = true ↔
    d.ValidDay ∧ (0 ≤ d.mhours ∧ d.mhours ≤ 23) ∧ (0 ≤ d.mminutes ∧ d.mminutes ≤ 60) ∧
      0 ≤ d.mseconds ∧ d.mseconds ≤ 60 := by
  unfold isValid ValidDay
  by_cases hm : 1 ≤ d.mmonth ∧ d.mmonth ≤ 12
  · rw [intern_aMonth_eq _ hm.1 hm.2]
    simp only [Bool.or_eq_true, decide_eq_true_eq]
    split_ifs <;> simp <;> omega
  · have h : ¬ (1 ≤ d.mmonth ∧ d.mmonth ≤ 12 ∧ 1 ≤ d.mday ∧
        d.mday ≤ monthLength d.myear d.mmonth) := fun h => hm ⟨h.1, h.2.1⟩
    simp only [h, false_and, iff_false]
    rw [if_pos (by simp; omega)]
    simp

end InternDate

end Vle.Utils
