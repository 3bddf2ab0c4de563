import Mathlib.Tactic

/-!
# The Gregorian calendar

The proleptic Gregorian calendar on all years, with the days numbered in a row: day 2451545 is
1 January 2000. Years and months are counted from the lengths the calendar gives them, and
`monthStart_eq` is the closed formula with the year begun in March. The days fall into weeks from
Monday to Sunday, day 0 being a Monday, and a week belongs to the year of its Thursday.
-/

namespace Vle.Lib.Calendar

/-- The leap years: each fourth year, less the centuries not divisible by 400. -/
def IsLeap (y : ℤ) : Prop := y % 4 = 0 ∧ (y % 100 ≠ 0 ∨ y % 400 = 0)

instance (y : ℤ) : Decidable (IsLeap y) := by unfold IsLeap; infer_instance

def yearLength (y : ℤ) : ℤ := if IsLeap y then 366 else 365

def monthLength (y m : ℤ) : ℤ :=
  if m = 2 then if IsLeap y then 29 else 28
  else if m = 4 ∨ m = 6 ∨ m = 9 ∨ m = 11 then 30 else 31

/-- The number of 1 January: 365 days a year, and one more for each leap year before. -/
def newYear (y : ℤ) : ℤ := 365 * y + (y - 1) / 4 - (y - 1) / 100 + (y - 1) / 400 + 1721061

/-- The days of the year before month `k + 1`. -/
def daysBefore (y : ℤ) : ℕ → ℤ
  | 0 => 0
  | k + 1 => daysBefore y k + monthLength y (k + 1)

/-- The number of the day before the first of a month. -/
def monthStart (y m : ℤ) : ℤ := newYear y + daysBefore y (m - 1).toNat - 1

/-- A date of the calendar. -/
@[ext]
structure Date where
  year : ℤ
  month : ℤ
  day : ℤ
  month_pos : 1 ≤ month
  month_le : month ≤ 12
  day_pos : 1 ≤ day
  day_le : day ≤ monthLength year month

theorem monthLength_bounds (y m : ℤ) : 28 ≤ monthLength y m ∧ monthLength y m ≤ 31 := by
  unfold monthLength
  split_ifs <;> omega

theorem newYear_succ (y : ℤ) : newYear (y + 1) = newYear y + yearLength y := by
  unfold newYear yearLength IsLeap
  split_ifs <;> omega

/-- The months make up the year. -/
theorem daysBefore_twelve (y : ℤ) : daysBefore y 12 = yearLength y := by
  simp only [daysBefore, monthLength, yearLength]
  by_cases h : IsLeap y <;> simp [h]

theorem monthStart_one (y : ℤ) : monthStart y 1 = newYear y - 1 := by
  simp [monthStart, daysBefore]

/-- Each month starts where the one before it ends. -/
theorem monthStart_succ (y : ℤ) {m : ℤ} (hm : 1 ≤ m) :
    monthStart y (m + 1) = monthStart y m + monthLength y m := by
  obtain ⟨k, rfl⟩ : ∃ k : ℕ, m = k + 1 := ⟨(m - 1).toNat, by omega⟩
  have h : ((k : ℤ) + 1 + 1 - 1).toNat = k + 1 := by omega
  have h' : ((k : ℤ) + 1 - 1).toNat = k := by omega
  rw [monthStart, monthStart, h, h', daysBefore]
  omega

/-- January starts where December of the year before ends. -/
theorem monthStart_january (y : ℤ) :
    monthStart (y + 1) 1 = monthStart y 12 + monthLength y 12 := by
  rw [← monthStart_succ y (by norm_num), monthStart_one, newYear_succ]
  simp only [monthStart, Int.reduceAdd, Int.reduceSub, Int.reduceToNat, daysBefore_twelve]

/-- The closed formula: January and February are the last months of the year before, the lengths
from March on follow `153 / 5`, and the leap day is the last day of its year. -/
theorem monthStart_eq (y : ℤ) {m : ℤ} (hm : 1 ≤ m) (hm' : m ≤ 12) {a Y : ℤ}
    (ha : a = (14 - m) / 12) (hY : Y = y - a) :
    monthStart y m =
      (153 * (m + 12 * a - 3) + 2) / 5 + 365 * Y + Y / 4 - Y / 100 + Y / 400 + 1721119 := by
  have hcases : m = 1 ∨ m = 2 ∨ m = 3 ∨ m = 4 ∨ m = 5 ∨ m = 6 ∨ m = 7 ∨ m = 8 ∨ m = 9 ∨ m = 10 ∨
      m = 11 ∨ m = 12 := by omega
  subst ha hY
  unfold monthStart newYear
  by_cases hleap : IsLeap y <;> rcases hcases with rfl | rfl | rfl | rfl | rfl | rfl | rfl | rfl |
      rfl | rfl | rfl | rfl <;>
    simp only [Int.reduceAdd, Int.reduceSub, Int.reduceMul, Int.reduceDiv, Int.reduceToNat,
      daysBefore, monthLength, hleap] <;>
    unfold IsLeap at hleap <;> simp <;> omega

/-- The start of month `M`, the months counted in a row from January of year 0. -/
def indexStart (M : ℤ) : ℤ := monthStart (M / 12) (M % 12 + 1)

/-- A month starts where the one before it ends, within a year and across years. -/
theorem indexStart_succ (M : ℤ) :
    indexStart (M + 1) = indexStart M + monthLength (M / 12) (M % 12 + 1) := by
  unfold indexStart
  by_cases h : M % 12 = 11
  · have hyear : (M + 1) / 12 = M / 12 + 1 := by omega
    have hmonth : (M + 1) % 12 + 1 = 1 := by omega
    rw [hyear, hmonth, h]
    exact monthStart_january _
  · have hyear : (M + 1) / 12 = M / 12 := by omega
    have hmonth : (M + 1) % 12 + 1 = M % 12 + 1 + 1 := by omega
    rw [hyear, hmonth, monthStart_succ _ (by omega)]

/-- Later months start at least 28 days later for each month. -/
theorem indexStart_le (M : ℤ) (k : ℕ) : indexStart M + 28 * k ≤ indexStart (M + k) := by
  induction k with
  | zero => simp
  | succ k ih =>
    have hstep := indexStart_succ (M + k)
    have hlen := (monthLength_bounds ((M + k) / 12) ((M + k) % 12 + 1)).1
    push_cast
    rw [← add_assoc, hstep]
    omega

theorem indexStart_eq (y : ℤ) {m : ℤ} (hm : 1 ≤ m) (hm' : m ≤ 12) :
    indexStart (12 * y + (m - 1)) = monthStart y m := by
  have hyear : (12 * y + (m - 1)) / 12 = y := by omega
  have hmonth : (12 * y + (m - 1)) % 12 + 1 = m := by omega
  rw [indexStart, hyear, hmonth]

namespace Date

/-- The number of a date. -/
def number (d : Date) : ℤ := monthStart d.year d.month + d.day

/-- The day after. -/
def next (d : Date) : Date :=
  if hday : d.day < monthLength d.year d.month then
    { d with day := d.day + 1, day_pos := by have := d.day_pos; omega, day_le := by omega }
  else if hmonth : d.month < 12 then
    ⟨d.year, d.month + 1, 1, by have := d.month_pos; omega, by omega, by norm_num,
      (by norm_num : (1 : ℤ) ≤ 28).trans (monthLength_bounds _ _).1⟩
  else ⟨d.year + 1, 1, 1, by norm_num, by norm_num, by norm_num,
    (by norm_num : (1 : ℤ) ≤ 28).trans (monthLength_bounds _ _).1⟩

/-- The days are numbered in a row. -/
theorem number_next (d : Date) : d.next.number = d.number + 1 := by
  have := d.day_le
  unfold next number
  split_ifs with hday hmonth
  · dsimp only
    omega
  · dsimp only
    rw [monthStart_succ _ d.month_pos]
    omega
  · have hdec : d.month = 12 := by have := d.month_le; omega
    rw [monthStart_january, hdec]
    rw [hdec] at this hday
    change monthStart d.year 12 + monthLength d.year 12 + 1 = _
    omega

example : number ⟨2000, 1, 1, by decide, by decide, by decide, by decide⟩ = 2451545 := by decide

/-- A date lies in its year. -/
theorem number_bounds (d : Date) :
    newYear d.year ≤ d.number ∧ d.number < newYear (d.year + 1) := by
  obtain ⟨hm, hm'⟩ := And.intro d.month_pos d.month_le
  have hday := d.day_pos
  have hday' := d.day_le
  have hjan := indexStart_eq d.year le_rfl (by norm_num : (1 : ℤ) ≤ 12)
  have hjan' := indexStart_eq (d.year + 1) le_rfl (by norm_num : (1 : ℤ) ≤ 12)
  rw [monthStart_one] at hjan hjan'
  -- The months of the year before the date's, and those after it.
  have hfirst := indexStart_le (12 * d.year + (1 - 1)) (d.month - 1).toNat
  have hlast := indexStart_le (12 * d.year + d.month) (12 - d.month).toNat
  have hidx : 12 * d.year + (1 - 1) + ((d.month - 1).toNat : ℤ) = 12 * d.year + (d.month - 1) := by
    omega
  have hidx' : 12 * d.year + d.month + ((12 - d.month).toNat : ℤ) =
      12 * (d.year + 1) + (1 - 1) := by
    omega
  rw [hidx, indexStart_eq d.year hm hm'] at hfirst
  have hend : indexStart (12 * d.year + d.month) =
      monthStart d.year d.month + monthLength d.year d.month := by
    rw [← monthStart_succ _ hm]
    have hsucc := indexStart_succ (12 * d.year + (d.month - 1))
    rw [indexStart_eq d.year hm hm'] at hsucc
    rw [monthStart_succ _ hm]
    have hyear : (12 * d.year + (d.month - 1)) / 12 = d.year := by omega
    have hmonth : (12 * d.year + (d.month - 1)) % 12 + 1 = d.month := by omega
    rw [hyear, hmonth] at hsucc
    rw [← hsucc]
    congr 1
    omega
  rw [hidx', hjan', hend] at hlast
  unfold number
  omega

end Date

/-! ## Weeks -/

/-- The Thursday of the week, from Monday to Sunday, that day `n` lies in. -/
def thursday (n : ℤ) : ℤ := n - n % 7 + 3

/-- The year the week of a date counts for: the year of its Thursday. -/
def Date.isoYear (d : Date) : ℤ :=
  if thursday d.number < newYear d.year then d.year - 1
  else if newYear (d.year + 1) ≤ thursday d.number then d.year + 1
  else d.year

/-- The number of the week of a date: the Thursdays of its year up to its own. -/
def Date.isoWeek (d : Date) : ℤ := (thursday d.number - newYear d.isoYear) / 7 + 1

/-- The Thursday of a date's week lies in the year the week counts for. -/
theorem Date.isoYear_bounds (d : Date) :
    newYear d.isoYear ≤ thursday d.number ∧ thursday d.number < newYear (d.isoYear + 1) := by
  obtain ⟨hlo, hhi⟩ := d.number_bounds
  have hbefore := newYear_succ (d.year - 1)
  have hafter := newYear_succ (d.year + 1)
  have hlen : 365 ≤ yearLength (d.year - 1) := by unfold yearLength; split_ifs <;> norm_num
  have hlen' : 365 ≤ yearLength (d.year + 1) := by unfold yearLength; split_ifs <;> norm_num
  have hweek : d.number - 3 ≤ thursday d.number ∧ thursday d.number ≤ d.number + 3 := by
    unfold thursday
    omega
  rw [sub_add_cancel] at hbefore
  unfold Date.isoYear
  split_ifs with h h'
  · rw [sub_add_cancel]
    omega
  · omega
  · omega

/-- Week 1 is the week of the first Thursday of its year. -/
theorem Date.isoWeek_eq_one (d : Date) :
    d.isoWeek = 1 ↔ thursday d.number < newYear d.isoYear + 7 := by
  have := d.isoYear_bounds.1
  unfold Date.isoWeek
  omega

end Vle.Lib.Calendar
