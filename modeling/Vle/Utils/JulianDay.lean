import Vle.Utils.DateTime

/-!
# Julian days and dates

`fromJulianDay` counts the days from a Julian day as if each fourth year were a leap year, adding
the days that three of four centuries leave out, and takes the count apart. The days to add are
three quarters of a quotient that the source does not round down, so they come early in the first
two of four centuries: there a Julian day is taken for the day after (`counted_number`).
-/

namespace Vle.Utils

open Vle.Lib.Calendar

namespace InternDate

/-- The days up to a date when each fourth year is a leap year. -/
def dayCount (d : InternDate) : ℤ :=
  365 * (d.marchYear + 4716) + (d.marchYear + 4716) / 4 + (153 * d.marchMonth + 2) / 5 + d.mday - 1

/-- The date that the divisions of `fromJulianDay` give for a count of days. -/
def ofDayCount (f : ℤ) (partofday : ℚ) : InternDate :=
  let h := 5 * ((4 * f + 3) % 1461 / 4) + 2
  let mmonth := (h / 153 + 2) % 12 + 1
  ofDate ((4 * f + 3) / 1461 - 4716 + (14 - mmonth) / 12) mmonth (h % 153 / 5 + 1) partofday

/-- The day that `fromJulianDay` counts to for a Julian day. -/
def counted (J : ℤ) : ℤ := J + 1363 + (12 * J + 822831) / 584388

theorem castInt_counted (J : ℤ) (hJ : 0 ≤ J) :
    castInt (J + 1401 + (((4 * J + 274277) / 146097) * 3) / 4 + -38) = int (counted J) := by
  have hsum : (J + 1401 + (((4 * J + 274277) / 146097) * 3) / 4 + -38 : ℚ) =
      ((J + 1363 : ℤ) : ℚ) + ((12 * J + 822831 : ℤ) : ℚ) / ((584388 : ℕ) : ℚ) := by
    push_cast
    ring
  have hfloor : ⌊(J + 1401 + (((4 * J + 274277) / 146097) * 3) / 4 + -38 : ℚ)⌋ = counted J := by
    rw [hsum, Int.floor_intCast_add, Rat.floor_intCast_div_natCast]
    rfl
  rw [castInt, if_pos, hfloor]
  have hJ' : (0 : ℚ) ≤ J := by exact_mod_cast hJ
  have : (0:ℚ) ≤ (((4 * J + 274277) / 146097) * 3) / 4 := by positivity
  linarith
  

/-- The divisions of `fromJulianDay`, of an `int` that is not negative. -/
theorem ofDayCount_eq {e : ℤ} {f : ℤ} (he : e = 4 * f + 3) (hf : 0 ≤ f) (partofday : ℚ) :
    let h := 5 * (e.tmod 1461).tdiv 4 + 2
    let mmonth := (h.tdiv 153 + 2).tmod 12 + 1
    ofDate (e.tdiv 1461 - 4716 + (12 + 2 - mmonth).tdiv 12) mmonth ((h.tmod 153).tdiv 5 + 1)
      partofday = ofDayCount f partofday := by
  have hg : (e.tmod 1461).tdiv 4 = (4 * f + 3) % 1461 / 4 := by
    rw [he, Int.tmod_eq_emod_of_nonneg (by omega), Int.tdiv_eq_ediv_of_nonneg (by omega)]
  have hh : 0 ≤ 5 * ((4 * f + 3) % 1461 / 4) + 2 := by omega
  dsimp only
  rw [hg, ofDayCount]
  generalize 5 * ((4 * f + 3) % 1461 / 4) + 2 = h at hh
  have hmonth : (h.tdiv 153 + 2).tmod 12 = (h / 153 + 2) % 12 := by
    rw [Int.tdiv_eq_ediv_of_nonneg hh, Int.tmod_eq_emod_of_nonneg (by omega)]
  rw [hmonth, Int.tdiv_eq_ediv_of_nonneg (by omega : 0 ≤ e), Int.tmod_eq_emod_of_nonneg hh,
    Int.tdiv_eq_ediv_of_nonneg (by omega : 0 ≤ h % 153),
    Int.tdiv_eq_ediv_of_nonneg (by omega : 0 ≤ 12 + 2 - ((h / 153 + 2) % 12 + 1)), he]
  norm_num

/-- The date of a Julian day, by the day it counts to. -/
theorem fromJulianDay_eq {t : ℚ} {J : ℤ} (hJ : 0 ≤ J) (ht : ⌊t⌋ = J) :
    fromJulianDay t =
      if counted J ≤ 536870911 then some (ofDayCount (counted J) (t - J)) else none := by
  have ht₀ : 0 ≤ t := Int.floor_nonneg.mp (ht ▸ hJ)
  have hf : 0 ≤ counted J := by unfold counted; omega
  unfold fromJulianDay
  simp only [if_pos ht₀, ht, castInt_counted J hJ]
  by_cases hle : counted J ≤ 536870911
  · have hint : int (counted J) = some (counted J) := if_pos (by omega)
    have hint' : int (4 * counted J) = some (4 * counted J) := if_pos (by omega)
    have hsum : intSum [4 * counted J, 3] = some (4 * counted J + 3) := by
      simp only [intSum, int, List.foldlM_cons, List.foldlM_nil, zero_add]
      rw [if_pos (by omega), Option.bind_eq_bind, Option.bind_some, if_pos (by omega)]
      rfl
    simp only [hint, hint', hsum, Option.bind_eq_bind, Option.bind_some, if_pos hle]
    exact congrArg some (ofDayCount_eq rfl hf _)
  · -- Four times the count is beyond the `int`s.
    have hint' : int (4 * counted J) = none := if_neg (by omega)
    rw [if_neg hle]
    unfold int at hint' ⊢
    split_ifs with h
    · simp only [Option.bind_eq_bind, Option.bind_some, hint', Option.bind_none]
    · rfl

/-- The date of a count of days, with the year begun in March. -/
theorem ofDayCount_march (f : ℤ) (partofday : ℚ) :
    let D := (4 * f + 3) % 1461 / 4
    (ofDayCount f partofday).marchYear = (4 * f + 3) / 1461 - 4716 ∧
      (ofDayCount f partofday).marchMonth = (5 * D + 2) / 153 ∧
      (ofDayCount f partofday).mday = (5 * D + 2) % 153 / 5 + 1 := by
  intro D
  have hD : 0 ≤ D ∧ D ≤ 365 := by omega
  have hM : 0 ≤ (5 * D + 2) / 153 ∧ (5 * D + 2) / 153 ≤ 11 := by omega
  unfold marchYear marchMonth ofDayCount ofDate initPartOfDay
  dsimp only
  generalize (5 * D + 2) / 153 = M at *
  refine ⟨by omega, by omega, rfl⟩

/-- The divisions give a month and a day of a month. -/
theorem ofDayCount_bounds (f : ℤ) (partofday : ℚ) :
    1 ≤ (ofDayCount f partofday).mmonth ∧ (ofDayCount f partofday).mmonth ≤ 12 ∧
      1 ≤ (ofDayCount f partofday).mday ∧ (ofDayCount f partofday).mday ≤ 31 := by
  unfold ofDayCount ofDate initPartOfDay
  dsimp only
  omega

/-- The count of days is the one that the divisions take apart. -/
theorem dayCount_ofDayCount (f : ℤ) (partofday : ℚ) :
    (ofDayCount f partofday).dayCount = f := by
  obtain ⟨hyear, hmonth, hday⟩ := ofDayCount_march f partofday
  rw [dayCount, hyear, hmonth, hday]
  have hD : f = 365 * ((4 * f + 3) / 1461) + (4 * f + 3) / 1461 / 4 + (4 * f + 3) % 1461 / 4 := by
    omega
  generalize (4 * f + 3) % 1461 / 4 = D at *
  omega

/-- The days of a date from 1 March: its month ends before the next one starts, and only the last
day of a leap year is day 365. -/
theorem day_of_marchMonth {d : InternDate} (hd : d.ValidDay) :
    let D := (153 * d.marchMonth + 2) / 5 + d.mday - 1
    (0 ≤ D ∧ (D ≤ 364 ∨ D = 365 ∧ IsLeap (d.marchYear + 1))) ∧
      (5 * D + 2) / 153 = d.marchMonth ∧ (5 * D + 2) % 153 / 5 + 1 = d.mday ∧
      (d.marchMonth + 2) % 12 + 1 = d.mmonth := by
  obtain ⟨y, m, day, _, _, _⟩ := d
  obtain ⟨hm, hm', hday, hday'⟩ := hd
  unfold marchYear marchMonth
  dsimp only at *
  unfold monthLength at hday'
  unfold IsLeap at *
  interval_cases m <;> norm_num at hday' ⊢ <;> omega

/-- A count of days by years, each fourth of them a day longer. -/
theorem fourYears {f Z D : ℤ} (hf : f = 365 * Z + Z / 4 + D) (hD : 0 ≤ D)
    (hlast : D ≤ 364 ∨ D = 365 ∧ Z % 4 = 3) :
    (4 * f + 3) / 1461 = Z ∧ (4 * f + 3) % 1461 / 4 = D := by
  have hsplit : 4 * f + 3 = 1461 * Z + (4 * D + 3 - Z % 4) := by omega
  have hrest : 0 ≤ 4 * D + 3 - Z % 4 ∧ 4 * D + 3 - Z % 4 < 1461 := by omega
  have hdiv (r : ℤ) (hr : 0 ≤ r ∧ r < 1461) :
      (1461 * Z + r) / 1461 = Z ∧ (1461 * Z + r) % 1461 = r := by
    omega
  rw [hsplit, (hdiv _ hrest).1, (hdiv _ hrest).2]
  omega

/-- The divisions take the count of a date apart into the date. -/
theorem ofDayCount_dayCount {d : InternDate} (hd : d.ValidDay) (partofday : ℚ) :
    (ofDayCount d.dayCount partofday).equals d = true := by
  obtain ⟨⟨hD, hlast⟩, hM, hday, hmonth⟩ := day_of_marchMonth hd
  have hcount : d.dayCount = 365 * (d.marchYear + 4716) + (d.marchYear + 4716) / 4 +
      ((153 * d.marchMonth + 2) / 5 + d.mday - 1) := by
    unfold dayCount
    omega
  obtain ⟨hZ, hD'⟩ := fourYears hcount hD (by unfold IsLeap at hlast; omega)
  have ha : d.marchYear = d.myear - (14 - d.mmonth) / 12 := rfl
  have hmonth' : (ofDayCount d.dayCount partofday).mmonth = d.mmonth := by
    rw [← hmonth, ← hM, ← hD']
    rfl
  have hday' : (ofDayCount d.dayCount partofday).mday = d.mday := by
    rw [← hday, ← hD']
    rfl
  have hyear' : (ofDayCount d.dayCount partofday).myear = d.myear := by
    have : (ofDayCount d.dayCount partofday).myear = (4 * d.dayCount + 3) / 1461 - 4716 +
        (14 - (ofDayCount d.dayCount partofday).mmonth) / 12 := rfl
    rw [this, hmonth', hZ]
    omega
  simp [equals, hyear', hmonth', hday']

/-- The order of dates, as the number `yyyymmdd`. -/
def stamp (year month day : ℤ) : ℤ := 10000 * year + 100 * month + day

/-- The dates of each 400 years whose Julian day is taken for the next day: from 30 June 33 to
28 February 100, and from 30 October 166 to 28 February 200. -/
def Drifts (d : InternDate) : Prop :=
  let s := stamp (d.myear % 400) d.mmonth d.mday
  330630 ≤ s ∧ s ≤ 1000228 ∨ 1661030 ≤ s ∧ s ≤ 2000228

instance (d : InternDate) : Decidable d.Drifts := by unfold Drifts; infer_instance

/-- The number of a date, by the days counted when each fourth year is a leap year. -/
theorem number_eq {d : InternDate} (hd : d.ValidDay) :
    d.number = (153 * d.marchMonth + 2) / 5 + 365 * d.marchYear + d.marchYear / 4 -
      d.marchYear / 100 + d.marchYear / 400 + 1721119 + d.mday := by
  rw [number, monthStart_eq d.myear hd.1 hd.2.1 rfl rfl]
  rfl

/-- The days of a century before a date. -/
def centuryDays (d : InternDate) : ℤ :=
  365 * (d.marchYear % 100) + d.marchYear % 100 / 4 + (153 * d.marchMonth + 2) / 5 + d.mday - 1

/-- The days counted to for a Julian day: in the first two of four centuries the quotient of
`double`s is rounded up before its time. -/
theorem counted_number_eq {d : InternDate} (hd : d.ValidDay) :
    counted d.number = d.dayCount +
      if d.marchYear / 100 % 4 = 0 ∧ 12174 ≤ d.centuryDays ∨
        d.marchYear / 100 % 4 = 1 ∧ 24349 ≤ d.centuryDays then 1 else 0 := by
  obtain ⟨⟨hD, hlast⟩, -, -, -⟩ := day_of_marchMonth hd
  rw [number_eq hd]
  unfold counted dayCount centuryDays
  generalize d.marchYear = Y at *
  obtain ⟨D, hD'⟩ : ∃ D, D = (153 * d.marchMonth + 2) / 5 + d.mday - 1 := ⟨_, rfl⟩
  -- The year as fours of centuries, centuries and years.
  obtain ⟨b, s, r, hY, hs, hr⟩ : ∃ b s r, Y = 400 * b + 100 * s + r ∧ (0 ≤ s ∧ s < 4) ∧
      0 ≤ r ∧ r < 100 := ⟨Y / 400, Y / 100 % 4, Y % 100, by omega, by omega, by omega⟩
  have h4 : Y / 4 = 100 * b + 25 * s + r / 4 := by omega
  have h4' : (Y + 4716) / 4 = 100 * b + 25 * s + r / 4 + 1179 := by omega
  have h100 : Y / 100 = 4 * b + s := by omega
  have hs' : Y / 100 % 4 = s := by omega
  have h400 : Y / 400 = b := by omega
  have hr' : Y % 100 = r := by omega
  rw [h4, h4', hs', h100, h400, hr', hY]
  obtain ⟨U, hU⟩ : ∃ U, U = 365 * r + r / 4 + D := ⟨_, rfl⟩
  have hU₀ : 0 ≤ U ∧ U ≤ 36524 ∧ (U = 36524 → s = 3) := by
    refine ⟨by omega, by omega, fun h => ?_⟩
    have hD : D = 365 := by omega
    rcases hlast with hlt | ⟨-, hleap⟩
    · omega
    · unfold IsLeap at hleap
      omega
  have hquot : (12 * U + 438288 * s + 438303) / 584388 =
      s + if s = 0 ∧ 12174 ≤ U ∨ s = 1 ∧ 24349 ≤ U then 1 else 0 := by
    split_ifs <;> omega
  have hJ : 12 * ((153 * d.marchMonth + 2) / 5 + 365 * (400 * b + 100 * s + r) +
      (100 * b + 25 * s + r / 4) - (4 * b + s) + b + 1721119 + d.mday) + 822831 =
      584388 * (3 * b + 36) + (12 * U + 438288 * s + 438303) := by
    omega
  have hU' : 365 * r + r / 4 + (153 * d.marchMonth + 2) / 5 + d.mday - 1 = U := by omega
  rw [hJ, Int.mul_add_ediv_left _ _ (by norm_num), hquot, hU']
  omega

/-- The dates that drift, by the days of their century. -/
theorem drifts_iff {d : InternDate} (hd : d.ValidDay) : d.Drifts ↔
    d.marchYear / 100 % 4 = 0 ∧ 12174 ≤ d.centuryDays ∨
      d.marchYear / 100 % 4 = 1 ∧ 24349 ≤ d.centuryDays := by
  obtain ⟨y, m, day, _, _, _⟩ := d
  obtain ⟨hm, hm', hday, hday'⟩ := hd
  unfold Drifts stamp centuryDays marchYear marchMonth
  dsimp only at *
  obtain ⟨b, s, r, hY, hs, hr⟩ : ∃ b s r, y - (14 - m) / 12 = 400 * b + 100 * s + r ∧
      (0 ≤ s ∧ s < 4) ∧ 0 ≤ r ∧ r < 100 :=
    ⟨(y - (14 - m) / 12) / 400, (y - (14 - m) / 12) / 100 % 4, (y - (14 - m) / 12) % 100,
      by omega, by omega, by omega⟩
  have hs' : (400 * b + 100 * s + r) / 100 % 4 = s := by omega
  have hr' : (400 * b + 100 * s + r) % 100 = r := by omega
  have hy : y = 400 * b + 100 * s + r + (14 - m) / 12 := by omega
  rw [hY, hs', hr']
  subst hy
  have hle : day ≤ 31 ∧ (m = 2 → day ≤ 28 ∨ s = 3 ∨ r ≠ 99) := by
    have := (monthLength_bounds (400 * b + 100 * s + r + (14 - m) / 12) m).2
    refine ⟨by omega, fun h => ?_⟩
    subst h
    unfold monthLength IsLeap at hday'
    split_ifs at hday' <;> omega
  have ha : 0 ≤ (14 - m) / 12 ∧ (14 - m) / 12 ≤ 1 := by omega
  have h400 : (400 * b + 100 * s + r + (14 - m) / 12) % 400 = 100 * s + r + (14 - m) / 12 ∨
      s = 3 ∧ (400 * b + 100 * s + r + (14 - m) / 12) % 400 = 0 := by
    omega
  -- Years 33 and 66 of a century are the ones in which a drift begins.
  have hcases : r ≤ 32 ∨ r = 33 ∨ 34 ≤ r ∧ r ≤ 65 ∨ r = 66 ∨ 67 ≤ r := by omega
  have hr4 : 4 * (r / 4) ≤ r ∧ r ≤ 4 * (r / 4) + 3 := by omega
  generalize (400 * b + 100 * s + r + (14 - m) / 12) % 400 = z at *
  generalize r / 4 = q at *
  clear hday' hY hs' hr'
  interval_cases m <;> norm_num at hle ha h400 ⊢ <;>
    rcases hcases with h | rfl | h | rfl | h <;> omega

/-- The days counted to for a Julian day, by the date. -/
theorem counted_number {d : InternDate} (hd : d.ValidDay) :
    counted d.number = d.dayCount + if d.Drifts then 1 else 0 := by
  rw [counted_number_eq hd]
  simp only [drifts_iff hd]

/-- The dates that the day counts of `fromJulianDay` reach: to 11 August 1465156. -/
def Reached (d : InternDate) : Prop := stamp d.myear d.mmonth d.mday ≤ 14651560811

instance (d : InternDate) : Decidable d.Reached := by unfold Reached; infer_instance

theorem reached_iff {d : InternDate} (hd : d.ValidDay) : d.Reached ↔ d.dayCount ≤ 536870911 := by
  obtain ⟨y, m, day, _, _, _⟩ := d
  obtain ⟨hm, hm', hday, hday'⟩ := hd
  have hle := (monthLength_bounds y m).2
  unfold Reached stamp dayCount marchYear marchMonth
  dsimp only at *
  have hcases : y ≤ 1465155 ∨ y = 1465156 ∨ 1465157 ≤ y := by omega
  rcases hcases with h | rfl | h
  · interval_cases m <;> norm_num <;> omega
  · interval_cases m <;> norm_num <;> omega
  · interval_cases m <;> norm_num <;> omega

/-- The dates whose Julian days are converted back to them. -/
def Converts (d : InternDate) : Prop := d.Reached ∧ ¬ d.Drifts

instance (d : InternDate) : Decidable d.Converts := by unfold Converts; infer_instance

/-- The conversion to a day number and back gives the date again. -/
def RoundTrips (d : InternDate) : Prop :=
  ∃ J e, d.julianDayNumber = some J ∧ fromJulianDay J = some e ∧ e.equals d = true

/-- The date that the functions of `DateTime` give for a Julian day. -/
def Agrees (t : ℚ) (d : InternDate) : Prop :=
  DateTime.year t = some d.myear ∧ DateTime.month t = some d.mmonth ∧
    DateTime.dayOfMonth t = some d.mday

theorem equals_iff (d e : InternDate) :
    d.equals e = true ↔ d.myear = e.myear ∧ d.mmonth = e.mmonth ∧ d.mday = e.mday := by
  simp [equals, and_assoc]

theorem dayCount_congr {d e : InternDate} (h : d.equals e = true) : d.dayCount = e.dayCount := by
  obtain ⟨hyear, hmonth, hday⟩ := (equals_iff d e).mp h
  unfold dayCount marchYear marchMonth
  rw [hyear, hmonth, hday]

/-- The dates with a positive number. -/
theorem marchYear_of_pos {d : InternDate} (hd : d.ValidDay) (hpos : 0 < d.number) :
    -4714 ≤ d.marchYear := by
  have hnumber := number_eq hd
  have hT : (153 * d.marchMonth + 2) / 5 ≤ 337 := by unfold marchMonth; have := hd.1; omega
  have hday := hd.2.2.2.trans (monthLength_bounds _ _).2
  omega

/-- The day number of a date with a positive number. -/
theorem julianDayNumber_of_pos {d : InternDate} (hd : d.ValidDay) (hpos : 0 < d.number) {v : ℤ} :
    d.julianDayNumber = some v ↔ d.Fits ∧ v = d.number := by
  have hyear := marchYear_of_pos hd hpos
  have hslip : d.slip = 0 := if_neg (by omega)
  rw [julianDayNumber_eq_some d hd.1 hd.2.1 hd.2.2.1
    (hd.2.2.2.trans (monthLength_bounds _ _).2), hslip, add_zero]

/-- A date whose day count is reached has a day number. -/
theorem Reached.fits {d : InternDate} (h : d.Reached) (hd : d.ValidDay) (hpos : 0 < d.number) :
    d.Fits := by
  have hcount := (reached_iff hd).mp h
  have hyear := marchYear_of_pos hd hpos
  have hM : 0 ≤ d.marchMonth := by unfold marchMonth; have := hd.2.1; omega
  have hday := hd.2.2.1
  unfold dayCount at hcount
  unfold Fits largestSum
  rw [Int.tdiv_eq_ediv_of_nonneg (by omega)]
  omega

/-- A Julian day is converted to its date exactly when the date is reached and does not drift. -/
theorem fromJulianDay_number {d : InternDate} (hd : d.ValidDay) (hpos : 0 < d.number) {t : ℚ}
    (ht : ⌊t⌋ = d.number) :
    (∃ e, fromJulianDay t = some e ∧ e.equals d = true) ↔ d.Converts := by
  rw [fromJulianDay_eq hpos.le ht, Converts, reached_iff hd]
  have hcount := counted_number hd
  constructor
  · rintro ⟨e, he, hed⟩
    by_cases hle : counted d.number ≤ 536870911
    · -- The date counted to is the date, so the day counted is the date's.
      rw [if_pos hle] at he
      obtain rfl := Option.some.inj he
      have hsame := dayCount_congr hed
      rw [dayCount_ofDayCount] at hsame
      by_cases h : d.Drifts
      · rw [if_pos h] at hcount
        omega
      · exact ⟨hsame ▸ hle, h⟩
    · rw [if_neg hle] at he
      cases he
  · rintro ⟨hle, hdrift⟩
    rw [if_neg hdrift, add_zero] at hcount
    rw [hcount, if_pos hle]
    exact ⟨_, rfl, ofDayCount_dayCount hd _⟩

/-- The functions of `DateTime` give the date of the conversion. -/
theorem agrees_iff (t : ℚ) (d : InternDate) :
    Agrees t d ↔ ∃ e, fromJulianDay t = some e ∧ e.equals d = true := by
  unfold Agrees DateTime.year DateTime.month DateTime.dayOfMonth
  cases fromJulianDay t with
  | none => simp
  | some e => simp [equals_iff]

end InternDate
end Vle.Utils
