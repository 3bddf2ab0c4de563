import Vle.Utils.JulianDay

/-!
# Days of the week and weeks of the year

`weekOfYear` counts the weeks from the day of the week of 1 January and corrects the first and the
last week of the year; `dayOfWeek` is a sum of quotients of the year and the month. Both take
remainders of numbers that are negative in the first years of the Julian days, and `dayOfWeek`
divides negative years.
-/

namespace Vle.Utils

open Vle.Lib.Calendar

namespace InternDate

/-- A date with a valid day as a date of the calendar. -/
def calendarDate (d : InternDate) (hd : d.ValidDay) : Date :=
  ⟨d.myear, d.mmonth, d.mday, hd.1, hd.2.1, hd.2.2.1, hd.2.2.2⟩

/-- The time of day is within the day; `isValid` lets 60 minutes and 60 seconds pass. -/
def InDay (d : InternDate) : Prop := 3600 * d.mhours + 60 * d.mminutes + d.mseconds < 86400

instance (d : InternDate) : Decidable d.InDay := by unfold InDay; infer_instance

/-- The day that the Julian day of a date falls on. -/
theorem castInt_julianDay {d : InternDate} {N : ℤ} (hd : d.isValid = true) (hN : 0 ≤ N)
    (hN' : N < 2147483647) :
    castInt (N + (d.mhours : ℚ) / 24 + (d.mminutes : ℚ) / 1440 + (d.mseconds : ℚ) / 86400) =
      some (N + if d.InDay then 0 else 1) := by
  obtain ⟨-, hh, hm, hs⟩ := (isValid_iff d).mp hd
  have hsum : (N + (d.mhours : ℚ) / 24 + (d.mminutes : ℚ) / 1440 + (d.mseconds : ℚ) / 86400) =
      (N : ℚ) + ((3600 * d.mhours + 60 * d.mminutes + d.mseconds : ℤ) : ℚ) / ((86400 : ℕ) : ℚ) := by
    push_cast
    ring
  have hfloor : ⌊(N : ℚ) + ((3600 * d.mhours + 60 * d.mminutes + d.mseconds : ℤ) : ℚ) /
      ((86400 : ℕ) : ℚ)⌋ = N + if d.InDay then 0 else 1 := by
    rw [Int.floor_intCast_add, Rat.floor_intCast_div_natCast]
    unfold InDay
    split_ifs <;> push_cast <;> omega
  have hpos : (0 : ℚ) ≤ N + (d.mhours : ℚ) / 24 + (d.mminutes : ℚ) / 1440 +
      (d.mseconds : ℚ) / 86400 := by
    rw [hsum, ← Int.floor_nonneg, hfloor]
    split_ifs <;> omega
  rw [castInt, if_pos hpos, hsum, hfloor]
  exact if_pos (by split_ifs <;> omega)

/-- The whole days are their own integer part. -/
theorem castInt_intCast (x : ℤ) : castInt x = int x := by
  rw [castInt, Int.floor_intCast, Int.ceil_intCast, ite_self]

/-- The years up to that of a date whose day number fits have a first day whose number fits. -/
theorem Fits.newYear {d : InternDate} (h : d.Fits) (hd : d.ValidDay) {y : ℤ} (hy : -4714 ≤ y)
    (hle : y ≤ d.myear) : (⟨y, 1, 1, 0, 0, 0⟩ : InternDate).Fits := by
  have hyear : y - 1 ≤ (⟨y, 1, 1, 0, 0, 0⟩ : InternDate).marchYear ∧
      (⟨y, 1, 1, 0, 0, 0⟩ : InternDate).marchYear ≤ y - 1 := by
    unfold marchYear
    norm_num
  have hmarch : (⟨y, 1, 1, 0, 0, 0⟩ : InternDate).marchMonth = 10 := by
    unfold marchMonth
    norm_num
  have hlate : d.marchYear = d.myear ∨ d.marchYear = d.myear - 1 ∧ 10 ≤ d.marchMonth := by
    obtain ⟨hm, hm', -, -⟩ := hd
    unfold marchYear marchMonth
    omega
  have hM : 0 ≤ d.marchMonth := by
    have := hd.2.1
    unfold marchMonth
    omega
  have hday := hd.2.2.1
  unfold Fits largestSum at *
  rw [Int.tdiv_eq_ediv_of_nonneg (by omega)] at *
  rw [hmarch]
  dsimp only
  omega

/-- 1 January starts with its day number. -/
theorem julianDay_newYear {y : ℤ} (hy : -4714 ≤ y) (h : (⟨y, 1, 1, 0, 0, 0⟩ : InternDate).Fits) :
    (ofDate y 1 1 0).julianDay = some ((newYear y : ℤ) : ℚ) := by
  have hdate : ofDate y 1 1 0 = ⟨y, 1, 1, 0, 0, 0⟩ := by simp [ofDate, initPartOfDay]
  have hyear : (⟨y, 1, 1, 0, 0, 0⟩ : InternDate).marchYear = y - 1 := by
    unfold marchYear
    norm_num
  have hslip : (⟨y, 1, 1, 0, 0, 0⟩ : InternDate).slip = 0 := if_neg (by omega)
  have hnumber : (⟨y, 1, 1, 0, 0, 0⟩ : InternDate).julianDayNumber = some (newYear y) := by
    rw [julianDayNumber_eq_some _ (by norm_num) (by norm_num) (by norm_num) (by norm_num), hslip]
    refine ⟨h, ?_⟩
    rw [number, monthStart_one]
    change newYear y = newYear y - 1 + 1 + 0
    omega
  rw [hdate, julianDay, hnumber]
  simp

/-- The week that is computed for day `N` in a year that begins with day `B`. -/
def weekFrom (N B : ℤ) : ℤ := (N + (B + 3).tmod 7 - B + 4) / 7

/-- A date with a day number that fits is far enough from the last `int`. -/
theorem Fits.number_lt {d : InternDate} (h : d.Fits) (hd : d.ValidDay) (hpos : 0 < d.number) :
    d.number < 2147452000 := by
  have hnumber := number_eq hd
  have hyear := marchYear_of_pos hd hpos
  unfold Fits largestSum at h
  rw [Int.tdiv_eq_ediv_of_nonneg (by omega)] at h
  omega

/-- A date and the first day of its year. -/
theorem newYear_le {d : InternDate} (hd : d.ValidDay) (hpos : 0 < d.number) :
    -4713 ≤ d.myear ∧ newYear d.myear ≤ d.number ∧ d.number < newYear (d.myear + 1) := by
  obtain ⟨hlo, hhi⟩ := (d.calendarDate hd).number_bounds
  refine ⟨?_, hlo, hhi⟩
  change d.number < newYear (d.myear + 1) at hhi
  unfold newYear at hhi
  omega

/-- The week of a day number, computed within the `int`s. -/
theorem week_eq {N B : ℤ} (hN : 0 < N) (hN' : N < 2147452001) (hB : -1000 < B) (hle : B ≤ N) :
    int (B + 3) = some (B + 3) ∧
      intSum [N, (B + 3).tmod 7, -B, 4] = some (N + (B + 3).tmod 7 - B + 4) ∧
      (N + (B + 3).tmod 7 - B + 4).tdiv 7 = weekFrom N B := by
  have hmod := Int.lt_tmod_of_pos (B + 3) (by norm_num : (0 : ℤ) < 7)
  have hmod' := Int.tmod_lt_of_pos (B + 3) (by norm_num : (0 : ℤ) < 7)
  have hsign : 0 ≤ B + 3 → 0 ≤ (B + 3).tmod 7 := fun h => Int.tmod_nonneg 7 h
  generalize hw : (B + 3).tmod 7 = w at *
  refine ⟨if_pos (by omega), ?_, ?_⟩
  · have hN₁ : int N = some N := if_pos (by omega)
    have hw₁ : int (N + w) = some (N + w) := if_pos (by omega)
    have hB₁ : int (N + w + -B) = some (N + w + -B) := if_pos (by omega)
    have hsum : int (N + w + -B + 4) = some (N + w - B + 4) := if_pos (by omega)
    simp only [intSum, List.foldlM_cons, List.foldlM_nil, zero_add, hN₁, hw₁, hB₁, hsum,
      Option.bind_eq_bind, Option.bind_some]
    rfl
  · rw [weekFrom, hw, Int.tdiv_eq_ediv_of_nonneg (by omega)]

/-- The week number of a date. -/
theorem weekOfYear_eq {d : InternDate} (hd : d.isValid = true) (hpos : 0 < d.number) :
    d.weekOfYear = if d.Fits then some (
      let N := d.number + if d.InDay then 0 else 1
      let week := weekFrom N (newYear d.myear)
      if 1 ≤ week ∧ week ≤ 52 then week
      else if week = 53 then
        if (newYear d.myear + 3).tmod 7 = 6 ∨ (newYear d.myear + 3).tmod 7 = 5 ∧ IsLeap d.myear then
          week
        else 1
      else if week = 0 then weekFrom N (newYear (d.myear - 1))
      else week) else none := by
  obtain ⟨hday, -⟩ := (isValid_iff d).mp hd
  have hjulian := fun v => julianDayNumber_of_pos hday hpos (v := v)
  by_cases hfits : d.Fits
  · have hdate : d.julianDay = some (d.number + (d.mhours : ℚ) / 24 + (d.mminutes : ℚ) / 1440 +
        (d.mseconds : ℚ) / 86400) := by
      rw [julianDay, (hjulian _).mpr ⟨hfits, rfl⟩]
      rfl
    have hlt := hfits.number_lt hday hpos
    obtain ⟨hyear, hle, -⟩ := newYear_le hday hpos
    have hprev := newYear_succ (d.myear - 1)
    have hfirst : -1000 < newYear (d.myear - 1) ∧ newYear (d.myear - 1) ≤ newYear d.myear := by
      rw [sub_add_cancel] at hprev
      unfold yearLength at hprev
      refine ⟨?_, by split_ifs at hprev <;> omega⟩
      unfold newYear
      omega
    obtain ⟨N, hN⟩ : ∃ N, N = d.number + if d.InDay then 0 else 1 := ⟨_, rfl⟩
    have hN₀ : 0 < N ∧ N < 2147452001 ∧ newYear d.myear ≤ N := by
      rw [hN]
      split_ifs <;> omega
    obtain ⟨hint, hsum, hweek⟩ := week_eq hN₀.1 hN₀.2.1 (by omega) hN₀.2.2
    obtain ⟨hint', hsum', hweek'⟩ := week_eq hN₀.1 hN₀.2.1 hfirst.1 (by omega)
    have hbegin : int (newYear d.myear) = some (newYear d.myear) := if_pos (by omega)
    have hbegin' : int (newYear (d.myear - 1)) = some (newYear (d.myear - 1)) := if_pos (by omega)
    have hbefore : int (d.myear - 1) = some (d.myear - 1) := by
      refine if_pos ⟨by omega, ?_⟩
      unfold newYear at hle
      omega
    rw [if_pos hfits, weekOfYear, hdate,
      julianDay_newYear (by omega) (hfits.newYear hday (by omega) le_rfl)]
    have hjan := julianDay_newYear (by omega)
      (hfits.newYear hday (by omega) (by omega : d.myear - 1 ≤ d.myear))
    simp only [hjan, Option.bind_eq_bind, Option.bind_some, castInt_intCast, hbegin, hbegin', hbefore,
      castInt_julianDay hd hpos.le (by omega), ← hN, hint, hint', hsum, hsum', hweek, hweek',
      intern_isLeapYear_iff]
    split_ifs <;> rfl
  · have hnone : d.julianDay = none := by
      have hnumber : d.julianDayNumber = none :=
        Option.eq_none_iff_forall_ne_some.mpr fun v hv => hfits ((hjulian v).mp hv).1
      rw [julianDay, hnumber]
      rfl
    rw [if_neg hfits, weekOfYear, hnone]
    simp only [Option.bind_eq_bind, Option.bind_none, Option.bind_fun_none]

/-- The computation of the week of the `k`-th day of a year of `L` days, `wd` days of the week after
its first Thursday's, for a day counted as `k + c`: the week is the one of the Thursday of its own
week, `q` weeks and `r` days on, unless a Sunday is counted for the next day. -/
theorem week_correct (k wd wd₀ c L L' q r : ℤ) (leap : Prop) [Decidable leap]
    (hc : c = 0 ∨ c = 1) (hk : 0 ≤ k ∧ k < L) (hL : L = 366 ∧ leap ∨ L = 365 ∧ ¬ leap) (hL' : L' = 366 ∨ L' = 365) (hwd : 0 ≤ wd ∧ wd < 7)
    (hwd₀ : k + wd + 4 < 7 → wd₀ = (wd - L') % 7) (hq : k + wd + 4 = 7 * q + r)
    (hr : 0 ≤ r ∧ r < 7) :
    (if 1 ≤ (k + c + wd + 4) / 7 ∧ (k + c + wd + 4) / 7 ≤ 52 then (k + c + wd + 4) / 7
      else if (k + c + wd + 4) / 7 = 53 then
        if wd = 6 ∨ wd = 5 ∧ leap then (k + c + wd + 4) / 7 else 1
      else if (k + c + wd + 4) / 7 = 0 then (k + c + L' + wd₀ + 4) / 7
      else (k + c + wd + 4) / 7) =
      (k - r + 3 - (if k - r + 3 < 0 then -L' else if L ≤ k - r + 3 then L else 0)) / 7 + 1 ↔
      (c = 0 ∨ r ≠ 6) := by
  have hweek : (k + c + wd + 4) / 7 = if c = 1 ∧ r = 6 then q + 1 else q := by
    split_ifs <;> omega
  have hth : k - r + 3 = 7 * q - wd - 1 := by omega
  have hleap : leap ↔ L = 366 := by
    rcases hL with ⟨h, h'⟩ | ⟨h, h'⟩ <;> simp [h, h']
  have hL₀ : L = 366 ∨ L = 365 := by omega
  simp only [hweek, hth, hleap]
  by_cases hlate : c = 1 ∧ r = 6
  · rw [if_pos hlate]
    have h : ¬ (c = 0 ∨ r ≠ 6) := by omega
    simp only [h, iff_false]
    split_ifs <;> omega
  · rw [if_neg hlate]
    have h : c = 0 ∨ r ≠ 6 := by omega
    simp only [h, iff_true]
    split_ifs <;> omega

/-- The dates whose week is the one of the calendar. In the last days of -4713, whose first day has
a negative number, the remainder of that number gives the week before; a time of day of 24 hours
counts for the day after, which changes the week of a Sunday. -/
def WeekCounted (d : InternDate) : Prop :=
  d.Fits ∧ (-4712 ≤ d.myear ↔ d.InDay ∨ d.number % 7 ≠ 6)

instance (d : InternDate) : Decidable d.WeekCounted := by unfold WeekCounted; infer_instance

/-- The week number is that of the calendar exactly for the dates whose week is counted. -/
theorem weekOfYear_iff {d : InternDate} (hd : d.isValid = true) (hpos : 0 < d.number)
    (hday : d.ValidDay) :
    d.weekOfYear = some (d.calendarDate hday).isoWeek ↔ d.WeekCounted := by
  obtain ⟨hyear, hle, hlt⟩ := newYear_le hday hpos
  have hnumber : (d.calendarDate hday).number = d.number := rfl
  have hyear' : (d.calendarDate hday).year = d.myear := rfl
  have hnext := newYear_succ d.myear
  have hprev := newYear_succ (d.myear - 1)
  rw [sub_add_cancel] at hprev
  have hlen : yearLength d.myear = 366 ∧ IsLeap d.myear ∨
      yearLength d.myear = 365 ∧ ¬ IsLeap d.myear := by
    unfold yearLength
    split_ifs with h <;> simp [h]
  have hlen' : yearLength (d.myear - 1) = 366 ∨ yearLength (d.myear - 1) = 365 := by
    unfold yearLength
    split_ifs <;> simp
  have hB : d.myear = -4713 ∧ newYear d.myear = -327 ∨ d.myear = -4712 ∧ newYear d.myear = 38 ∨
      -4711 ≤ d.myear ∧ 404 ≤ newYear d.myear := by
    obtain h | h | h : d.myear = -4713 ∨ d.myear = -4712 ∨ -4711 ≤ d.myear := by omega
    · exact .inl ⟨h, by rw [h]; decide⟩
    · exact .inr (.inl ⟨h, by rw [h]; decide⟩)
    · refine .inr (.inr ⟨h, ?_⟩)
      unfold newYear
      omega
  rw [weekOfYear_eq hd hpos, WeekCounted]
  by_cases hfits : d.Fits
  · obtain ⟨c, hc, hc'⟩ : ∃ c : ℤ, (if d.InDay then 0 else 1) = c ∧ (c = 0 ∧ d.InDay ∨
        c = 1 ∧ ¬ d.InDay) := by
      by_cases h : d.InDay <;> simp [h]
    have hiso : newYear (d.calendarDate hday).isoYear = newYear d.myear +
        if d.number - newYear d.myear - d.number % 7 + 3 < 0 then -yearLength (d.myear - 1)
        else if yearLength d.myear ≤ d.number - newYear d.myear - d.number % 7 + 3 then
          yearLength d.myear
        else 0 := by
      rw [Date.isoYear, hnumber, hyear', thursday]
      split_ifs <;> omega
    rw [if_pos hfits, Option.some.injEq, Date.isoWeek, hiso, hnumber, thursday, hc]
    simp only [hfits, true_and, weekFrom]
    rcases hB with ⟨hfirst, hB⟩ | hB
    · -- The first year: its first day is day -327, whose remainder is negative.
      have hlen₀ : yearLength d.myear = 365 := by rw [hfirst]; decide
      have hmod : ((-327 : ℤ) + 3).tmod 7 = -2 := by decide
      have hlate : ¬ -4712 ≤ d.myear := by omega
      simp only [hlate, false_iff, hB, hlen₀, hmod]
      have hlt' : d.number < 38 := by omega
      generalize (newYear (d.myear - 1) + 3).tmod 7 - newYear (d.myear - 1) = x at *
      rcases hc' with ⟨rfl, h⟩ | ⟨rfl, h⟩ <;> simp only [h, true_or, false_or, not_true_eq_false, not_not, iff_false] <;> split_ifs <;> omega
    · have hlate : -4712 ≤ d.myear := by omega
      have hmod : (newYear d.myear + 3).tmod 7 = (newYear d.myear + 3) % 7 :=
        Int.tmod_eq_emod_of_nonneg (by omega)
      have hmod₀ : d.number - newYear d.myear + (newYear d.myear + 3) % 7 + 4 < 7 →
          (newYear (d.myear - 1) + 3).tmod 7 =
            ((newYear d.myear + 3) % 7 - yearLength (d.myear - 1)) % 7 := by
        intro h
        rw [Int.tmod_eq_emod_of_nonneg (by omega)]
        omega
      have hmain := week_correct (d.number - newYear d.myear) ((newYear d.myear + 3) % 7) _ c
        (yearLength d.myear) (yearLength (d.myear - 1))
        ((d.number - newYear d.myear + (newYear d.myear + 3) % 7 + 4) / 7) (d.number % 7)
        (IsLeap d.myear) (by omega) (by omega) (by omega) (by omega) (by omega) hmod₀ (by omega)
        (by omega)
      have hweek : d.number + c + (newYear d.myear + 3) % 7 - newYear d.myear + 4 =
          d.number - newYear d.myear + c + (newYear d.myear + 3) % 7 + 4 := by ring
      have hweek₀ (w : ℤ) : d.number + c + w - newYear (d.myear - 1) + 4 =
          d.number - newYear d.myear + c + yearLength (d.myear - 1) + w + 4 := by omega
      have hthursday (x : ℤ) : d.number - d.number % 7 + 3 - (newYear d.myear + x) =
          d.number - newYear d.myear - d.number % 7 + 3 - x := by ring
      have hinday : d.InDay ↔ c = 0 := by
        rcases hc' with ⟨h, h'⟩ | ⟨h, h'⟩ <;> simp [h, h']
      simp only [hlate, true_iff, hmod, hweek, hweek₀, hthursday, hinday]
      exact hmain
  · rw [if_neg hfits]
    simp [hfits]

/-- Week 1 is the week of the first Thursday of its year. -/
theorem weekOfYear_eq_one {d : InternDate} (hd : d.isValid = true) (hpos : 0 < d.number)
    (hday : d.ValidDay) (h : d.WeekCounted) : d.weekOfYear = some 1 ↔
      thursday d.number < newYear (d.calendarDate hday).isoYear + 7 := by
  rw [(weekOfYear_iff hd hpos hday).mpr h, Option.some.injEq]
  exact (d.calendarDate hday).isoWeek_eq_one

/-! ## Days of the week -/

/-- The sum whose remainder is the day of the week. -/
def weekdaySum (d : InternDate) : ℤ :=
  d.mday + d.marchYear + d.marchYear.tdiv 4 - d.marchYear.tdiv 100 + d.marchYear.tdiv 400 +
    31 * (d.marchMonth + 1) / 12

/-- The dates whose day of the week is the one of their number: those from 1 March of year 0, as
far as the sums are `int`s, and before it those of leap years whose sum is not negative or leaves
no remainder. -/
def WeekdayCounted (d : InternDate) : Prop :=
  d.mday + d.marchYear + d.marchYear.tdiv 4 ≤ 2147483647 ∧
    (0 ≤ d.marchYear ∨ IsLeap d.marchYear ∧ (0 ≤ d.weekdaySum ∨ (d.number + 1) % 7 = 0))

instance (d : InternDate) : Decidable d.WeekdayCounted := by unfold WeekdayCounted; infer_instance

/-- The day of the week, computed within the `int`s. -/
theorem dayOfWeek_eq_some {d : InternDate} (hd : d.ValidDay) (hpos : 0 < d.number) {v : ℤ} :
    d.dayOfWeek = some v ↔ d.mday + d.marchYear + d.marchYear.tdiv 4 ≤ 2147483647 ∧
      v = d.weekdaySum.tmod 7 := by
  have hyear := marchYear_of_pos hd hpos
  have hb4 := tdiv_bounds d.marchYear (by norm_num : (0 : ℤ) < 4)
  have hb100 := tdiv_bounds d.marchYear (by norm_num : (0 : ℤ) < 100)
  have hb400 := tdiv_bounds d.marchYear (by norm_num : (0 : ℤ) < 400)
  have hday' := hd.2.2.2.trans (monthLength_bounds _ _).2
  obtain ⟨hm, hm', hday, -⟩ := hd
  have ha : (14 - d.mmonth).tdiv 12 = (14 - d.mmonth) / 12 :=
    Int.tdiv_eq_ediv_of_nonneg (by omega)
  have hA : 0 ≤ (14 - d.mmonth) / 12 ∧ (14 - d.mmonth) / 12 ≤ 1 := by omega
  have hY : d.myear - (14 - d.mmonth) / 12 = d.marchYear := rfl
  have hM : 0 + d.mmonth + 12 * ((14 - d.mmonth) / 12) + -2 = d.marchMonth + 1 := by
    unfold marchMonth
    omega
  have hM₀ : 0 ≤ d.marchMonth ∧ d.marchMonth ≤ 11 := by unfold marchMonth; omega
  have hT : (31 * (d.marchMonth + 1)).tdiv 12 = 31 * (d.marchMonth + 1) / 12 :=
    Int.tdiv_eq_ediv_of_nonneg (by omega)
  have hT₀ : 0 ≤ 31 * (d.marchMonth + 1) / 12 ∧ 31 * (d.marchMonth + 1) / 12 ≤ 31 := by omega
  have hsum : 0 + d.mday + d.marchYear + d.marchYear.tdiv 4 + -d.marchYear.tdiv 100 +
      d.marchYear.tdiv 400 + 31 * (d.marchMonth + 1) / 12 = d.weekdaySum := by
    unfold weekdaySum
    ring
  simp only [dayOfWeek, intSum, List.foldlM_cons, List.foldlM_nil, Option.bind_eq_bind,
    Option.bind_eq_some_iff, int_eq_some, Option.pure_def, Option.some.injEq, and_assoc,
    exists_and_left, exists_eq_left', ha, hY, hM, hT, hsum]
  unfold weekdaySum at hsum ⊢
  generalize 31 * (d.marchMonth + 1) / 12 = T at *
  constructor <;> intro h <;> omega

/-- The day of the week is that of the day number exactly for the dates whose day is counted. -/
theorem dayOfWeek_iff {d : InternDate} (hd : d.ValidDay) (hpos : 0 < d.number) :
    d.dayOfWeek = some ((d.number + 1) % 7) ↔ d.WeekdayCounted := by
  have hnumber := number_eq hd
  have hleap := tdiv_leapDays d.marchYear
  have hday := hd.2.2.1
  obtain ⟨hM, hM'⟩ : 0 ≤ d.marchMonth ∧ d.marchMonth ≤ 11 := by
    obtain ⟨hm, hm', -, -⟩ := hd
    unfold marchMonth
    omega
  have hmonth : ((153 * d.marchMonth + 2) / 5 - 31 * (d.marchMonth + 1) / 12) % 7 = 5 := by
    generalize d.marchMonth = M at *
    interval_cases M <;> rfl
  have hsum : (d.number + 1) % 7 = (d.weekdaySum - if d.marchYear < 0 ∧ ¬ IsLeap d.marchYear then 1 else 0) % 7 := by
    unfold weekdaySum
    omega
  rw [dayOfWeek_eq_some hd hpos, WeekdayCounted, hsum]
  refine and_congr_right fun _ => ?_
  have htmod := Int.mul_tdiv_add_tmod d.weekdaySum 7
  have hlt := Int.tmod_lt_of_pos d.weekdaySum (by norm_num : (0 : ℤ) < 7)
  have hgt := Int.lt_tmod_of_pos d.weekdaySum (by norm_num : (0 : ℤ) < 7)
  have hsign : 0 ≤ d.weekdaySum ∧ 0 ≤ d.weekdaySum.tmod 7 ∨
      d.weekdaySum < 0 ∧ d.weekdaySum.tmod 7 ≤ 0 := by
    rcases le_or_gt 0 d.weekdaySum with h | h
    · exact .inl ⟨h, Int.tmod_nonneg 7 h⟩
    · have hneg := Int.tmod_nonneg 7 (by omega : 0 ≤ -d.weekdaySum)
      rw [Int.neg_tmod] at hneg
      exact .inr ⟨h, by omega⟩
  have hlate : 0 ≤ d.marchYear → 0 ≤ d.weekdaySum := by
    intro h
    rw [Int.tdiv_eq_ediv_of_nonneg h, Int.tdiv_eq_ediv_of_nonneg h,
      Int.tdiv_eq_ediv_of_nonneg h] at hleap
    unfold weekdaySum
    rw [Int.tdiv_eq_ediv_of_nonneg h, Int.tdiv_eq_ediv_of_nonneg h,
      Int.tdiv_eq_ediv_of_nonneg h]
    omega
  generalize d.weekdaySum = S at *
  by_cases hyear : IsLeap d.marchYear
  · simp only [hyear, not_true_eq_false, and_false, if_false, sub_zero, true_and] at *
    omega
  · simp only [hyear, not_false_eq_true, and_true, false_and, or_false] at *
    split_ifs at * <;> omega

/-- **Weeks.** For a valid date with a positive number, the week of the year is the one the calendar
counts, from the week of the year's first Thursday, exactly for the dates whose week is counted, and
the day of the week is the remainder of the number exactly for those whose day is counted; from one
such date to the next it goes on by one. -/
theorem weeks (d : InternDate) (hd : d.isValid = true) (hpos : 0 < d.number) :
    (d.weekOfYear = some (d.calendarDate ((isValid_iff d).mp hd).1).isoWeek ↔ d.WeekCounted) ∧
      (d.dayOfWeek = some ((d.number + 1) % 7) ↔ d.WeekdayCounted) ∧
      ∀ e : InternDate, e.isValid = true → e.number = d.number + 1 → d.WeekdayCounted →
        e.WeekdayCounted → ∃ w, d.dayOfWeek = some w ∧ e.dayOfWeek = some ((w + 1) % 7) := by
  obtain ⟨hday, -⟩ := (isValid_iff d).mp hd
  refine ⟨weekOfYear_iff hd hpos hday, dayOfWeek_iff hday hpos, fun e he hnext hcount hcount' => ?_⟩
  obtain ⟨heday, -⟩ := (isValid_iff e).mp he
  refine ⟨_, (dayOfWeek_iff hday hpos).mpr hcount, ?_⟩
  rw [(dayOfWeek_iff heday (by omega)).mpr hcount', hnext]
  congr 1
  omega

/-- 1 January 2016 lies in the last week of 2015. -/
theorem weeks_2016 : (⟨2016, 1, 1, 0, 0, 0⟩ : InternDate).weekOfYear = some 53 ∧
    (⟨2016, 1, 1, 0, 0, 0⟩ : InternDate).dayOfWeek = some 5 :=
  ⟨(weeks ⟨2016, 1, 1, 0, 0, 0⟩ (by decide) (by decide)).1.mpr (by decide),
    (weeks ⟨2016, 1, 1, 0, 0, 0⟩ (by decide) (by decide)).2.1.mpr (by decide)⟩

/-- 1 January of year 0 is a Saturday, but the source has it as a Friday. -/
theorem not_weeks :
    ((⟨0, 1, 1, 0, 0, 0⟩ : InternDate).isValid = true ∧
      0 < (⟨0, 1, 1, 0, 0, 0⟩ : InternDate).number ∧
      (⟨0, 1, 1, 0, 0, 0⟩ : InternDate).dayOfWeek ≠
        some (((⟨0, 1, 1, 0, 0, 0⟩ : InternDate).number + 1) % 7)) := by
  decide

end InternDate

end Vle.Utils
