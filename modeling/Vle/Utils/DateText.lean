import Vle.Utils.JulianDay
import Vle.Utils.PackageRoundTrip
import Mathlib.Data.List.SplitBy

/-!
# The texts of dates

`toString` writes the month and the day of a date with two digits, so that the text determines the
date, and `fromString` reads the text back unless the year is negative.
-/

namespace Vle.Utils

open Vle.Lib.Calendar

/-- A negative number is printed with its sign first. -/
theorem printed_negSucc (k : ℕ) : printed (Int.negSucc k) = '-' :: printed (k + 1 : ℕ) := by
  rw [printed_natCast, ← Nat.toList_repr]
  change (Int.repr (Int.negSucc k)).toList = _
  simp [Int.repr]

/-- A number is determined by how it is printed. -/
theorem printed_injective {x y : ℤ} (h : printed x = printed y) : x = y := by
  have hminus (a k : ℕ) : printed a ≠ '-' :: printed k := by
    intro hak
    have hdigits := (printed_spec (n := a) (by omega)).2.1
    rw [hak] at hdigits
    exact absurd (hdigits '-' List.mem_cons_self) (by decide)
  have hnat (a b : ℕ) (hab : printed a = printed b) : a = b := by
    have ha := (printed_spec (n := a) (by omega)).2.2
    have hb := (printed_spec (n := b) (by omega)).2.2
    rw [hab, hb] at ha
    exact_mod_cast ha.symm
  cases x with
  | ofNat a =>
    cases y with
    | ofNat b => exact congrArg Int.ofNat (hnat a b h)
    | negSucc b => exact absurd (h.trans (printed_negSucc b)) (hminus a (b + 1))
  | negSucc a =>
    cases y with
    | ofNat b => exact absurd (h.symm.trans (printed_negSucc a)) (hminus b (a + 1))
    | negSucc b =>
      rw [printed_negSucc, printed_negSucc] at h
      have := hnat _ _ (List.cons.inj h).2
      omega

namespace InternDate

/-- A number from 0 is padded to digits of its value. -/
theorem padded_spec {x : ℤ} (hx : 0 ≤ x) : (padded x).toList ≠ [] ∧
    (∀ c ∈ (padded x).toList, c.isDigit = true) ∧
    (Nat.ofDigitChars 10 (padded x).toList 0 : ℤ) = x := by
  obtain ⟨hne, hdigits, hvalue⟩ := printed_spec hx
  have hpadded : (padded x).toList = (if x < 10 then ['0'] else []) ++ printed x := by
    unfold padded printed
    split_ifs <;> simp
  rw [hpadded]
  refine ⟨by simp [hne], fun c hc => ?_, ?_⟩
  · rcases List.mem_append.mp hc with h | h
    · split_ifs at h
      · rw [List.mem_singleton.mp h]
        decide
      · cases h
    · exact hdigits c h
  · split_ifs
    · rw [List.singleton_append, Nat.ofDigitChars_cons]
      exact hvalue
    · exact hvalue

/-- Months and days are padded to two digits. -/
theorem padded_length {x : ℤ} (hx : 1 ≤ x) (hx' : x ≤ 31) : (padded x).toList.length = 2 := by
  interval_cases x <;> rfl

theorem padded_injective {x y : ℤ} (hx : 0 ≤ x) (hy : 0 ≤ y)
    (h : (padded x).toList = (padded y).toList) : x = y := by
  rw [← (padded_spec hx).2.2, ← (padded_spec hy).2.2, h]

/-- The text of a date. -/
theorem toString_ymd (d : InternDate) : (d.toString .ymd).toList =
    printed d.myear ++ ('-' :: (padded d.mmonth).toList ++ '-' :: (padded d.mday).toList) := by
  simp [toString, printed]

/-- A date is determined by its text, when its month and its day are written with two digits. -/
theorem toString_ymd_injective {d e : InternDate} (hdm : 1 ≤ d.mmonth ∧ d.mmonth ≤ 31)
    (hdd : 1 ≤ d.mday ∧ d.mday ≤ 31) (hem : 1 ≤ e.mmonth ∧ e.mmonth ≤ 31)
    (hed : 1 ≤ e.mday ∧ e.mday ≤ 31) (h : d.toString .ymd = e.toString .ymd) :
    d.equals e = true := by
  have hlist := congrArg String.toList h
  rw [toString_ymd, toString_ymd] at hlist
  have hlength := padded_length hdm.1 hdm.2
  have hlength' := padded_length hem.1 hem.2
  obtain ⟨hyear, htail⟩ := List.append_inj' hlist (by
    simp [hlength, hlength', padded_length hdd.1 hdd.2, padded_length hed.1 hed.2])
  obtain ⟨hmonth, hday⟩ := List.append_inj htail (by simp [hlength, hlength'])
  rw [equals_iff]
  exact ⟨printed_injective hyear,
    padded_injective (by omega) (by omega) (List.cons.inj hmonth).2,
    padded_injective (by omega) (by omega) (List.cons.inj hday).2⟩

/-- The fields of a text: digits and what stands between them. -/
theorem fieldMatches_eq {year month day : List Char} (hyear : year ≠ [])
    (hyear' : ∀ c ∈ year, c.isDigit = true) (hmonth : month ≠ [])
    (hmonth' : ∀ c ∈ month, c.isDigit = true) (hday : day ≠ [])
    (hday' : ∀ c ∈ day, c.isDigit = true) :
    fieldMatches (year ++ ('-' :: month ++ '-' :: day)) = [year, ['-'], month, ['-'], day] := by
  have hchain (l : List Char) (hl : ∀ c ∈ l, c.isDigit = true) :
      l.IsChain fun a b => (a.isDigit && b.isDigit) = true := by
    refine List.Pairwise.isChain (List.pairwise_of_forall_mem_list fun a ha b hb => ?_)
    rw [hl a ha, hl b hb, Bool.and_self]
  refine List.splitBy_eq_iff.mpr ⟨by simp, by simp [hyear.symm, hmonth.symm, hday.symm], ?_,
    by simp [hyear, hmonth, hday]⟩
  simp only [List.forall_mem_cons, List.not_mem_nil, false_imp_iff, implies_true, and_true]
  exact ⟨hchain _ hyear', List.isChain_singleton _, hchain _ hmonth', List.isChain_singleton _,
    hchain _ hday'⟩

/-- A sign is a field of its own. -/
theorem fieldMatches_minus (l : List Char) : fieldMatches ('-' :: l) = ['-'] :: fieldMatches l := by
  refine List.splitBy_eq_iff.mpr ⟨?_, ?_, ?_, ?_⟩
  · rw [List.flatten_cons, fieldMatches, List.flatten_splitBy]
    rfl
  · simp [fieldMatches, List.nil_notMem_splitBy]
  · rw [List.forall_mem_cons]
    exact ⟨List.isChain_singleton _, fun m hm => List.isChain_of_mem_splitBy hm⟩
  · rw [List.isChain_cons]
    refine ⟨fun m hm => ⟨by simp, ?_, by simp⟩,
      List.isChain_getLast_head_splitBy (fun a b => a.isDigit && b.isDigit) l⟩
    exact List.ne_nil_of_mem_splitBy (List.mem_of_mem_head? hm)

/-- A number that is an `int` is read from its digits. -/
theorem stoi_of_digits {l : List Char} (hl : ∀ c ∈ l, c.isDigit = true) :
    stoi l = int (Nat.ofDigitChars 10 l 0) := by
  rw [stoi, if_pos (List.all_eq_true.mpr hl)]

/-- The text of a valid date is read back when its year is an `int` that is not negative; the sign
of a negative year ends the reading before anything is read. -/
theorem fromString_toString {d : InternDate} (hd : d.ValidDay) :
    (fromString {} (d.toString .ymd) .ymd).1 =
      if 0 ≤ d.myear ∧ d.myear ≤ 2147483647 then
        { myear := d.myear, mmonth := d.mmonth, mday := d.mday }
      else {} := by
  obtain ⟨hm, hm', hday, hday'⟩ := hd
  have hle := (monthLength_bounds d.myear d.mmonth).2
  obtain ⟨hmne, hmdigits, hmvalue⟩ := padded_spec (x := d.mmonth) (by omega)
  obtain ⟨hdne, hddigits, hdvalue⟩ := padded_spec (x := d.mday) (by omega)
  rw [fromString, if_neg (by decide), fromFields, toString_ymd]
  rcases le_or_gt 0 d.myear with hyear | hyear
  · obtain ⟨hyne, hydigits, hyvalue⟩ := printed_spec hyear
    change (Nat.ofDigitChars 10 _ 0 : ℤ) = _ at hyvalue
    rw [fieldMatches_eq hyne hydigits hmne hmdigits hdne hddigits]
    simp only [readMatches, setMatch, stoi_of_digits hydigits, stoi_of_digits hmdigits,
      stoi_of_digits hddigits, hyvalue, hmvalue, hdvalue]
    have hmint : int d.mmonth = some d.mmonth := if_pos (by omega)
    have hdint : int d.mday = some d.mday := if_pos (by omega)
    by_cases hlarge : d.myear ≤ 2147483647
    · have hyint : int d.myear = some d.myear := if_pos (by omega)
      simp [hyint, hmint, hdint, hyear, hlarge]
    · have hyint : int d.myear = none := if_neg (by omega)
      simp [hyint, hlarge]
  · obtain ⟨k, hk⟩ := Int.eq_negSucc_of_lt_zero hyear
    rw [hk, printed_negSucc, List.cons_append, fieldMatches_minus, if_neg (by omega)]
    rfl

/-- The day number of the date that `fromString` starts from. -/
theorem julianDayNumber_default : ({} : InternDate).julianDayNumber = some 2232400 := by decide

/-- The day number that the text of a date is read as. -/
theorem toJulianDayNumber_toString {d : InternDate} (hd : d.ValidDay) (hpos : 0 < d.number) :
    DateTime.toJulianDayNumber (d.toString .ymd) = some d.number ↔ 0 ≤ d.myear ∧ d.Fits := by
  have hsame : ({ myear := d.myear, mmonth := d.mmonth, mday := d.mday } :
      InternDate).julianDayNumber = d.julianDayNumber := rfl
  have hjulian := julianDayNumber_of_pos hd hpos (v := d.number)
  rw [DateTime.toJulianDayNumber, fromString_toString hd]
  split_ifs with hyear
  · rw [hsame, hjulian]
    simp [hyear.1]
  · -- The date that is read is 1 January 1400, which has a year of its own.
    have hnumber := number_eq hd
    have hle := hd.2.2.2.trans (monthLength_bounds _ _).2
    have hmarch : d.marchYear ≤ d.myear ∧ d.myear - 1 ≤ d.marchYear ∧ 0 ≤ d.marchMonth ∧
        d.marchMonth ≤ 11 := by
      obtain ⟨hm, hm', -, -⟩ := hd
      unfold marchYear marchMonth
      omega
    have hday := hd.2.2.1
    rw [julianDayNumber_default, Option.some.injEq]
    refine iff_of_false (by omega) fun ⟨h0, hfits⟩ => ?_
    unfold Fits largestSum at hfits
    rw [Int.tdiv_eq_ediv_of_nonneg (by omega)] at hfits
    omega

/-- The text for a day number is that of its date exactly when the day is converted to it. -/
theorem textOfJulianDayNumber_iff {d : InternDate} (hd : d.ValidDay) (hpos : 0 < d.number) :
    DateTime.textOfJulianDayNumber d.number = some (d.toString .ymd) ↔ d.Converts := by
  have hfloor := Int.floor_intCast (R := ℚ) d.number
  have hle := hd.2.2.2.trans (monthLength_bounds d.myear d.mmonth).2
  rw [← fromJulianDay_number hd hpos hfloor, DateTime.textOfJulianDayNumber,
    fromJulianDay_eq hpos.le hfloor]
  split_ifs with h
  · have hsame (e : InternDate) : (some e >>= fun e => pure (e.toString .ymd) : Option String) =
        some (d.toString .ymd) ↔ e.toString .ymd = d.toString .ymd := by simp
    rw [hsame]
    constructor
    · intro htext
      obtain ⟨hem, hem', hed, hed'⟩ := ofDayCount_bounds (counted d.number) (d.number - d.number)
      exact ⟨_, rfl, toString_ymd_injective ⟨hem, by omega⟩ ⟨hed, hed'⟩ ⟨hd.1, by have := hd.2.1; omega⟩
        ⟨hd.2.2.1, hle⟩ htext⟩
    · rintro ⟨e, he, hed⟩
      obtain rfl := Option.some.inj he
      obtain ⟨hyear, hmonth, hday⟩ := (equals_iff _ _).mp hed
      simp only [toString, hyear, hmonth, hday]
      rfl
  · simp

/-- The round trip through the day number is a conversion of the date's number. -/
theorem roundTrips_iff {d : InternDate} (hd : d.ValidDay) (hpos : 0 < d.number) :
    d.RoundTrips ↔ d.Converts := by
  constructor
  · rintro ⟨J, e, hJ, he, hed⟩
    obtain ⟨-, rfl⟩ := (julianDayNumber_of_pos hd hpos).mp hJ
    exact (fromJulianDay_number hd hpos (Int.floor_intCast _)).mp ⟨e, he, hed⟩
  · intro h
    obtain ⟨e, he, hed⟩ := (fromJulianDay_number hd hpos (Int.floor_intCast _)).mpr h
    exact ⟨d.number, e, (julianDayNumber_of_pos hd hpos).mpr ⟨h.1.fits hd hpos, rfl⟩, he, hed⟩

/-- Two days in a row are given as their dates. -/
def Consecutive (d e : InternDate) : Prop :=
  Agrees d.number d ∧ Agrees (d.number + 1 : ℤ) e

/-- **Julian days and dates.** For a valid date with a positive number, the conversion to the day
number and back, the year, month and day that `DateTime` gives at any time of the day, and the text
for the day number, are those of the date exactly when it converts: in each 400 years the days from
30 June 33 to 28 February 100 and from 30 October 166 to 28 February 200 are taken for the day
after. The text is read back as the day number when the year is not negative. -/
theorem julianDay_conversions (d : InternDate) (hd : d.isValid = true) (hpos : 0 < d.number) :
    (d.RoundTrips ↔ d.Converts) ∧
      (∀ t : ℚ, ⌊t⌋ = d.number → (Agrees t d ↔ d.Converts)) ∧
      (DateTime.textOfJulianDayNumber d.number = some (d.toString .ymd) ↔ d.Converts) ∧
      (DateTime.toJulianDayNumber (d.toString .ymd) = some d.number ↔ 0 ≤ d.myear ∧ d.Fits) ∧
      ∀ e : InternDate, e.isValid = true → e.number = d.number + 1 →
        (Consecutive d e ↔ d.Converts ∧ e.Converts) := by
  obtain ⟨hday, -⟩ := (isValid_iff d).mp hd
  have hagrees {e : InternDate} (he : e.ValidDay) (hpos : 0 < e.number) (t : ℚ)
      (ht : ⌊t⌋ = e.number) : Agrees t e ↔ e.Converts :=
    (agrees_iff t e).trans (fromJulianDay_number he hpos ht)
  refine ⟨roundTrips_iff hday hpos, hagrees hday hpos, textOfJulianDayNumber_iff hday hpos,
    toJulianDayNumber_toString hday hpos, fun e he hnext => ?_⟩
  obtain ⟨heday, -⟩ := (isValid_iff e).mp he
  exact and_congr (hagrees hday hpos _ (Int.floor_intCast _))
    (hagrees heday (by omega) _ (hnext ▸ Int.floor_intCast _))

/-- 1 January 2000. -/
theorem julianDay_conversions_2000 :
    (⟨2000, 1, 1, 0, 0, 0⟩ : InternDate).RoundTrips :=
  (julianDay_conversions ⟨2000, 1, 1, 0, 0, 0⟩ (by decide) (by decide)).1.mpr (by decide)

/-- 1 January 2050 is taken for 2 January. -/
theorem not_roundTrips_2050 :
    (⟨2050, 1, 1, 0, 0, 0⟩ : InternDate).isValid = true ∧
      0 < (⟨2050, 1, 1, 0, 0, 0⟩ : InternDate).number ∧
      ¬ (⟨2050, 1, 1, 0, 0, 0⟩ : InternDate).RoundTrips := by
  refine ⟨by decide, by decide, fun h => ?_⟩
  have hday : (⟨2050, 1, 1, 0, 0, 0⟩ : InternDate).ValidDay := by unfold ValidDay; decide
  exact absurd ((roundTrips_iff hday (by decide)).mp h) (by decide)

end InternDate

end Vle.Utils
