import Vle.Utils.Weeks

/-!
# Durations of months and years

A number of months or years after a date is the same day of a later month, where a day past the end
of the month counts on. `addMonths` takes a year's months away in each turn of its loop and corrects
the day by a length that it asks for with the month and the year exchanged: beyond year 12 that
length is the least `int`, and the correction leaves the `int`s.
-/

namespace Vle.Utils

open Vle.Lib.Calendar

namespace InternDate

/-- The month of a date, the months counted in a row. -/
def monthIndex (d : InternDate) : ℤ := 12 * d.myear + (d.mmonth - 1)

/-- The number of the same day of the month `n` months later. -/
def laterNumber (d : InternDate) (n : ℕ) : ℤ := indexStart (d.monthIndex + n) + d.mday

/-- The body of `DateTime::months`, of the date of the time. -/
def monthsOf (d : InternDate) (n : ℕ) : Option ℚ := do
  let d2 ← d.addMonths (DateTime.ofUnsigned n)
  return (← d2.julianDay) - (← d.julianDay)

/-- The body of `DateTime::years`, of the date of the time. -/
def yearsOf (d : InternDate) (n : ℕ) : Option ℚ := do
  let d2 := { d with myear := DateTime.ofUnsigned ((d.myear + n) % 4294967296).toNat }
  return (← d2.julianDay) - (← d.julianDay)

/-- The same day of the month `n` months later, as a date whose day may be past the month. -/
def later (d : InternDate) (n : ℕ) : InternDate :=
  { d with myear := (d.monthIndex + n) / 12, mmonth := (d.monthIndex + n) % 12 + 1 }

/-- The day number that is computed, for a month that may be before January. -/
theorem julianDayNumber_value {d : InternDate} {v : ℤ} (hm : d.mmonth ≤ 12)
    (h : d.julianDayNumber = some v) : v = indexStart d.monthIndex + d.mday + d.slip := by
  have hstart : indexStart d.monthIndex = (153 * d.marchMonth + 2) / 5 + 365 * d.marchYear +
      d.marchYear / 4 - d.marchYear / 100 + d.marchYear / 400 + 1721119 := by
    have hyear : d.marchYear = d.monthIndex / 12 - (14 - (d.monthIndex % 12 + 1)) / 12 := by
      unfold marchYear monthIndex
      omega
    have hmonth : d.marchMonth = d.monthIndex % 12 + 1 +
        12 * ((14 - (d.monthIndex % 12 + 1)) / 12) - 3 := by
      unfold marchMonth monthIndex
      omega
    rw [indexStart, monthStart_eq _ (by omega) (by omega) rfl hyear, hmonth]
  have hleap := d.leapDays_eq
  have ha : (14 - d.mmonth).tdiv 12 = (14 - d.mmonth) / 12 :=
    Int.tdiv_eq_ediv_of_nonneg (by omega)
  have hM : 0 ≤ d.marchMonth := by unfold marchMonth; omega
  have hM' : 0 + d.mmonth + 12 * ((14 - d.mmonth) / 12) + -3 = d.marchMonth := by
    unfold marchMonth
    omega
  have hY : 0 + d.myear + 4800 + -((14 - d.mmonth) / 12) = d.marchYear + 4800 := by
    unfold marchYear
    omega
  have hT : (0 + 153 * d.marchMonth + 2).tdiv 5 = (153 * d.marchMonth + 2) / 5 := by
    rw [Int.tdiv_eq_ediv_of_nonneg (by omega), zero_add]
  simp only [julianDayNumber, intSum, List.foldlM_cons, List.foldlM_nil, Option.bind_eq_bind,
    Option.bind_eq_some_iff, int_eq_some, Option.pure_def, Option.some.injEq, and_assoc,
    exists_and_left, exists_eq_left', ha, hY, hM', hT] at h
  omega

/-! ## The loop of `addMonths` -/

/-- The day of a date by months counted in a row. -/
def indexNumber (d : InternDate) : ℤ := indexStart d.monthIndex + d.mday

/-- The ends of years that the months of a date go over. -/
def crossings (d : InternDate) : ℕ := ((d.mmonth - 1) / 12).toNat

/-- The length that turn `k` of the loop asks for. -/
def asked (d : InternDate) (k : ℕ) : ℤ :=
  intern_aMonth (d.mmonth - 12 * (k + 1)) (d.myear + (k + 1))

/-- The years of the turns can take the places of months. -/
def YearsAreMonths (d : InternDate) : Prop :=
  ∀ k < d.crossings, 1 ≤ d.myear + (k + 1) ∧ d.myear + (k + 1) ≤ 12

instance (d : InternDate) : Decidable d.YearsAreMonths := by unfold YearsAreMonths; infer_instance

/-- The first length asked for that the day is past is the one of the month arrived at. -/
def FirstLengthRight (d : InternDate) : Prop :=
  ∀ k < d.crossings, d.asked k < d.mday → (∀ j < k, d.mday ≤ d.asked j) →
    d.asked k = monthLength (d.monthIndex / 12) (d.monthIndex % 12 + 1)

instance (d : InternDate) : Decidable d.FirstLengthRight := by
  unfold FirstLengthRight
  infer_instance

/-- The turns of the loop keep to the calendar. -/
def TurnsRight (d : InternDate) : Prop := d.YearsAreMonths ∧ d.FirstLengthRight

instance (d : InternDate) : Decidable d.TurnsRight := by unfold TurnsRight; infer_instance

theorem intern_aMonth_of_not (year : ℤ) {month : ℤ} (h : ¬ (1 ≤ month ∧ month ≤ 12)) :
    intern_aMonth year month = -2147483648 := by
  unfold intern_aMonth
  rw [if_neg (by omega), if_neg (by omega), if_neg (by omega), if_neg (by omega),
    if_neg (by omega), if_neg (by omega), if_neg (by omega), if_neg (by omega),
    if_neg (by omega), if_neg (by omega), if_neg (by omega), if_neg (by omega)]

/-- Beyond year 12 the correction of the day leaves the `int`s. -/
theorem addMonthsTurn_none {d : InternDate} (h : ¬ (1 ≤ d.myear + 1 ∧ d.myear + 1 ≤ 12))
    (hday : 1 ≤ d.mday) : d.addMonthsTurn = none := by
  have hsub : int (d.mday - -2147483648) = none := if_neg (by omega)
  unfold addMonthsTurn
  cases hyear : int (d.myear + 1) with
  | none => rfl
  | some y =>
    obtain ⟨-, rfl⟩ := int_eq_some.mp hyear
    simp only [Option.bind_eq_bind, Option.bind_some, intern_aMonth_of_not _ h]
    rw [if_pos (by omega), hsub]
    rfl

/-- A turn whose length reaches the day takes a year's months away. -/
theorem addMonthsTurn_keep {d : InternDate} (h : 1 ≤ d.myear + 1 ∧ d.myear + 1 ≤ 12)
    (hle : d.mday ≤ intern_aMonth (d.mmonth - 12) (d.myear + 1)) :
    d.addMonthsTurn = some { d with myear := d.myear + 1, mmonth := d.mmonth - 12 } := by
  have hyear : int (d.myear + 1) = some (d.myear + 1) := if_pos (by omega)
  unfold addMonthsTurn
  simp only [hyear, Option.bind_eq_bind, Option.bind_some]
  rw [if_neg (by omega)]
  rfl

/-- A turn whose length the day is past takes the length away as well. -/
theorem addMonthsTurn_carry {d : InternDate} (h : 1 ≤ d.myear + 1 ∧ d.myear + 1 ≤ 12)
    (hlt : intern_aMonth (d.mmonth - 12) (d.myear + 1) < d.mday) (hday : d.mday ≤ 31) :
    d.addMonthsTurn = some { d with
      myear := d.myear + 1
      mmonth := d.mmonth - 12 + 1
      mday := d.mday - intern_aMonth (d.mmonth - 12) (d.myear + 1) } := by
  have hlen := monthLength_bounds (d.mmonth - 12) (d.myear + 1)
  rw [← intern_aMonth_eq _ h.1 h.2] at hlen
  have hyear : int (d.myear + 1) = some (d.myear + 1) := if_pos (by omega)
  have hsub : int (d.mday - intern_aMonth (d.mmonth - 12) (d.myear + 1)) =
      some (d.mday - intern_aMonth (d.mmonth - 12) (d.myear + 1)) := if_pos (by omega)
  unfold addMonthsTurn
  simp only [hyear, Option.bind_eq_bind, Option.bind_some]
  rw [if_pos hlt, hsub]
  rfl

/-- What the loop arrives at from a date. -/
structure Arrives (d e : InternDate) : Prop where
  month : 1 ≤ e.mmonth ∧ e.mmonth ≤ 12
  day : 1 ≤ e.mday ∧ e.mday ≤ 31
  time : e.mhours = d.mhours ∧ e.mminutes = d.mminutes ∧ e.mseconds = d.mseconds
  near : d.mmonth ≤ 12 → e = d
  far : 12 < d.mmonth → (0 ≤ d.myear ∧ d.myear ≤ 11) ∧ 0 ≤ e.myear ∧ e.myear ≤ 12

/-- A date whose months are those of one year is arrived at. -/
theorem Arrives.refl {d : InternDate} (hm : 1 ≤ d.mmonth) (hm' : d.mmonth ≤ 12)
    (hday : 1 ≤ d.mday ∧ d.mday ≤ 31) : d.Arrives d :=
  ⟨⟨hm, hm'⟩, hday, ⟨rfl, rfl, rfl⟩, fun _ => rfl, fun h => absurd hm' (by omega)⟩

/-- What is arrived at after a turn is arrived at. -/
theorem Arrives.turn {d d' e : InternDate} (h : d'.Arrives e) (hm : 12 < d.mmonth)
    (hyear : 1 ≤ d.myear + 1 ∧ d.myear + 1 ≤ 12) (hyear' : d'.myear = d.myear + 1)
    (htime : d'.mhours = d.mhours ∧ d'.mminutes = d.mminutes ∧ d'.mseconds = d.mseconds) :
    d.Arrives e := by
  refine ⟨h.month, h.day, ?_, fun hle => absurd hle (by omega), fun _ => ⟨by omega, ?_⟩⟩
  · obtain ⟨h₁, h₂, h₃⟩ := h.time
    obtain ⟨h₄, h₅, h₆⟩ := htime
    exact ⟨h₁.trans h₄, h₂.trans h₅, h₃.trans h₆⟩
  · rcases le_or_gt d'.mmonth 12 with hle | hgt
    · rw [h.near hle]
      omega
    · exact (h.far hgt).2

/-- The date with a year's months turned into a year. -/
def turned (d : InternDate) : InternDate :=
  { d with myear := d.myear + 1, mmonth := d.mmonth - 12 }

theorem monthIndex_turned (d : InternDate) : d.turned.monthIndex = d.monthIndex := by
  unfold monthIndex turned
  ring

theorem crossings_turned {d : InternDate} (h : 12 < d.mmonth) :
    d.crossings = d.turned.crossings + 1 := by
  unfold crossings turned
  dsimp only
  omega

theorem asked_turned (d : InternDate) (k : ℕ) : d.turned.asked k = d.asked (k + 1) := by
  unfold asked turned
  push_cast
  congr 1 <;> ring

theorem yearsAreMonths_turned {d : InternDate} (h : 12 < d.mmonth) :
    d.YearsAreMonths ↔ (1 ≤ d.myear + 1 ∧ d.myear + 1 ≤ 12) ∧ d.turned.YearsAreMonths := by
  unfold YearsAreMonths
  rw [crossings_turned h, Nat.forall_lt_succ_left]
  have hshift (k : ℕ) : d.turned.myear + (k + 1) = d.myear + ((k + 1 : ℕ) + 1) := by
    unfold turned
    push_cast
    ring
  simp only [hshift, Nat.cast_zero, zero_add]

/-- From a day that each month has, the loop corrects nothing. -/
theorem addMonthsLoop_small (fuel : ℕ) {d : InternDate} (hm : 1 ≤ d.mmonth) (hfuel : d.mmonth ≤ fuel)
    (hday : 1 ≤ d.mday ∧ d.mday ≤ 28) :
    (∃ e, addMonthsLoop fuel d = some e ∧ d.Arrives e ∧ e.indexNumber = d.indexNumber ∧
        d.YearsAreMonths) ∨ (addMonthsLoop fuel d = none ∧ ¬ d.YearsAreMonths) := by
  induction fuel generalizing d with
  | zero => exact absurd (hm.trans hfuel) (by norm_num)
  | succ fuel ih =>
    push_cast at hfuel
    rw [addMonthsLoop]
    rcases le_or_gt d.mmonth 12 with hle | hgt
    · have hzero : d.crossings = 0 := by unfold crossings; omega
      rw [if_neg (by omega)]
      exact .inl ⟨d, rfl, .refl hm hle ⟨hday.1, by omega⟩, rfl, fun k hk => by omega⟩
    · rw [if_pos hgt, yearsAreMonths_turned hgt]
      by_cases hyear : 1 ≤ d.myear + 1 ∧ d.myear + 1 ≤ 12
      · have hlen := monthLength_bounds (d.mmonth - 12) (d.myear + 1)
        rw [← intern_aMonth_eq _ hyear.1 hyear.2] at hlen
        rw [addMonthsTurn_keep hyear (by omega)]
        simp only [hyear, true_and]
        have hindex : d.turned.indexNumber = d.indexNumber := by
          rw [indexNumber, monthIndex_turned]
          rfl
        rcases ih (d := d.turned) (by unfold turned; dsimp only; omega)
          (by unfold turned; dsimp only; omega) hday with ⟨e, he, harr, hsame, hyears⟩ | hnone
        · exact .inl ⟨e, he, harr.turn hgt hyear rfl ⟨rfl, rfl, rfl⟩, hsame.trans hindex, hyears⟩
        · exact .inr hnone
      · rw [addMonthsTurn_none hyear hday.1]
        exact .inr ⟨rfl, fun h => hyear h.1⟩

/-- A length that reaches the day is not the first that the day is past. -/
theorem firstLengthRight_turned {d : InternDate} (h : 12 < d.mmonth) (hle : d.mday ≤ d.asked 0) :
    d.FirstLengthRight ↔ d.turned.FirstLengthRight := by
  unfold FirstLengthRight
  rw [crossings_turned h, Nat.forall_lt_succ_left, monthIndex_turned]
  have hday : d.turned.mday = d.mday := rfl
  simp only [Nat.forall_lt_succ_left, asked_turned, hday, hle, true_and]
  exact ⟨fun h => h.2, fun h => ⟨fun hlt => absurd hle (by omega), h⟩⟩

/-- The first length that the day is past decides. -/
theorem firstLengthRight_iff {d : InternDate} (h : 12 < d.mmonth) (hlt : d.asked 0 < d.mday) :
    d.FirstLengthRight ↔
      d.asked 0 = monthLength (d.monthIndex / 12) (d.monthIndex % 12 + 1) := by
  unfold FirstLengthRight
  rw [crossings_turned h, Nat.forall_lt_succ_left]
  refine ⟨fun h => h.1 hlt fun j hj => absurd hj (by omega), fun h => ⟨fun _ _ => h, ?_⟩⟩
  intro k _ _ hbefore
  exact absurd (hbefore 0 (by omega)) (by omega)

/-- The date after a turn whose length the day is past. -/
def carried (d : InternDate) : InternDate :=
  { d with myear := d.myear + 1, mmonth := d.mmonth - 12 + 1, mday := d.mday - d.asked 0 }

/-- A carried day is the same when the length is that of the month arrived at. -/
theorem indexNumber_carried (d : InternDate) : d.carried.indexNumber = d.indexNumber ↔
    d.asked 0 = monthLength (d.monthIndex / 12) (d.monthIndex % 12 + 1) := by
  have hindex : d.carried.monthIndex = d.monthIndex + 1 := by
    unfold monthIndex carried
    ring
  have hday : d.carried.mday = d.mday - d.asked 0 := rfl
  rw [indexNumber, indexNumber, hindex, indexStart_succ, hday]
  omega

/-- The years of the turns after a carried day, unless the month arrived at is December, which has
the longest length. -/
theorem yearsAreMonths_carried {d : InternDate} (h : 12 < d.mmonth)
    (hlt : d.asked 0 < d.mday) (hday : d.mday ≤ 31)
    (heq : d.asked 0 = monthLength (d.monthIndex / 12) (d.monthIndex % 12 + 1)) :
    d.carried.YearsAreMonths ↔ d.turned.YearsAreMonths := by
  have hmonth : d.monthIndex % 12 ≠ 11 := by
    intro h'
    rw [h'] at heq
    have : monthLength (d.monthIndex / 12) (11 + 1) = 31 := by simp [monthLength]
    omega
  have hcrossings : d.carried.crossings = d.turned.crossings := by
    unfold monthIndex at hmonth
    unfold crossings carried turned
    dsimp only
    omega
  unfold YearsAreMonths
  rw [hcrossings]
  rfl

/-- The loop arrives at the day of the months counted in a row exactly when its turns are right. -/
theorem addMonthsLoop_iff (fuel : ℕ) {d : InternDate} (hm : 1 ≤ d.mmonth) (hfuel : d.mmonth ≤ fuel)
    (hday : 1 ≤ d.mday ∧ d.mday ≤ 31) :
    (∃ e, addMonthsLoop fuel d = some e ∧ d.Arrives e ∧
        (e.indexNumber = d.indexNumber ↔ d.TurnsRight)) ∨
      (addMonthsLoop fuel d = none ∧ ¬ d.TurnsRight) := by
  unfold TurnsRight
  induction fuel generalizing d with
  | zero => exact absurd (hm.trans hfuel) (by norm_num)
  | succ fuel ih =>
    push_cast at hfuel
    rw [addMonthsLoop]
    rcases le_or_gt d.mmonth 12 with hle | hgt
    · have hzero : d.crossings = 0 := by unfold crossings; omega
      rw [if_neg (by omega)]
      exact .inl ⟨d, rfl, .refl hm hle hday, iff_of_true rfl
        ⟨fun k hk => by omega, fun k hk => by omega⟩⟩
    · rw [if_pos hgt, yearsAreMonths_turned hgt]
      by_cases hyear : 1 ≤ d.myear + 1 ∧ d.myear + 1 ≤ 12
      · simp only [hyear, true_and]
        have hasked : d.asked 0 = intern_aMonth (d.mmonth - 12) (d.myear + 1) := by simp [asked]
        rcases le_or_gt d.mday (d.asked 0) with hkeep | hcarry
        · rw [addMonthsTurn_keep hyear (hasked ▸ hkeep), firstLengthRight_turned hgt hkeep]
          have hindex : d.turned.indexNumber = d.indexNumber := by
            rw [indexNumber, monthIndex_turned]
            rfl
          rcases ih (d := d.turned) (by unfold turned; dsimp only; omega)
            (by unfold turned; dsimp only; omega) hday with ⟨e, he, harr, hsame⟩ | hnone
          · exact .inl ⟨e, he, harr.turn hgt hyear rfl ⟨rfl, rfl, rfl⟩, hindex ▸ hsame⟩
          · exact .inr hnone
        · rw [addMonthsTurn_carry hyear (hasked ▸ hcarry) hday.2, firstLengthRight_iff hgt hcarry]
          have hlen := monthLength_bounds (d.mmonth - 12) (d.myear + 1)
          rw [← intern_aMonth_eq _ hyear.1 hyear.2, ← hasked] at hlen
          rw [← hasked, ← indexNumber_carried]
          change (∃ e, addMonthsLoop fuel d.carried = some e ∧ _) ∨
            addMonthsLoop fuel d.carried = none ∧ _
          have hsmall := addMonthsLoop_small fuel (d := d.carried)
            (by unfold carried; dsimp only; omega) (by unfold carried; dsimp only; omega)
            (by unfold carried; dsimp only; omega)
          have hyears : d.carried.indexNumber = d.indexNumber →
              (d.carried.YearsAreMonths ↔ d.turned.YearsAreMonths) := fun h =>
            yearsAreMonths_carried hgt hcarry hday.2 ((indexNumber_carried d).mp h)
          rcases hsmall with ⟨e, he, harr, hsame, hright⟩ | ⟨hnone, hwrong⟩
          · refine .inl ⟨e, he, harr.turn hgt hyear rfl ⟨rfl, rfl, rfl⟩, ?_⟩
            rw [hsame]
            exact ⟨fun h => ⟨(hyears h).mp hright, h⟩, fun h => h.2⟩
          · exact .inr ⟨hnone, fun h => hwrong ((hyears h.2).mpr h.1)⟩
      · rw [addMonthsTurn_none hyear hday.1]
        exact .inr ⟨rfl, fun h => hyear h.1.1⟩

/-! ## Durations -/

/-- The months added are those of the calendar: the turns are right, and the day numbers are `int`s
that are off by the same. -/
def MonthsRight (d : InternDate) (n : ℕ) : Prop :=
  ({ d with mmonth := d.mmonth + n } : InternDate).TurnsRight ∧
    d.Fits ∧ (d.later n).Fits ∧ (d.later n).slip = d.slip

instance (d : InternDate) (n : ℕ) : Decidable (d.MonthsRight n) := by
  unfold MonthsRight
  infer_instance

/-- The years added are those of the calendar: the day numbers are `int`s that are off by the
same. -/
def YearsRight (d : InternDate) (n : ℕ) : Prop :=
  d.Fits ∧ (d.later (12 * n)).Fits ∧ (d.later (12 * n)).slip = d.slip

instance (d : InternDate) (n : ℕ) : Decidable (d.YearsRight n) := by
  unfold YearsRight
  infer_instance

theorem number_eq_indexNumber {d : InternDate} (hm : 1 ≤ d.mmonth ∧ d.mmonth ≤ 12) :
    d.number = d.indexNumber := by
  rw [number, indexNumber, monthIndex, indexStart_eq _ hm.1 hm.2]

/-- The difference of two Julian days at one time of the day. -/
theorem difference_iff (d e : InternDate) (x : ℤ)
    (htime : e.mhours = d.mhours ∧ e.mminutes = d.mminutes ∧ e.mseconds = d.mseconds) :
    (do return (← e.julianDay) - (← d.julianDay) : Option ℚ) = some (x : ℚ) ↔
      ∃ v w, e.julianDayNumber = some v ∧ d.julianDayNumber = some w ∧ v - w = x := by
  unfold julianDay
  cases he : e.julianDayNumber with
  | none => simp
  | some v =>
    cases hd : d.julianDayNumber with
    | none => simp
    | some w =>
      obtain ⟨h₁, h₂, h₃⟩ := htime
      simp only [Option.bind_eq_bind, Option.bind_some, Option.pure_def, Option.some.injEq, h₁, h₂,
        h₃, exists_and_left, exists_eq_left']
      have hsum (a b c : ℚ) : (v : ℚ) + a + b + c - ((w : ℚ) + a + b + c) = ((v - w : ℤ) : ℚ) := by
        push_cast
        ring
      rw [hsum]
      exact_mod_cast Iff.rfl

/-- The difference of the days of two dates of the calendar. -/
theorem difference_eq (d e : InternDate) (x : ℤ)
    (htime : e.mhours = d.mhours ∧ e.mminutes = d.mminutes ∧ e.mseconds = d.mseconds)
    (hm : 1 ≤ d.mmonth ∧ d.mmonth ≤ 12) (hd : 1 ≤ d.mday ∧ d.mday ≤ 31)
    (hm' : 1 ≤ e.mmonth ∧ e.mmonth ≤ 12) (hd' : 1 ≤ e.mday ∧ e.mday ≤ 31) :
    (do return (← e.julianDay) - (← d.julianDay) : Option ℚ) = some (x : ℚ) ↔
      d.Fits ∧ e.Fits ∧ e.indexNumber + e.slip - (d.indexNumber + d.slip) = x := by
  rw [difference_iff d e x htime]
  simp only [julianDayNumber_eq_some d hm.1 hm.2 hd.1 hd.2,
    julianDayNumber_eq_some e hm'.1 hm'.2 hd'.1 hd'.2, number_eq_indexNumber hm,
    number_eq_indexNumber hm']
  constructor
  · rintro ⟨v, w, ⟨he, rfl⟩, ⟨hd, rfl⟩, h⟩
    exact ⟨hd, he, h⟩
  · rintro ⟨hd, he, h⟩
    exact ⟨_, _, ⟨he, rfl⟩, ⟨hd, rfl⟩, h⟩

/-- The day numbers of the first years are `int`s and the calendar's. -/
theorem fits_of_early {d : InternDate} (hm : 1 ≤ d.mmonth ∧ d.mmonth ≤ 12)
    (hd : 1 ≤ d.mday ∧ d.mday ≤ 31) (hy : 0 ≤ d.myear ∧ d.myear ≤ 12) : d.Fits ∧ d.slip = 0 := by
  have hyear : -1 ≤ d.marchYear ∧ d.marchYear ≤ 12 := by unfold marchYear; omega
  have hmonth : 0 ≤ d.marchMonth ∧ d.marchMonth ≤ 11 := by unfold marchMonth; omega
  refine ⟨?_, if_neg (by omega)⟩
  unfold Fits largestSum
  rw [Int.tdiv_eq_ediv_of_nonneg (by omega)]
  omega

/-- The years of the dates whose day number is an `int`. -/
theorem Fits.year_bounds {d : InternDate} (h : d.Fits) (hm : 1 ≤ d.mmonth ∧ d.mmonth ≤ 12)
    (hd : 1 ≤ d.mday ∧ d.mday ≤ 31) : -6000000 ≤ d.myear ∧ d.myear ≤ 6000000 := by
  have hmonth : 0 ≤ d.marchMonth ∧ d.marchMonth ≤ 11 := by unfold marchMonth; omega
  have hyear : d.myear - 1 ≤ d.marchYear ∧ d.marchYear ≤ d.myear := by unfold marchYear; omega
  have hquot := tdiv_bounds (d.marchYear + 4800) (by norm_num : (0 : ℤ) < 4)
  unfold Fits largestSum at h
  omega

/-- A day that is not later is not a later day. -/
theorem earlier_ne (d e : InternDate) {n : ℕ} (hn : 0 < n) (hm : e.mmonth ≤ 12)
    (hd : 1 ≤ d.mmonth ∧ d.mmonth ≤ 12) (hday : e.mday = d.mday)
    (hindex : e.monthIndex < d.monthIndex) {v w : ℤ} (he : e.julianDayNumber = some v)
    (hw : d.julianDayNumber = some w) : v - w ≠ d.laterNumber n - d.number := by
  have hv := julianDayNumber_value hm he
  have hw := julianDayNumber_value hd.2 hw
  have hslip : 0 ≤ d.slip ∧ e.slip ≤ 1 := by
    unfold slip
    constructor <;> split_ifs <;> norm_num
  have hbefore := indexStart_le e.monthIndex (d.monthIndex - e.monthIndex).toNat
  have hindex' : e.monthIndex + ((d.monthIndex - e.monthIndex).toNat : ℤ) = d.monthIndex := by
    omega
  have hafter := indexStart_le d.monthIndex n
  rw [hindex'] at hbefore
  rw [number_eq_indexNumber hd, laterNumber, indexNumber]
  omega

/-- The duration of months, after the loop. -/
theorem monthsOf_loop {d : InternDate} (hm : 1 ≤ d.mmonth ∧ d.mmonth ≤ 12)
    (hday : 1 ≤ d.mday ∧ d.mday ≤ 31) (n : ℕ) :
    ((addMonthsLoop (d.mmonth + n).toNat { d with mmonth := d.mmonth + n }).bind fun d2 =>
        (do return (← d2.julianDay) - (← d.julianDay) : Option ℚ)) =
      some ((d.laterNumber n - d.number : ℤ) : ℚ) ↔ d.MonthsRight n := by
  obtain ⟨s, hs⟩ : ∃ s : InternDate, s = { d with mmonth := d.mmonth + n } := ⟨_, rfl⟩
  have hmonth : s.mmonth = d.mmonth + n := by rw [hs]
  have hindex : s.monthIndex = d.monthIndex + n := by
    unfold monthIndex
    rw [hs]
    ring
  have hlater : d.laterNumber n = s.indexNumber := by
    rw [laterNumber, indexNumber, hindex, hs]
  unfold MonthsRight
  rw [number_eq_indexNumber hm, hlater, ← hs]
  rcases addMonthsLoop_iff (d.mmonth + n).toNat (d := s) (by omega) (by omega) (by rw [hs]; exact hday)
    with ⟨e, he, harr, hiff⟩ | ⟨hnone, hwrong⟩
  · rw [he, Option.bind_some, difference_eq d e _ (by rw [hs] at harr; exact harr.time) hm hday harr.month harr.day]
    rcases le_or_gt s.mmonth 12 with hle | hgt
    · -- No end of a year is gone over.
      obtain rfl := harr.near hle
      have hsame : d.later n = e := by
        rw [hs] at hle ⊢
        dsimp only at hle
        unfold later monthIndex
        congr 1 <;> omega
      have hright : e.TurnsRight := hiff.mp rfl
      have hsub : e.indexNumber + e.slip - (d.indexNumber + d.slip) =
          e.indexNumber - d.indexNumber ↔ e.slip = d.slip := by
        omega
      rw [hsame, hsub]
      exact (and_iff_right hright).symm
    · -- The first years, whose day numbers are the calendar's.
      obtain ⟨hearly, hearly'⟩ := harr.far hgt
      have hyear : s.myear = d.myear := by rw [hs]
      obtain ⟨hfits, hslip⟩ := fits_of_early hm hday (by omega)
      obtain ⟨hfits', hslip'⟩ := fits_of_early harr.month harr.day hearly'
      rw [hslip, hslip', add_zero, add_zero, sub_left_inj, hiff]
      refine ⟨fun h => ⟨h.2.2, hfits, ?_⟩, fun h => ⟨hfits, hfits', h.1⟩⟩
      -- The last turn's year is the year of the month arrived at.
      have hlast := h.2.2.1 (s.crossings - 1) (by unfold crossings; omega)
      have hlater : 0 ≤ (d.later n).myear ∧ (d.later n).myear ≤ 12 := by
        unfold later monthIndex
        unfold crossings at hlast
        dsimp only
        omega
      exact fits_of_early (d := d.later n) (by unfold later; dsimp only; omega) hday hlater
  · rw [hnone]
    exact iff_of_false (by simp) fun h => hwrong h.1

/-- The duration of months is that of the calendar exactly when the months are right. -/
theorem monthsOf_iff {d : InternDate} (hd : d.ValidDay) {n : ℕ} (hn : n < 4294967296) :
    d.monthsOf n = some ((d.laterNumber n - d.number : ℤ) : ℚ) ↔ d.MonthsRight n := by
  obtain ⟨hm, hm', hday, hlen⟩ := hd
  have hday' := hlen.trans (monthLength_bounds d.myear d.mmonth).2
  have hwrong (h : 12 * 13 < d.mmonth + n) :
      ¬ ({ d with mmonth := d.mmonth + n } : InternDate).YearsAreMonths := by
    intro hyears
    have hcrossings : 12 < ({ d with mmonth := d.mmonth + n } : InternDate).crossings := by
      unfold crossings
      dsimp only
      omega
    have h₀ := hyears 0 (by omega)
    have h₁₂ := hyears 12 hcrossings
    change 1 ≤ d.myear + _ ∧ d.myear + _ ≤ 12 at h₀
    change 1 ≤ d.myear + _ ∧ d.myear + _ ≤ 12 at h₁₂
    push_cast at h₀ h₁₂
    omega
  unfold monthsOf addMonths DateTime.ofUnsigned
  by_cases hsmall : n < 2147483648
  · rw [if_pos hsmall]
    by_cases hint : d.mmonth + n ≤ 2147483647
    · have hsum : int (d.mmonth + n) = some (d.mmonth + n) := if_pos (by omega)
      simp only [hsum, Option.bind_eq_bind, Option.bind_some]
      exact monthsOf_loop ⟨hm, hm'⟩ ⟨hday, hday'⟩ n
    · have hsum : int (d.mmonth + n) = none := if_neg (by omega)
      simp only [hsum, Option.bind_eq_bind, Option.bind_none]
      exact iff_of_false (by simp) fun h => hwrong (by omega) h.1.1
  · -- The months are negative as an `int`, and the loop has nothing to do.
    have hsum : int (d.mmonth + (n - 4294967296)) = some (d.mmonth + (n - 4294967296)) :=
      if_pos (by omega)
    have hloop (fuel : ℕ) {e : InternDate} (he : e.mmonth ≤ 12) :
        addMonthsLoop fuel e = some e := by
      cases fuel with
      | zero => rfl
      | succ fuel => rw [addMonthsLoop, if_neg (by omega)]
    rw [if_neg hsmall]
    simp only [hsum, Option.bind_eq_bind, Option.bind_some]
    rw [hloop _ (by dsimp only; omega), Option.bind_some]
    refine iff_of_false (fun h => ?_) fun h => hwrong (by omega) h.1.1
    obtain ⟨v, w, hv, hw, hvw⟩ := (difference_iff d
      { d with mmonth := d.mmonth + (n - 4294967296) } _ ⟨rfl, rfl, rfl⟩).mp h
    refine earlier_ne d { d with mmonth := d.mmonth + (n - 4294967296) } (by omega)
      (by dsimp only; omega) ⟨hm, hm'⟩ rfl ?_ hv hw hvw
    unfold monthIndex
    dsimp only
    omega

/-- The duration of years is that of the calendar exactly when the years are right. -/
theorem yearsOf_iff {d : InternDate} (hd : d.ValidDay) {n : ℕ} (hn : n < 4294967296) :
    d.yearsOf n = some ((d.laterNumber (12 * n) - d.number : ℤ) : ℚ) ↔ d.YearsRight n := by
  obtain ⟨hm, hm', hday, hlen⟩ := hd
  have hday' := hlen.trans (monthLength_bounds d.myear d.mmonth).2
  have hlater : d.later (12 * n) = { d with myear := d.myear + n } := by
    unfold later monthIndex
    push_cast
    congr 1 <;> omega
  have hindex : (d.later (12 * n)).indexNumber = d.laterNumber (12 * n) := by
    rw [hlater, indexNumber, laterNumber]
    unfold monthIndex
    push_cast
    congr 2
    ring
  unfold yearsOf YearsRight
  by_cases hfits : d.Fits
  · have hyear := hfits.year_bounds ⟨hm, hm'⟩ ⟨hday, hday'⟩
    by_cases hsmall : d.myear + n < 2147483648
    · have hsum : DateTime.ofUnsigned ((d.myear + n) % 4294967296).toNat = d.myear + n := by
        unfold DateTime.ofUnsigned
        split_ifs <;> omega
      simp only [hsum]
      rw [← hlater, difference_eq d (d.later (12 * n)) _ ⟨rfl, rfl, rfl⟩ ⟨hm, hm'⟩ ⟨hday, hday'⟩
        (by rw [hlater]; exact ⟨hm, hm'⟩) (by rw [hlater]; exact ⟨hday, hday'⟩),
        number_eq_indexNumber ⟨hm, hm'⟩, hindex]
      exact and_congr_right fun _ => and_congr_right fun _ => by omega
    · -- The year is past the `int`s, and comes out before the date's.
      have hsum : DateTime.ofUnsigned ((d.myear + n) % 4294967296).toNat =
          d.myear + n - 4294967296 := by
        unfold DateTime.ofUnsigned
        split_ifs <;> omega
      simp only [hsum]
      refine iff_of_false (fun h => ?_) fun h => ?_
      · obtain ⟨v, w, hv, hw, hvw⟩ := (difference_iff d
          { d with myear := d.myear + n - 4294967296 } _ ⟨rfl, rfl, rfl⟩).mp h
        refine earlier_ne d { d with myear := d.myear + n - 4294967296 } (by omega) hm' ⟨hm, hm'⟩
          rfl ?_ hv hw hvw
        unfold monthIndex
        dsimp only
        omega
      · have hlarge := h.2.1.year_bounds (d := d.later (12 * n)) (by rw [hlater]; exact ⟨hm, hm'⟩)
          (by rw [hlater]; exact ⟨hday, hday'⟩)
        rw [hlater] at hlarge
        dsimp only at hlarge
        omega
  · refine iff_of_false (fun h => ?_) fun h => hfits h.1
    obtain ⟨v, w, hv, hw, hvw⟩ := (difference_iff d
      { d with myear := DateTime.ofUnsigned ((d.myear + n) % 4294967296).toNat } _
      ⟨rfl, rfl, rfl⟩).mp h
    exact hfits ((julianDayNumber_eq_some d hm hm' hday hday').mp hw).1

/-- **Durations of months and years.** For a valid date and a number that an `unsigned int` holds,
the durations of that many months and years, of each time that stands for the date, are the days to
the same day of the month that many months or years later exactly when the months or the years are
right: the months go over no end of a year, but for ends in years whose next ones can take the places
of months, with the length the day is first past the right one. -/
theorem durations (d : InternDate) (hd : d.isValid = true) (n : ℕ) (hn : n < 4294967296) :
    (d.monthsOf n = some ((d.laterNumber n - d.number : ℤ) : ℚ) ↔ d.MonthsRight n) ∧
      (d.yearsOf n = some ((d.laterNumber (12 * n) - d.number : ℤ) : ℚ) ↔ d.YearsRight n) ∧
      ∀ t : ℚ, fromJulianDay t = some d →
        DateTime.months t n = d.monthsOf n ∧ DateTime.years t n = d.yearsOf n := by
  obtain ⟨hday, -⟩ := (isValid_iff d).mp hd
  refine ⟨monthsOf_iff hday hn, yearsOf_iff hday hn, fun t ht => ⟨?_, ?_⟩⟩
  · rw [DateTime.months, ht]
    rfl
  · rw [DateTime.years, ht]
    rfl

/-- Two months from 1 January 2000 are 60 days, and a year 366. -/
theorem durations_2000 :
    (⟨2000, 1, 1, 0, 0, 0⟩ : InternDate).monthsOf 2 = some ((60 : ℤ) : ℚ) ∧
      (⟨2000, 1, 1, 0, 0, 0⟩ : InternDate).yearsOf 1 = some ((366 : ℤ) : ℚ) :=
  ⟨(durations ⟨2000, 1, 1, 0, 0, 0⟩ (by decide) 2 (by decide)).1.mpr (by decide),
    (durations ⟨2000, 1, 1, 0, 0, 0⟩ (by decide) 1 (by decide)).2.1.mpr (by decide)⟩

/-- A year's months from 1 January 2000 have no duration: the length asked for is the one of month
2001. -/
theorem monthsOf_2000 :
    (⟨2000, 1, 1, 0, 0, 0⟩ : InternDate).isValid = true ∧
      (⟨2000, 1, 1, 0, 0, 0⟩ : InternDate).laterNumber 12 -
        (⟨2000, 1, 1, 0, 0, 0⟩ : InternDate).number = 366 ∧
      (⟨2000, 1, 1, 0, 0, 0⟩ : InternDate).monthsOf 12 = none :=
  ⟨by decide, by decide, rfl⟩

end InternDate

end Vle.Utils
