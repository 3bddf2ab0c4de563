import Vle.Lib.EState
import Vle.Lib.Statistics
import Vle.Manager.Accu

/-!
# The accumulator of numbers, whole

`details/accu_mono.hpp` with all its statistics and members, of which `Manager.AccuMono` has what the
plans use (`getStat_eq` says that they agree on it). The arithmetic is exact: a double is a rational
number, and a square root is a parameter. A division by zero, which happens only to an empty
accumulator, gives zero here. Counts are `unsigned int`.

An accumulator of type `STANDARD` starts its maximum from the least positive double, and its minimum
from the greatest double: `exact_iff` says when its statistics are those of the values.
-/

namespace Vle.Manager.Details

open Lib Lib.EState

/-- The values of `unsigned int` are below this. -/
def unsignedInt : ℕ := 2 ^ 32

/-- `AccuStat`. -/
inductive AccuStat where
  | S_mean
  | S_moment2
  | S_deviationSquareSum
  | S_stdDeviation
  | S_variance
  | S_squareSum
  | S_count
  | S_sum
  | S_min
  | S_max
  | S_at
  | S_quantile
  deriving DecidableEq, Repr

/-- The members of `AccuMono`. -/
structure AccuMono where
  accu : AccuType
  msum : ℚ
  mcount : ℕ
  msquareSum : ℚ
  mmin : ℚ
  mmax : ℚ
  msorted : Bool
  mvalues : Option (List ℚ)
  mquantile : ℚ
  mat : ℕ
  deriving DecidableEq, Repr

/-- What the accumulators throw. -/
def notAvailable : Fault := .thrown " [accu_mono] not available"
def notYetImplemented (n : ℕ) : Fault := .thrown s!" [accu_mono] not yet implemented ({n})"

namespace AccuMono

def storageTypeForStat : AccuStat → AccuType
  | .S_mean => .mean
  | .S_moment2 | .S_deviationSquareSum | .S_stdDeviation | .S_variance | .S_squareSum => .standard
  | .S_count | .S_sum => .mean
  | .S_min | .S_max => .standard
  | .S_at => .ordered
  | .S_quantile => .quantile

/-- The constructor from a type. -/
def ofType (type : AccuType) : AccuMono where
  accu := type
  msum := 0
  mcount := 0
  msquareSum := 0
  mmin := doubleMax
  mmax := doubleMin
  msorted := type = .quantile
  mvalues := if type = .ordered ∨ type = .quantile then some [] else none
  mquantile := 1 / 2
  mat := 0

/-- The constructor from a statistic. -/
def ofStat (s : AccuStat) : AccuMono := ofType (storageTypeForStat s)

/-- The copy constructor, which leaves the defaults behind. -/
def copy (acc : AccuMono) : AccuMono := { acc with mquantile := 1 / 2, mat := 0 }

def setDefaultQuantile (a : AccuMono) (quantile : ℚ) : AccuMono := { a with mquantile := quantile }

def setDefaultAtIndex (a : AccuMono) (at_index : ℕ) : AccuMono := { a with mat := at_index }

/-- The vector that `mvalues` points to. -/
def values (a : AccuMono) : Except Fault (List ℚ) :=
  match a.mvalues with
  | some x => .ok x
  | none => .error .null

def insert (a : AccuMono) (v : ℚ) : Except Fault AccuMono :=
  match a.accu with
  | .standard =>
    .ok { a with
      msum := a.msum + v, mcount := (a.mcount + 1) % unsignedInt,
      msquareSum := a.msquareSum + v ^ 2, mmin := min v a.mmin, mmax := max v a.mmax }
  | .mean => .ok { a with msum := a.msum + v, mcount := (a.mcount + 1) % unsignedInt }
  | .quantile => do
    let x ← a.values
    return { a with mvalues := some (x ++ [v]), msorted := false }
  | .ordered => do
    let x ← a.values
    return { a with mvalues := some (x ++ [v]) }

def mean (a : AccuMono) : Except Fault ℚ :=
  match a.accu with
  | .standard | .mean => .ok (a.msum / a.mcount)
  | .quantile | .ordered => do
    let x ← a.values
    return x.sum / x.length

def moment2 (a : AccuMono) : Except Fault ℚ :=
  match a.accu with
  | .standard => .ok (a.msquareSum / a.mcount)
  | .mean => .error notAvailable
  | .quantile | .ordered => .error (notYetImplemented 2)

def deviationSquareSum (a : AccuMono) : Except Fault ℚ :=
  match a.accu with
  | .standard =>
    let mean := a.msum / a.mcount
    .ok (a.mcount * mean ^ 2 + a.msquareSum - 2 * mean * a.msum)
  | .mean => .error notAvailable
  | .quantile | .ordered => .error (notYetImplemented 2)

def stdDeviation (sqrt : ℚ → ℚ) (a : AccuMono) : Except Fault ℚ :=
  match a.accu with
  | .standard =>
    if a.mcount < 2 then .ok 0
    else do
      let d ← a.deviationSquareSum
      return sqrt (d / (a.mcount - 1))
  | .mean => .error notAvailable
  | .quantile | .ordered => .error (notYetImplemented 2)

def variance (a : AccuMono) : Except Fault ℚ :=
  match a.accu with
  | .standard =>
    if a.mcount < 2 then .ok 0
    else do
      let d ← a.deviationSquareSum
      return d / (a.mcount - 1)
  | .mean => .error notAvailable
  | .quantile | .ordered => .error (notYetImplemented 2)

def squareSum (a : AccuMono) : Except Fault ℚ :=
  match a.accu with
  | .standard => .ok a.msquareSum
  | .mean => .error notAvailable
  | .quantile | .ordered => do
    let x ← a.values
    return (x.map (· ^ 2)).sum

def count (a : AccuMono) : Except Fault ℕ :=
  match a.accu with
  | .standard | .mean => .ok a.mcount
  | .quantile | .ordered => do
    let x ← a.values
    return x.length % unsignedInt

def sum (a : AccuMono) : Except Fault ℚ :=
  match a.accu with
  | .standard | .mean => .ok a.msum
  | .quantile | .ordered => do
    let x ← a.values
    return x.sum

def getMin (a : AccuMono) : Except Fault ℚ :=
  match a.accu with
  | .standard => .ok a.mmin
  | .mean | .quantile => .error notAvailable
  | .ordered => .error (notYetImplemented 5)

def getMax (a : AccuMono) : Except Fault ℚ :=
  match a.accu with
  | .standard => .ok a.mmax
  | .mean | .quantile | .ordered => .error notAvailable

/-- `at`, whose index is checked by the vector. -/
def getAt (a : AccuMono) (i : ℕ) : Except Fault ℚ :=
  match a.accu with
  | .standard | .mean | .quantile => .error notAvailable
  | .ordered => do
    let x ← a.values
    match x[i]? with
    | some v => return v
    | none => .error (.thrown "vector::_M_range_check")

/-- `operator[]` of a vector, which checks nothing. -/
def element (x : List ℚ) (i : ℕ) : Except Fault ℚ :=
  match x[i]? with
  | some v => .ok v
  | none => .error .outOfRange

/-- A double made an `unsigned int`, which the language leaves undefined for other numbers. -/
def toUnsigned (d : ℚ) : Except Fault ℕ :=
  if 0 ≤ ⌊d⌋ ∧ ⌊d⌋ < unsignedInt then .ok ⌊d⌋.toNat else .error .outOfRange

/-- `quantileOnSortedVect`. The test for the order one is on the variable of the result, which is still
zero. -/
def quantileOnSortedVect (x : List ℚ) (p : ℚ) : Except Fault ℚ :=
  let quantile : ℚ := 0
  let n := x.length % unsignedInt
  if n = 1 then element x 0
  else if quantile = 1 then element x ((n + unsignedInt - 1) % unsignedInt)
  else do
    let m := 1 - p
    let j ← toUnsigned ⌊n * p + m⌋
    let g := n * p + 1 - p - j
    let before ← element x ((j + unsignedInt - 1) % unsignedInt)
    let after ← element x j
    return (1 - g) * before + g * after

/-- `quantile`, which sorts the values of an accumulator of type `QUANTILE` where they are. -/
def quantile (quantileOrder : ℚ) : EStateM Fault AccuMono ℚ := fun a =>
  match a.accu with
  | .standard | .mean => .error notAvailable a
  | .quantile =>
    match a.values with
    | .error e => .error e a
    | .ok x =>
      let a :=
        if a.msorted then a
        else { a with mvalues := some (x.insertionSort (· ≤ ·)), msorted := true }
      inspect (fun a => a.values >>= fun x => quantileOnSortedVect x quantileOrder) a
  | .ordered => inspect (fun a => a.values >>= fun x => quantileOnSortedVect x quantileOrder) a

/-- `getStat`. -/
def getStat (sqrt : ℚ → ℚ) : AccuStat → EStateM Fault AccuMono ℚ
  | .S_mean => inspect mean
  | .S_moment2 => inspect moment2
  | .S_deviationSquareSum => inspect deviationSquareSum
  | .S_stdDeviation => inspect (stdDeviation sqrt)
  | .S_variance => inspect variance
  | .S_squareSum => inspect squareSum
  | .S_count => inspect fun a => (fun n : ℕ => (n : ℚ)) <$> a.count
  | .S_sum => inspect sum
  | .S_min => inspect getMin
  | .S_max => inspect getMax
  | .S_at => inspect fun a => a.getAt a.mat
  | .S_quantile => fun a => quantile a.mquantile a

/-- Insert some values, one after the other. -/
def accumulate (a : AccuMono) (l : List ℚ) : Except Fault AccuMono := l.foldlM insert a

theorem accumulate_append {a b : AccuMono} {l : List ℚ} (h : a.accumulate l = .ok b) (v : ℚ) :
    a.accumulate (l ++ [v]) = b.insert v := by
  rw [accumulate, Except.foldlM_concat, show l.foldlM insert a = .ok b from h, Except.ok_bind]

/-! ## What the insertions add up to -/

/-- An accumulator of a type after some insertions. The values of one that is `sorted` have been sorted
since the last of them. -/
def holding (type : AccuType) (l : List ℚ) : AccuMono :=
  match type with
  | .standard =>
    { ofType .standard with
      msum := l.sum, mcount := l.length % unsignedInt, msquareSum := (l.map (· ^ 2)).sum,
      mmin := l.foldl (fun m v => min v m) doubleMax, mmax := l.foldl (fun m v => max v m) doubleMin }
  | .mean => { ofType .mean with msum := l.sum, mcount := l.length % unsignedInt }
  | .quantile => { ofType .quantile with mvalues := some l, msorted := l.isEmpty }
  | .ordered => { ofType .ordered with mvalues := some l }

theorem holding_accu (type : AccuType) (l : List ℚ) : (holding type l).accu = type := by
  cases type <;> rfl

theorem holding_nil (type : AccuType) : holding type [] = ofType type := by
  cases type <;> rfl

/-- One more insertion. -/
theorem insert_holding (type : AccuType) (l : List ℚ) (v : ℚ) :
    (holding type l).insert v = .ok (holding type (l ++ [v])) := by
  have hcount : (l.length % unsignedInt + 1) % unsignedInt = (l ++ [v]).length % unsignedInt := by
    rw [List.length_append, List.length_singleton, Nat.mod_add_mod]
  cases type with
  | standard =>
    simp only [insert, holding, ofType, hcount, List.sum_append, List.sum_singleton, List.map_append,
      List.map_singleton, List.foldl_append, List.foldl_cons, List.foldl_nil]
  | mean =>
    simp only [insert, holding, ofType, hcount, List.sum_append, List.sum_singleton]
  | quantile =>
    have : (l ++ [v]).isEmpty = false := by simp
    simp only [insert, holding, ofType, values, Except.ok_bind, Except.pure_eq, this]
  | ordered => rfl

/-- All the insertions. -/
theorem accumulate_ofType (type : AccuType) (l : List ℚ) :
    (ofType type).accumulate l = .ok (holding type l) := by
  induction l using List.reverseRecOn with
  | nil => rw [holding_nil]; rfl
  | append_singleton l v ih => rw [accumulate_append ih, insert_holding]

/-! ## The statistics -/

/-- The statistics that are summed up: all but the standard deviation, the value at an index and the
quantile. -/
def AccuStat.Summed (s : AccuStat) : Prop := s ≠ .S_stdDeviation ∧ s ≠ .S_at ∧ s ≠ .S_quantile

/-- A number is a statistic of a list; a list of one value may have any variance. -/
def AccuStat.OfList (l : List ℚ) (r : ℚ) : AccuStat → Prop
  | .S_mean => r = Statistics.mean l
  | .S_moment2 => r = Statistics.moment2 l
  | .S_deviationSquareSum => r = Statistics.deviationSquareSum l
  | .S_variance => 2 ≤ l.length → r = Statistics.variance l
  | .S_squareSum => r = Statistics.squareSum l
  | .S_count => r = l.length
  | .S_sum => r = l.sum
  | .S_min => r ∈ l ∧ ∀ v ∈ l, r ≤ v
  | .S_max => r ∈ l ∧ ∀ v ∈ l, v ≤ r
  | .S_stdDeviation | .S_at | .S_quantile => True

/-- The statistics that an accumulator does not refuse are those of the values, and so are the values
at an index. -/
def Exact (type : AccuType) (l : List ℚ) : Prop :=
  ∀ a, (ofType type).accumulate l = .ok a →
    (∀ sqrt s, AccuStat.Summed s → match getStat sqrt s a with
      | .ok r _ => AccuStat.OfList l r s
      | .error e _ => e = notAvailable ∨ ∃ n, e = notYetImplemented n) ∧
    ∀ k v, l[k]? = some v → a.getAt k = .ok v ∨ a.getAt k = .error notAvailable

/-- The statistics that are read from a member or a vector. -/
theorem getStat_of_ok {sqrt : ℚ → ℚ} {s : AccuStat} {f : AccuMono → Except Fault ℚ} {a : AccuMono}
    {r : ℚ} (hs : getStat sqrt s = inspect f) (h : f a = .ok r) : getStat sqrt s a = .ok r a := by
  rw [hs, inspect, h]

/-- The sums of an accumulator of type `STANDARD` give its statistics. -/
theorem exact_standard {l : List ℚ} (hcount : l.length < unsignedInt) (sqrt : ℚ → ℚ) {s : AccuStat}
    (hs : AccuStat.Summed s) (hmin : s ≠ .S_min) (hmax : s ≠ .S_max) :
    ∃ r, getStat sqrt s (holding .standard l) = .ok r (holding .standard l) ∧
      AccuStat.OfList l r s := by
  have hmod : l.length % unsignedInt = l.length := Nat.mod_eq_of_lt hcount
  have hdeviation : (holding .standard l).deviationSquareSum =
      .ok (Statistics.deviationSquareSum l) := by
    rw [Statistics.deviationSquareSum_eq]
    simp only [deviationSquareSum, holding, ofType, hmod]
    rfl
  cases s with
  | S_mean => exact ⟨_, getStat_of_ok rfl rfl, by simp only [holding, hmod]; rfl⟩
  | S_moment2 => exact ⟨_, getStat_of_ok rfl rfl, by simp only [holding, hmod]; rfl⟩
  | S_deviationSquareSum => exact ⟨_, getStat_of_ok rfl hdeviation, rfl⟩
  | S_variance =>
    by_cases htwo : l.length < 2
    · have hvariance : (holding .standard l).variance = .ok 0 := by
        rw [variance]
        exact if_pos (by rw [show (holding .standard l).mcount = _ from hmod]; exact htwo)
      exact ⟨_, getStat_of_ok rfl hvariance, fun h => absurd htwo (by omega)⟩
    · have hvariance : (holding .standard l).variance = .ok (Statistics.variance l) := by
        rw [variance, hdeviation]
        simp only [holding, ofType, hmod, htwo, if_false, Except.ok_bind]
        rfl
      exact ⟨_, getStat_of_ok rfl hvariance, fun _ => rfl⟩
  | S_squareSum => exact ⟨_, getStat_of_ok rfl rfl, rfl⟩
  | S_count => exact ⟨_, getStat_of_ok rfl rfl, by simp only [holding, hmod]; rfl⟩
  | S_sum => exact ⟨_, getStat_of_ok rfl rfl, rfl⟩
  | S_min => exact absurd rfl hmin
  | S_max => exact absurd rfl hmax
  | S_stdDeviation => exact absurd rfl hs.1
  | S_at => exact absurd rfl hs.2.1
  | S_quantile => exact absurd rfl hs.2.2

/-- An accumulator of another type gives statistics of the values, or refuses to. -/
theorem exact_other {type : AccuType} (htype : type ≠ .standard) {l : List ℚ}
    (hcount : l.length < unsignedInt) (sqrt : ℚ → ℚ) {s : AccuStat} (hs : AccuStat.Summed s) :
    (∃ r, getStat sqrt s (holding type l) = .ok r (holding type l) ∧ AccuStat.OfList l r s) ∨
      ∃ e, getStat sqrt s (holding type l) = .error e (holding type l) ∧
        (e = notAvailable ∨ ∃ n, e = notYetImplemented n) := by
  have hmod : l.length % unsignedInt = l.length := Nat.mod_eq_of_lt hcount
  cases s with
  | S_mean =>
    refine .inl ⟨Statistics.mean l, getStat_of_ok rfl ?_, rfl⟩
    cases type with
    | standard => exact absurd rfl htype
    | mean => simp only [mean, holding, ofType, hmod]; rfl
    | quantile | ordered => rfl
  | S_count =>
    refine .inl ⟨(l.length : ℚ), getStat_of_ok rfl ?_, rfl⟩
    cases type with
    | standard => exact absurd rfl htype
    | mean => simp only [count, holding, ofType, hmod]; rfl
    | quantile | ordered => simp only [count, holding, ofType, values, Except.ok_bind, hmod]; rfl
  | S_sum =>
    refine .inl ⟨l.sum, getStat_of_ok rfl ?_, rfl⟩
    cases type with
    | standard => exact absurd rfl htype
    | mean | quantile | ordered => rfl
  | S_squareSum =>
    cases type with
    | standard => exact absurd rfl htype
    | mean => exact .inr ⟨_, rfl, .inl rfl⟩
    | quantile | ordered => exact .inl ⟨_, rfl, rfl⟩
  | S_moment2 | S_deviationSquareSum | S_variance =>
    cases type with
    | standard => exact absurd rfl htype
    | mean => exact .inr ⟨_, rfl, .inl rfl⟩
    | quantile | ordered => exact .inr ⟨_, rfl, .inr ⟨2, rfl⟩⟩
  | S_min =>
    cases type with
    | standard => exact absurd rfl htype
    | mean | quantile => exact .inr ⟨_, rfl, .inl rfl⟩
    | ordered => exact .inr ⟨_, rfl, .inr ⟨5, rfl⟩⟩
  | S_max =>
    cases type with
    | standard => exact absurd rfl htype
    | mean | quantile | ordered => exact .inr ⟨_, rfl, .inl rfl⟩
  | S_stdDeviation => exact absurd rfl hs.1
  | S_at => exact absurd rfl hs.2.1
  | S_quantile => exact absurd rfl hs.2.2

/-- The value at an index. -/
theorem getAt_holding (type : AccuType) {l : List ℚ} {k : ℕ} {v : ℚ} (h : l[k]? = some v) :
    (holding type l).getAt k = .ok v ∨ (holding type l).getAt k = .error notAvailable := by
  cases type with
  | ordered =>
    refine .inl ?_
    simp only [getAt, holding, ofType, values, Except.ok_bind, h]
    rfl
  | standard | mean | quantile => exact .inr rfl

/-- The number of values that an accumulator says it has. -/
theorem count_holding (type : AccuType) (l : List ℚ) (sqrt : ℚ → ℚ) :
    getStat sqrt .S_count (holding type l) =
      .ok ((l.length % unsignedInt : ℕ) : ℚ) (holding type l) := by
  cases type <;> rfl

/-- The statistics of a list are exact exactly when the values can be counted, and, of an accumulator of
type `STANDARD`, when some value is not above the greatest double and some not below the least positive
one. -/
theorem exact_iff (type : AccuType) (l : List ℚ) : Exact type l ↔
    l.length < 2 ^ 32 ∧
      (type = .standard → (∃ v ∈ l, v ≤ doubleMax) ∧ ∃ v ∈ l, doubleMin ≤ v) := by
  constructor
  · intro h
    obtain ⟨hstat, -⟩ := h _ (accumulate_ofType type l)
    constructor
    · have hcount := hstat id .S_count ⟨by decide, by decide, by decide⟩
      rw [count_holding] at hcount
      have hmod : l.length % unsignedInt = l.length := Nat.cast_injective hcount
      exact hmod ▸ Nat.mod_lt _ (Nat.two_pow_pos 32)
    · rintro rfl
      have hmin := hstat id .S_min ⟨by decide, by decide, by decide⟩
      have hmax := hstat id .S_max ⟨by decide, by decide, by decide⟩
      exact ⟨(Statistics.foldl_min_least_iff l doubleMax).mp hmin,
        (Statistics.foldl_max_greatest_iff l doubleMin).mp hmax⟩
  · rintro ⟨hcount, hextreme⟩ a ha
    rw [accumulate_ofType] at ha
    cases ha
    refine ⟨fun sqrt s hs => ?_, fun k v hv => getAt_holding type hv⟩
    by_cases htype : type = .standard
    · subst htype
      obtain ⟨hmin, hmax⟩ := hextreme rfl
      by_cases hsmin : s = .S_min
      · subst hsmin
        exact (Statistics.foldl_min_least_iff l doubleMax).mpr hmin
      by_cases hsmax : s = .S_max
      · subst hsmax
        exact (Statistics.foldl_max_greatest_iff l doubleMin).mpr hmax
      obtain ⟨r, hr, hof⟩ := exact_standard hcount sqrt hs hsmin hsmax
      rw [hr]
      exact hof
    · rcases exact_other htype hcount sqrt hs with ⟨r, hr, hof⟩ | ⟨e, he, hrefused⟩
      · rw [hr]
        exact hof
      · rw [he]
        exact hrefused

/-- The maximum of a negative value is not the value. -/
theorem not_exact_negative : ¬ Exact .standard [-1] := by
  intro h
  have hmax := (h _ (accumulate_ofType .standard [-1])).1 id .S_max ⟨by decide, by decide, by decide⟩
  obtain ⟨v, hv, hle⟩ := (Statistics.foldl_max_greatest_iff [-1] doubleMin).mp hmax
  rw [List.mem_singleton.mp hv] at hle
  have : (0 : ℚ) < doubleMin := by unfold doubleMin; positivity
  linarith

/-! ## The statistics of the plans -/

/-- What `getStat` returns or throws. -/
def answer (sqrt : ℚ → ℚ) (s : AccuStat) (a : AccuMono) : Except Fault ℚ :=
  match getStat sqrt s a with
  | .ok r _ => .ok r
  | .error e _ => .error e

theorem answer_inspect {sqrt : ℚ → ℚ} {s : AccuStat} {f : AccuMono → Except Fault ℚ}
    (hs : getStat sqrt s = inspect f) (a : AccuMono) : answer sqrt s a = f a := by
  rw [answer, hs, inspect]
  cases f a <;> rfl

/-- The statistics of the sums do not depend on the default quantile. -/
theorem variance_setDefaultQuantile (a : AccuMono) (q : ℚ) :
    (a.setDefaultQuantile q).variance = a.variance := by
  unfold variance deviationSquareSum setDefaultQuantile
  cases a.accu <;> rfl

theorem stdDeviation_setDefaultQuantile (sqrt : ℚ → ℚ) (a : AccuMono) (q : ℚ) :
    (a.setDefaultQuantile q).stdDeviation sqrt = a.stdDeviation sqrt := by
  unfold stdDeviation deviationSquareSum setDefaultQuantile
  cases a.accu <;> rfl

/-- The insertions do not touch the default quantile. -/
theorem accumulate_setDefaultQuantile (type : AccuType) (q : ℚ) (l : List ℚ) :
    ((ofType type).setDefaultQuantile q).accumulate l =
      .ok ((holding type l).setDefaultQuantile q) := by
  have hstep : ∀ a : AccuMono, ∀ v, (a.setDefaultQuantile q).insert v =
      (fun b => b.setDefaultQuantile q) <$> a.insert v := fun a v => by
    unfold insert setDefaultQuantile values
    cases a.accu with
    | standard | mean => rfl
    | quantile | ordered => cases a.mvalues <;> rfl
  induction l using List.reverseRecOn with
  | nil => rw [holding_nil]; rfl
  | append_singleton l v ih => rw [accumulate_append ih, hstep, insert_holding, Except.map_ok]

/-- What an accumulator returns for a quantile. -/
theorem answer_quantile (sqrt : ℚ → ℚ) (l : List ℚ) (q : ℚ) :
    answer sqrt .S_quantile ((holding .quantile l).setDefaultQuantile q) =
      quantileOnSortedVect (l.insertionSort (· ≤ ·)) q := by
  have hrun : getStat sqrt .S_quantile ((holding .quantile l).setDefaultQuantile q) =
      inspect (fun a => a.values >>= fun x => quantileOnSortedVect x q)
        { (holding .quantile l).setDefaultQuantile q with
          mvalues := some (l.insertionSort (· ≤ ·)), msorted := true } := by
    cases l <;> rfl
  cases h : quantileOnSortedVect (l.insertionSort (· ≤ ·)) q with
  | ok r => simp only [answer, hrun, inspect, values, Except.ok_bind, h]
  | error e => simp only [answer, hrun, inspect, values, Except.ok_bind, h]

/-- An element of a vector is what the model of the plans reads. -/
theorem element_eq (x : List ℚ) (i : ℕ) : element x i = Manager.AccuMono.read x i := by
  cases h : x[i]? with
  | some v => simp [element, Manager.AccuMono.read, h]
  | none => simp [element, Manager.AccuMono.read, h]

theorem element_out {x : List ℚ} {i : ℕ} (h : x.length ≤ i) : element x i = .error .outOfRange := by
  rw [element, List.getElem?_eq_none h]

/-- The vector of fewer values than an `unsigned int` counts is read as the model of the plans reads
it. -/
theorem quantileOnSortedVect_eq {x : List ℚ} (h : x.length < unsignedInt) (p : ℚ) :
    quantileOnSortedVect x p = Manager.AccuMono.quantileOnSortedVect x p := by
  have hmod : x.length % unsignedInt = x.length := Nat.mod_eq_of_lt h
  have hzero : ¬ (0 : ℚ) = 1 := by norm_num
  unfold quantileOnSortedVect Manager.AccuMono.quantileOnSortedVect
  simp only [hmod, hzero, if_false]
  by_cases hone : x.length = 1
  · rw [if_pos hone, if_pos hone]
    exact element_eq x 0
  rw [if_neg hone, if_neg hone]
  set j := ⌊(x.length : ℚ) * p + (1 - p)⌋ with hj
  unfold toUnsigned
  rw [Int.floor_intCast]
  by_cases hrange : 0 ≤ j ∧ j < unsignedInt
  · rw [if_pos hrange, Except.ok_bind]
    by_cases hzero : j = 0
    · -- the place before the first one wraps around
      have hread : Manager.AccuMono.read x (j - 1) = .error .outOfRange :=
        Manager.AccuMono.read_out (.inl (by omega))
      have helement : element x ((j.toNat + unsignedInt - 1) % unsignedInt) = .error .outOfRange := by
        have : (j.toNat + unsignedInt - 1) % unsignedInt = unsignedInt - 1 := by
          rw [hzero, Int.toNat_zero, Nat.zero_add]
          exact Nat.mod_eq_of_lt (Nat.sub_lt (Nat.two_pow_pos 32) Nat.one_pos)
        exact element_out (by omega)
      rw [hread, helement]
      rfl
    · have hbefore : (j.toNat + unsignedInt - 1) % unsignedInt = (j - 1).toNat := by
        unfold unsignedInt at hrange ⊢
        omega
      have hcast : ((j.toNat : ℕ) : ℤ) = j := Int.toNat_of_nonneg hrange.1
      have hcast' : (((j - 1).toNat : ℕ) : ℤ) = j - 1 := Int.toNat_of_nonneg (by omega)
      have hrat : ((j.toNat : ℕ) : ℚ) = (j : ℚ) := by rw [← Int.cast_natCast, hcast]
      rw [hbefore, element_eq, element_eq, hcast, hcast', hrat]
  · have hread : Manager.AccuMono.read x (j - 1) = .error .outOfRange :=
      Manager.AccuMono.read_out (by omega)
    rw [if_neg hrange, hread]
    rfl

/-- The statistic of a plan. -/
def AccuStat.ofPlan : Manager.AccuStat → AccuStat
  | .S_mean => .S_mean
  | .S_variance => .S_variance
  | .S_max => .S_max
  | .S_at => .S_at
  | .S_quantile => .S_quantile

/-- The accumulator of a plan. -/
def toPlan (a : AccuMono) : Manager.AccuMono where
  accu := a.accu
  msum := a.msum
  mcount := a.mcount
  msquareSum := a.msquareSum
  mmin := a.mmin
  mmax := a.mmax
  mvalues := a.mvalues.getD []
  mquantile := a.mquantile

theorem toPlan_holding (type : AccuType) (q : ℚ) {l : List ℚ} (h : l.length < unsignedInt) :
    ({ accu := type, mquantile := q } : Manager.AccuMono).accumulate l =
      toPlan ((holding type l).setDefaultQuantile q) := by
  induction l using List.reverseRecOn with
  | nil =>
    rw [holding_nil]
    cases type <;> rfl
  | append_singleton l v ih =>
    rw [List.length_append, List.length_singleton] at h
    have hmod : l.length % unsignedInt = l.length := Nat.mod_eq_of_lt (by omega)
    have hmod' : (l ++ [v]).length % unsignedInt = l.length + 1 := by
      rw [List.length_append, List.length_singleton, Nat.mod_eq_of_lt h]
    rw [Manager.AccuMono.accumulate_append, ih (by omega)]
    cases type with
    | standard =>
      simp only [Manager.AccuMono.insert, toPlan, setDefaultQuantile, holding, ofType, hmod, hmod',
        List.sum_append, List.sum_singleton, List.map_append, List.map_singleton, List.foldl_append,
        List.foldl_cons, List.foldl_nil]
    | mean =>
      simp only [Manager.AccuMono.insert, toPlan, setDefaultQuantile, holding, ofType, hmod, hmod',
        List.sum_append, List.sum_singleton]
    | quantile | ordered => rfl

/-- The accumulator of a plan answers what the model of the plans says. -/
theorem getStat_eq (sqrt : ℚ → ℚ) (s : Manager.AccuStat) {l : List ℚ} (h : l.length < unsignedInt)
    (q : ℚ) :
    answer sqrt (AccuStat.ofPlan s)
        ((holding (storageTypeForStat (AccuStat.ofPlan s)) l).setDefaultQuantile q) =
      (((Manager.AccuMono.ofStat s).setDefaultQuantile q).accumulate l).getStat s := by
  have htype : (Manager.AccuMono.ofStat s).setDefaultQuantile q =
      { accu := storageTypeForStat (AccuStat.ofPlan s), mquantile := q } := by
    cases s <;> rfl
  rw [htype, toPlan_holding _ _ h]
  cases s with
  | S_quantile =>
    have hsort : (l.insertionSort (· ≤ ·)).length < unsignedInt := by
      rwa [List.length_insertionSort]
    exact (answer_quantile sqrt l q).trans (quantileOnSortedVect_eq hsort q)
  | S_mean => rfl
  | S_variance =>
    rw [AccuStat.ofPlan, answer_inspect rfl]
    by_cases htwo : l.length % unsignedInt < 2
    · have hdetails : variance ((holding .standard l).setDefaultQuantile q) = .ok 0 := by
        rw [variance]
        exact if_pos htwo
      have hplan : (toPlan ((holding .standard l).setDefaultQuantile q)).variance = .ok 0 := by
        rw [Manager.AccuMono.variance]
        exact congrArg Except.ok (if_pos htwo)
      exact hdetails.trans hplan.symm
    · have hdetails : variance ((holding .standard l).setDefaultQuantile q) =
          .ok ((toPlan ((holding .standard l).setDefaultQuantile q)).deviationSquareSum /
            ((l.length % unsignedInt : ℕ) - 1)) := by
        rw [variance]
        exact if_neg htwo
      have hplan : (toPlan ((holding .standard l).setDefaultQuantile q)).variance =
          .ok ((toPlan ((holding .standard l).setDefaultQuantile q)).deviationSquareSum /
            ((l.length % unsignedInt : ℕ) - 1)) := by
        rw [Manager.AccuMono.variance]
        exact congrArg Except.ok (if_neg htwo)
      exact hdetails.trans hplan.symm
  | S_max => rfl
  | S_at =>
    rw [AccuStat.ofPlan, answer_inspect rfl]
    cases l <;> rfl

end AccuMono

end Vle.Manager.Details
