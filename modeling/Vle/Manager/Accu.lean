import Vle.Lib.Except
import Vle.Value.Value
import Mathlib.Algebra.Order.Floor.Ring
import Mathlib.Data.Rat.Floor
import Mathlib.Data.List.Sort

/-!
# Accumulators

`AccuMono` accumulates numbers in the storage that a statistic needs, and `AccuMulti` columns of
numbers, row by row. The arithmetic is exact: a double is a rational number. What is read from an
accumulator does not depend on the order of the insertions (`AccuMono.getStat_perm`), unless it keeps
that order, which no plan asks for.
-/

namespace Vle.Manager

open Lib.Except

/-- The kinds of storage. -/
inductive AccuType where
  | standard
  | mean
  | quantile
  | ordered
  deriving DecidableEq, Repr

/-- The statistics that a plan can ask for. -/
inductive AccuStat where
  | S_mean
  | S_variance
  | S_max
  | S_at
  | S_quantile
  deriving DecidableEq, Repr

/-- `std::numeric_limits<double>::max()`. -/
def doubleMax : ℚ := (2 - 1 / 2 ^ 52) * 2 ^ 1023

/-- `std::numeric_limits<double>::min()`, which is positive. -/
def doubleMin : ℚ := 1 / 2 ^ 1022

/-- The members of `AccuMono`. The values are sorted where the source sorts them when it reads a
quantile, and keeps them so. -/
structure AccuMono where
  accu : AccuType
  msum : ℚ := 0
  mcount : ℕ := 0
  msquareSum : ℚ := 0
  mmin : ℚ := doubleMax
  mmax : ℚ := doubleMin
  mvalues : List ℚ := []
  mquantile : ℚ := 1 / 2

namespace AccuMono

def storageTypeForStat : AccuStat → AccuType
  | .S_mean => .mean
  | .S_variance | .S_max => .standard
  | .S_at => .ordered
  | .S_quantile => .quantile

/-- The constructor from a statistic. -/
def ofStat (s : AccuStat) : AccuMono := { accu := storageTypeForStat s }

def setDefaultQuantile (a : AccuMono) (quantile : ℚ) : AccuMono := { a with mquantile := quantile }

def insert (a : AccuMono) (v : ℚ) : AccuMono :=
  match a.accu with
  | .standard =>
    { a with
      msum := a.msum + v, mcount := a.mcount + 1, msquareSum := a.msquareSum + v ^ 2,
      mmin := min v a.mmin, mmax := max v a.mmax }
  | .mean => { a with msum := a.msum + v, mcount := a.mcount + 1 }
  | .quantile | .ordered => { a with mvalues := a.mvalues ++ [v] }

def count (a : AccuMono) : ℕ :=
  match a.accu with
  | .standard | .mean => a.mcount
  | .quantile | .ordered => a.mvalues.length

def mean (a : AccuMono) : ℚ :=
  match a.accu with
  | .standard | .mean => a.msum / a.mcount
  | .quantile | .ordered => a.mvalues.sum / a.mvalues.length

def deviationSquareSum (a : AccuMono) : ℚ :=
  let mean := a.msum / a.mcount
  a.mcount * mean ^ 2 + a.msquareSum - 2 * mean * a.msum

def variance (a : AccuMono) : Except Fault ℚ :=
  match a.accu with
  | .standard => .ok (if a.mcount < 2 then 0 else a.deviationSquareSum / (a.mcount - 1))
  | .mean => .error (.thrown " [accu_mono] not available")
  | .quantile | .ordered => .error (.thrown " [accu_mono] not yet implemented (2)")

def getMax (a : AccuMono) : Except Fault ℚ :=
  match a.accu with
  | .standard => .ok a.mmax
  | _ => .error (.thrown " [accu_mono] not available")

/-- A read in a vector, which is not checked. -/
def read (x : List ℚ) (j : ℤ) : Except Fault ℚ :=
  if 0 ≤ j then
    match x[j.toNat]? with
    | some v => .ok v
    | none => .error .outOfRange
  else
    .error .outOfRange

/-- The quantile of order `p`. The branch of the source for the order one tests another variable, and
is never taken. -/
def quantileOnSortedVect (x : List ℚ) (p : ℚ) : Except Fault ℚ := do
  let n : ℚ := x.length
  if x.length = 1 then
    read x 0
  else
    let m := 1 - p
    let j := ⌊n * p + m⌋
    let g := n * p + 1 - p - j
    return (1 - g) * (← read x (j - 1)) + g * (← read x j)

def quantile (a : AccuMono) : Except Fault ℚ :=
  match a.accu with
  | .standard | .mean => .error (.thrown " [accu_mono] not available")
  | .quantile => quantileOnSortedVect (a.mvalues.insertionSort (· ≤ ·)) a.mquantile
  | .ordered => quantileOnSortedVect a.mvalues a.mquantile

/-- The value of the default index, which stays zero. -/
def getAt (a : AccuMono) : Except Fault ℚ :=
  match a.accu with
  | .ordered =>
    match a.mvalues with
    | v :: _ => .ok v
    | [] => .error (.thrown "vector::_M_range_check")
  | _ => .error (.thrown " [accu_mono] not available")

def getStat (a : AccuMono) : AccuStat → Except Fault ℚ
  | .S_mean => .ok a.mean
  | .S_variance => a.variance
  | .S_max => a.getMax
  | .S_at => a.getAt
  | .S_quantile => a.quantile

/-! ## What the insertions add up to -/

/-- Insert some values, one after the other. -/
def accumulate (a : AccuMono) (l : List ℚ) : AccuMono := l.foldl insert a

theorem accumulate_append (a : AccuMono) (l : List ℚ) (v : ℚ) :
    a.accumulate (l ++ [v]) = (a.accumulate l).insert v := by
  simp [accumulate, List.foldl_append]

/-- An insertion keeps the kind of storage and the quantile, and counts one more. -/
theorem insert_spec (a : AccuMono) (v : ℚ) : (a.insert v).accu = a.accu ∧
    (a.insert v).mquantile = a.mquantile ∧ (a.insert v).count = a.count + 1 := by
  unfold insert count
  cases h : a.accu <;> simp

theorem accumulate_spec (a : AccuMono) (l : List ℚ) : (a.accumulate l).accu = a.accu ∧
    (a.accumulate l).mquantile = a.mquantile ∧ (a.accumulate l).count = a.count + l.length := by
  induction l using List.reverseRecOn with
  | nil => exact ⟨rfl, rfl, rfl⟩
  | append_singleton l v ih =>
    obtain ⟨haccu, hquantile, hcount⟩ := insert_spec (a.accumulate l) v
    rw [accumulate_append, haccu, hquantile, hcount, List.length_append]
    exact ⟨ih.1, ih.2.1, by rw [ih.2.2]; rfl⟩

/-- The storage that keeps the values. -/
theorem accumulate_mvalues {a : AccuMono} (h : a.accu = .quantile ∨ a.accu = .ordered)
    (l : List ℚ) : (a.accumulate l).mvalues = a.mvalues ++ l := by
  induction l using List.reverseRecOn with
  | nil => rw [List.append_nil]; rfl
  | append_singleton l v ih =>
    have haccu := (a.accumulate_spec l).1
    rw [accumulate_append, ← List.append_assoc, ← ih, insert]
    rcases h with h | h <;> rw [haccu, h]

/-- The storage that does not keep the values does not keep their order. -/
theorem accumulate_perm {a : AccuMono} (h : a.accu = .standard ∨ a.accu = .mean) {l₁ l₂ : List ℚ}
    (hperm : l₁.Perm l₂) : a.accumulate l₁ = a.accumulate l₂ := by
  have hswap : ∀ (b : AccuMono) (v w : ℚ), b.accu = a.accu →
      (b.insert v).insert w = (b.insert w).insert v := by
    intro b v w hb
    unfold insert
    rcases h with h | h <;> simp only [hb, h]
    · congr 1
      · ring
      · ring
      · exact min_left_comm ..
      · exact max_left_comm ..
    · congr 1
      ring
  have haccu : ∀ (b : AccuMono) (l : List ℚ), b.accu = a.accu → (b.accumulate l).accu = a.accu :=
    fun b l hb => (b.accumulate_spec l).1.trans hb
  have : ∀ b : AccuMono, b.accu = a.accu → b.accumulate l₁ = b.accumulate l₂ := by
    induction hperm with
    | nil => exact fun _ _ => rfl
    | cons v _ ih => exact fun b hb => ih (b.insert v) ((b.insert_spec v).1.trans hb)
    | swap v w l =>
      intro b hb
      simp only [accumulate, List.foldl_cons]
      rw [hswap b w v hb]
    | trans _ _ ih₁ ih₂ => exact fun b hb => (ih₁ b hb).trans (ih₂ b hb)
  exact this a rfl

/-- No statistic depends on the order of the insertions, but the one at an index. -/
theorem getStat_perm {a : AccuMono} {s : AccuStat} (ha : a.accu = storageTypeForStat s)
    (hs : s ≠ .S_at) {l₁ l₂ : List ℚ} (h : l₁.Perm l₂) :
    (a.accumulate l₁).getStat s = (a.accumulate l₂).getStat s := by
  cases s with
  | S_at => exact absurd rfl hs
  | S_mean => rw [accumulate_perm (.inr ha) h]
  | S_variance | S_max => rw [accumulate_perm (.inl ha) h]
  | S_quantile =>
    have ha : a.accu = .quantile := ha
    have hsort : (a.mvalues ++ l₁).insertionSort (· ≤ ·) = (a.mvalues ++ l₂).insertionSort (· ≤ ·) :=
      List.Perm.eq_of_pairwise (fun _ _ _ _ => le_antisymm)
        (List.pairwise_insertionSort ..) (List.pairwise_insertionSort ..)
        (((List.perm_insertionSort ..).trans (h.append_left _)).trans
          (List.perm_insertionSort ..).symm)
    have hspec₁ := a.accumulate_spec l₁
    have hspec₂ := a.accumulate_spec l₂
    simp only [getStat, quantile, hspec₁.1, hspec₂.1, ha, accumulate_mvalues (.inl ha), hsort,
      hspec₁.2.1, hspec₂.2.1]

/-- A read in a vector succeeds inside of it. -/
theorem read_ok {x : List ℚ} {j : ℤ} (h0 : 0 ≤ j) (hlt : j < x.length) : ∃ v, read x j = .ok v := by
  have : j.toNat < x.length := by omega
  exact ⟨x[j.toNat], by rw [read, if_pos h0, List.getElem?_eq_getElem this]⟩

theorem read_out {x : List ℚ} {j : ℤ} (h : j < 0 ∨ x.length ≤ j) :
    read x j = .error .outOfRange := by
  unfold read
  split_ifs with h0
  · rw [List.getElem?_eq_none (by omega)]
  · rfl

/-- A quantile of one value is this value. -/
theorem quantileOnSortedVect_one {x : List ℚ} (h : x.length = 1) (p : ℚ) :
    ∃ v, quantileOnSortedVect x p = .ok v := by
  obtain ⟨v, hv⟩ := read_ok (x := x) (j := 0) le_rfl (by omega)
  exact ⟨v, by rw [quantileOnSortedVect, if_pos h, hv]⟩

/-- A quantile of several values is read inside of the vector for the orders from zero to below one;
for the other orders one of the two reads is outside. -/
theorem quantileOnSortedVect_ok_iff {x : List ℚ} (h : 2 ≤ x.length) (p : ℚ) :
    (∃ v, quantileOnSortedVect x p = .ok v) ↔ 0 ≤ p ∧ p < 1 := by
  have hn : (1 : ℚ) ≤ x.length - 1 := by
    have : (2 : ℚ) ≤ x.length := by exact_mod_cast h
    linarith
  have hpos : (0 : ℚ) < x.length - 1 := by linarith
  have hfloor : (x.length : ℚ) * p + (1 - p) = (x.length - 1) * p + 1 := by ring
  rw [quantileOnSortedVect, if_neg (by omega)]
  simp only [hfloor, Int.floor_add_one, add_sub_cancel_right]
  constructor
  · rintro ⟨v, hv⟩
    obtain ⟨v₁, h₁, hv⟩ := bind_eq_ok.mp hv
    obtain ⟨v₂, h₂, -⟩ := bind_eq_ok.mp hv
    constructor
    · by_contra hp
      have : ⌊((x.length : ℚ) - 1) * p⌋ < 0 :=
        Int.floor_lt.mpr (by rw [Int.cast_zero]; exact mul_neg_of_pos_of_neg hpos (not_le.mp hp))
      rw [read_out (.inl this)] at h₁
      cases h₁
    · by_contra hp
      have : (x.length : ℤ) - 1 ≤ ⌊((x.length : ℚ) - 1) * p⌋ := by
        refine Int.le_floor.mpr ?_
        push_cast
        exact le_mul_of_one_le_right hpos.le (not_lt.mp hp)
      rw [read_out (.inr (by omega))] at h₂
      cases h₂
  · rintro ⟨hp0, hp1⟩
    have hge : 0 ≤ ⌊((x.length : ℚ) - 1) * p⌋ := Int.floor_nonneg.mpr (mul_nonneg hpos.le hp0)
    have hlt : ⌊((x.length : ℚ) - 1) * p⌋ < (x.length : ℤ) - 1 := by
      refine Int.floor_lt.mpr ?_
      push_cast
      exact mul_lt_of_lt_one_right hpos hp1
    obtain ⟨v₁, h₁⟩ := read_ok (x := x) hge (by omega)
    obtain ⟨v₂, h₂⟩ := read_ok (x := x) (j := ⌊((x.length : ℚ) - 1) * p⌋ + 1) (by omega) (by omega)
    rw [h₁, h₂]
    exact ⟨_, rfl⟩

/-- The statistics of at least one value that can be read. -/
theorem getStat_ok {s : AccuStat} (hs : s ≠ .S_at) {q : ℚ} {l : List ℚ} (hl : l ≠ [])
    (hq : s = .S_quantile → l.length = 1 ∨ 0 ≤ q ∧ q < 1) :
    ∃ v, (((ofStat s).setDefaultQuantile q).accumulate l).getStat s = .ok v := by
  obtain ⟨haccu, hquantile, -⟩ := ((ofStat s).setDefaultQuantile q).accumulate_spec l
  cases s with
  | S_at => exact absurd rfl hs
  | S_mean => exact ⟨_, rfl⟩
  | S_variance => exact ⟨_, by rw [getStat, variance, haccu]; rfl⟩
  | S_max => exact ⟨_, by rw [getStat, getMax, haccu]; rfl⟩
  | S_quantile =>
    have hlen : ((((ofStat .S_quantile).setDefaultQuantile q).accumulate l).mvalues.insertionSort
        (· ≤ ·)).length = l.length := by
      rw [List.length_insertionSort, accumulate_mvalues (.inl rfl)]
      rfl
    rw [getStat, quantile, haccu]
    have hpos : 0 < l.length := List.length_pos_iff.mpr hl
    by_cases hone : l.length = 1
    · exact quantileOnSortedVect_one (hlen.trans hone) _
    · refine (quantileOnSortedVect_ok_iff (by rw [hlen]; omega) _).mpr ?_
      rw [hquantile]
      exact (hq rfl).resolve_left hone

end AccuMono

/-- The members of `AccuMulti`. A default quantile is for the accumulators that it has when it is set,
and the plans set it before there is one. -/
structure AccuMulti where
  accu : AccuType
  mstats : List AccuMono := []

namespace AccuMulti

/-- The constructor from a statistic. -/
def ofStat (s : AccuStat) : AccuMulti := { accu := AccuMono.storageTypeForStat s }

def size (a : AccuMulti) : ℕ := a.mstats.length

def setDefaultQuantile (a : AccuMulti) (quantile : ℚ) : AccuMulti :=
  { a with mstats := a.mstats.map (·.setDefaultQuantile quantile) }

def setSize (a : AccuMulti) (s : ℕ) : AccuMulti :=
  if a.mstats.length = s then a
  else
    let quantile := (a.mstats.head?.map (·.mquantile)).getD (1 / 2)
    { a with mstats := List.replicate s { accu := a.accu, mquantile := quantile } }

/-- The loop of `insertColumn`; the member that tells that the size is set is never changed. -/
def insertColumn (a : AccuMulti) (column : List ℚ) : AccuMulti :=
  let a := a.setSize column.length
  { a with mstats := List.zipWith AccuMono.insert a.mstats column }

/-- The statistic of each row. -/
def stats (a : AccuMulti) (s : AccuStat) : Except Fault (List ℚ) := a.mstats.mapM (·.getStat s)

def insertAccuStat (a b : AccuMulti) (s : AccuStat) : Except Fault AccuMulti :=
  if b.size ≠ a.size then
    .error (.thrown " [accu_multi] error size ")
  else do
    let column ← b.stats s
    return { a with mstats := List.zipWith AccuMono.insert a.mstats column }

/-- The count of the first row, which is read without a check. -/
def count (a : AccuMulti) : Except Fault ℕ :=
  match a.mstats with
  | a :: _ => .ok a.count
  | [] => .error .outOfRange

/-- Insert some columns, one after the other. -/
def accumulate (a : AccuMulti) (columns : List (List ℚ)) : AccuMulti := columns.foldl insertColumn a

theorem accumulate_append (a : AccuMulti) (columns : List (List ℚ)) (column : List ℚ) :
    a.accumulate (columns ++ [column]) = (a.accumulate columns).insertColumn column := by
  simp [accumulate, List.foldl_append]

/-- The values of some columns in a row. -/
def row (columns : List (List ℚ)) (r : ℕ) : List ℚ := columns.map fun column => column[r]?.getD 0

/-- After some columns of one length, there is an accumulator for each row. -/
theorem accumulate_mstats {t : AccuType} {rows : ℕ} (hrows : 0 < rows) {columns : List (List ℚ)}
    (hne : columns ≠ []) (hlen : ∀ column ∈ columns, column.length = rows) :
    ({ accu := t } : AccuMulti).accumulate columns =
      { accu := t, mstats := (List.range rows).map fun r =>
          ({ accu := t } : AccuMono).accumulate (row columns r) } := by
  have hinsert : ∀ (f : ℕ → AccuMono) (column : List ℚ), column.length = rows →
      List.zipWith AccuMono.insert ((List.range rows).map f) column =
        (List.range rows).map fun r => (f r).insert (column[r]?.getD 0) := by
    intro f column hcol
    refine List.ext_getElem (by simp [hcol]) fun r h₁ h₂ => ?_
    have hr : r < column.length := by simp at h₂; omega
    simp [List.getElem?_eq_getElem hr]
  induction columns using List.reverseRecOn with
  | nil => exact absurd rfl hne
  | append_singleton columns column ih =>
    have hcol := hlen column (List.mem_append_right _ (List.mem_singleton_self _))
    rw [accumulate_append, insertColumn, hcol]
    by_cases hnil : columns = []
    · subst hnil
      have hsize : ({ accu := t } : AccuMulti).setSize rows =
          { accu := t, mstats := (List.range rows).map fun _ => { accu := t } } := by
        rw [setSize, if_neg (show ¬ ([] : List AccuMono).length = rows by simp; omega),
          List.map_const', List.length_range]
        rfl
      rw [show ({ accu := t } : AccuMulti).accumulate [] = { accu := t } from rfl, hsize]
      simp only [hinsert _ _ hcol]
      rfl
    · rw [ih hnil fun c hc => hlen c (List.mem_append_left _ hc), setSize,
        if_pos (by simp only [List.length_map, List.length_range])]
      simp only [hinsert _ _ hcol, row, List.map_append, List.map_singleton,
        AccuMono.accumulate_append]

/-- The first row counts the columns. -/
theorem count_accumulate {t : AccuType} {rows : ℕ} (hrows : 0 < rows) {columns : List (List ℚ)}
    (hne : columns ≠ []) (hlen : ∀ column ∈ columns, column.length = rows) :
    (({ accu := t } : AccuMulti).accumulate columns).count = .ok columns.length := by
  rw [accumulate_mstats hrows hne hlen, count]
  obtain ⟨n, rfl⟩ : ∃ n, rows = n + 1 := ⟨rows - 1, by omega⟩
  simp only [List.range_succ_eq_map, List.map_cons]
  rw [(AccuMono.accumulate_spec _ _).2.2, row, List.length_map]
  cases t <;> simp [AccuMono.count]

/-- The statistics are those of the rows. -/
theorem stats_accumulate {s : AccuStat} {rows : ℕ} (hrows : 0 < rows) {columns : List (List ℚ)}
    (hne : columns ≠ []) (hlen : ∀ column ∈ columns, column.length = rows) {f : List ℚ → ℚ}
    (hf : ∀ l, l ≠ [] → ((AccuMono.ofStat s).accumulate l).getStat s = .ok (f l)) :
    ((ofStat s).accumulate columns).stats s =
      .ok ((List.range rows).map fun r => f (row columns r)) := by
  rw [ofStat, accumulate_mstats hrows hne hlen, stats, List.mapM_map]
  refine mapM_eq_ok fun r _ => hf _ ?_
  rw [row, ne_eq, List.map_eq_nil_iff]
  exact hne

end AccuMulti

/-- A `value::Table`. -/
structure Table where
  width : ℕ
  height : ℕ
  value : List ℚ
  deriving DecidableEq, Repr

namespace Table

/-- The constructor from the sizes. -/
def ofSize (width height : ℕ) : Except Fault Table :=
  if width * height ≤ 0 then
    .error (.thrown s!"Table: bad constructor initialization {width} x {height}")
  else
    .ok { width, height, value := List.replicate (width * height) 0 }

/-- An assignment to a cell, whose check lets one index too many through. -/
def set (t : Table) (x y : ℕ) (v : ℚ) : Except Fault Table :=
  let i := y * t.width + x
  if t.value.length < i then
    .error (.thrown s!"Table: bad accessor {x} x {y}")
  else if i < t.value.length then
    .ok { t with value := t.value.set i v }
  else
    .error .outOfRange

def resize (t : Table) (width height : ℕ) : Except Fault Table :=
  if width * height ≤ 0 then
    .error (.thrown s!"Table: bad constructor initialization {width} x {height}")
  else if width = t.width ∧ height = t.height then
    .ok t
  else
    .ok { width, height, value := (List.range (width * height)).map fun i =>
      if i % width < t.width ∧ i / width < t.height then
        t.value[i / width * t.width + i % width]?.getD 0
      else 0 }

/-- Fill the first rows of a column. -/
def fillColumn (t : Table) (x : ℕ) (column : List ℚ) : Except Fault Table :=
  column.zipIdx.foldlM (fun t e => t.set x e.2 e.1) t

/-- A table by its cells. -/
def ofFn (width height : ℕ) (cell : ℕ → ℕ → ℚ) : Table where
  width := width
  height := height
  value := (List.range (width * height)).map fun i => cell (i % width) (i / width)

variable {width height : ℕ} {cell : ℕ → ℕ → ℚ}

theorem ofFn_congr {cell' : ℕ → ℕ → ℚ}
    (h : ∀ x < width, ∀ y < height, cell x y = cell' x y) :
    ofFn width height cell = ofFn width height cell' := by
  unfold ofFn
  congr 1
  refine List.map_congr_left fun i hi => ?_
  rw [List.mem_range] at hi
  have hw : 0 < width := Nat.pos_of_ne_zero fun h0 => by simp [h0] at hi
  exact h _ (Nat.mod_lt _ hw) _ (Nat.div_lt_of_lt_mul hi)

theorem ofSize_eq (h : 0 < width * height) :
    ofSize width height = .ok (ofFn width height fun _ _ => 0) := by
  rw [ofSize, if_neg (by omega), ofFn, List.map_const', List.length_range]

/-- A new size that is the old one. -/
theorem resize_ofFn (h : 0 < width * height) :
    (ofFn width height cell).resize width height = .ok (ofFn width height cell) := by
  rw [resize, if_neg (by omega), if_pos ⟨rfl, rfl⟩]

/-- An assignment to a cell of the table. -/
theorem set_ofFn {x y : ℕ} (hx : x < width) (hy : y < height) (v : ℚ) :
    (ofFn width height cell).set x y v =
      .ok (ofFn width height fun x' y' => if x' = x ∧ y' = y then v else cell x' y') := by
  have hi : y * width + x < width * height := by
    have := Nat.mul_le_mul_right width (show y + 1 ≤ height from hy)
    rw [Nat.add_mul, Nat.mul_comm height] at this
    omega
  have hlen : (ofFn width height cell).value.length = width * height := by simp [ofFn]
  have hwidth : (ofFn width height cell).width = width := rfl
  simp only [set, hlen, hwidth]
  rw [if_neg (by omega), if_pos hi]
  congr 1
  unfold ofFn
  congr 1
  refine List.ext_getElem (by simp) fun i h₁ h₂ => ?_
  rw [List.getElem_set]
  simp only [List.getElem_map, List.getElem_range]
  have hiff : y * width + x = i ↔ i % width = x ∧ i / width = y := by
    constructor
    · rintro rfl
      refine ⟨by rw [Nat.mul_comm, Nat.mul_add_mod, Nat.mod_eq_of_lt hx], ?_⟩
      rw [Nat.mul_comm, Nat.mul_add_div (by omega), Nat.div_eq_of_lt hx, Nat.add_zero]
    · rintro ⟨rfl, rfl⟩
      rw [Nat.mul_comm]
      exact Nat.div_add_mod i width
  by_cases h : y * width + x = i
  · rw [if_pos h, if_pos (hiff.mp h)]
  · rw [if_neg h, if_neg (hiff.not.mp h)]

/-- The rows of a column are filled from the first one on. -/
theorem fillColumn_ofFn {x : ℕ} (hx : x < width) {column : List ℚ} (hlen : column.length ≤ height) :
    (ofFn width height cell).fillColumn x column = .ok (ofFn width height fun x' y' =>
      if x' = x ∧ y' < column.length then column[y']?.getD 0 else cell x' y') := by
  induction column using List.reverseRecOn with
  | nil =>
    refine congrArg _ (ofFn_congr fun x' _ y' _ => ?_)
    rw [if_neg (fun h => by simp at h)]
  | append_singleton column v ih =>
    rw [List.length_append, List.length_singleton] at hlen
    have hzip : (column ++ [v]).zipIdx = column.zipIdx ++ [(v, column.length)] := by
      rw [List.zipIdx_append]
      simp
    rw [fillColumn, hzip, foldlM_concat]
    rw [fillColumn] at ih
    rw [ih (by omega), ok_bind, set_ofFn hx (by omega)]
    refine congrArg _ (ofFn_congr fun x' _ y' _ => ?_)
    rw [List.length_append, List.length_singleton]
    by_cases hy : y' = column.length
    · subst hy
      by_cases hx' : x' = x <;> simp [hx']
    · rw [if_neg fun h => hy h.2]
      by_cases h : x' = x ∧ y' < column.length
      · rw [if_pos h, if_pos ⟨h.1, by omega⟩, List.getElem?_append_left h.2]
      · rw [if_neg h, if_neg fun h' => h ⟨h'.1, by omega⟩]

end Table

end Vle.Manager
