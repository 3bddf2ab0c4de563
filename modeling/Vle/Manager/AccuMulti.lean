import Vle.Manager.AccuMono
import Vle.Value.Access

/-!
# The accumulator of columns, whole

`details/accu_multi.hpp`: an accumulator for each row, in a vector that copies its elements when it
grows. The vector is filled by the first insertion, and by each one of another height, since the member
that says that the size is set never is. The default quantile is given to the accumulators that there
are, which before the first insertion are none.

`pointwise` says in which runs each row answers as an accumulator of its own: those that begin with
`insertColumn`, keep the height, and ask for no quantile but the median.
-/

namespace Vle.Manager.Details

open Lib Lib.EState

/-- The members of `AccuMulti`, and the capacity of its vector. -/
structure AccuMulti where
  accu : AccuType
  init_size : Bool
  mstats : List AccuMono
  capacity : ℕ
  deriving DecidableEq, Repr

namespace AccuMulti

/-- The constructor from a type. -/
def ofType (type : AccuType) : AccuMulti := ⟨type, false, [], 0⟩

/-- The constructor from a statistic. -/
def ofStat (s : AccuStat) : AccuMulti := ofType (AccuMono.storageTypeForStat s)

def hasSize (a : AccuMulti) : Bool := a.init_size

def size (a : AccuMulti) : ℕ := a.mstats.length % unsignedInt

/-- `emplace_back`: a vector that is full moves to a larger one, and its elements are copied. -/
def emplaceBack (growth : ℕ → ℕ) (a : AccuMulti) (x : AccuMono) : AccuMulti :=
  if a.mstats.length < a.capacity then { a with mstats := a.mstats ++ [x] }
  else { a with
    mstats := a.mstats.map AccuMono.copy ++ [x]
    capacity := growth a.mstats.length }

def setSize (growth : ℕ → ℕ) (a : AccuMulti) (s : ℕ) : AccuMulti :=
  if a.mstats.length = s then a
  else
    let quantile := (a.mstats.head?.map (·.mquantile)).getD (1 / 2)
    let at_index := (a.mstats.head?.map (·.mat)).getD 0
    (List.range s).foldl (fun a i =>
      let a := a.emplaceBack growth (AccuMono.ofType a.accu)
      { a with mstats := a.mstats.modify i fun s =>
          (s.setDefaultQuantile quantile).setDefaultAtIndex at_index }) { a with mstats := [] }

def setDefaultQuantile (a : AccuMulti) (quantile : ℚ) : AccuMulti :=
  { a with mstats := a.mstats.map (·.setDefaultQuantile quantile) }

def setDefaultAtIndex (a : AccuMulti) (at_index : ℕ) : AccuMulti :=
  { a with mstats := a.mstats.map (·.setDefaultAtIndex at_index) }

/-- `mstats[i].insert(v)`, with an index that is not checked. -/
def insertRow (i : ℕ) (v : ℚ) : EStateM Fault AccuMulti PUnit := fun a =>
  match a.mstats[i]? with
  | none => .error .outOfRange a
  | some x =>
    match x.insert v with
    | .ok y => .ok ⟨⟩ { a with mstats := a.mstats.set i y }
    | .error e => .error e a

/-- `mstats[i].getStat(s)`. -/
def rowStat (sqrt : ℚ → ℚ) (s : AccuStat) (i : ℕ) : EStateM Fault AccuMulti ℚ := fun a =>
  match a.mstats[i]? with
  | none => .error .outOfRange a
  | some x =>
    match AccuMono.getStat sqrt s x with
    | .ok v y => .ok v { a with mstats := a.mstats.set i y }
    | .error e y => .error e { a with mstats := a.mstats.set i y }

/-- The round of the loop of `insertAccuStat`, over this accumulator and the other one. -/
def insertStat (sqrt : ℚ → ℚ) (s : AccuStat) (i : ℕ) :
    EStateM Fault (AccuMulti × AccuMulti) PUnit := fun p =>
  match rowStat sqrt s i p.2 with
  | .error e b => .error e (p.1, b)
  | .ok v b =>
    match insertRow i v p.1 with
    | .error e a => .error e (a, b)
    | .ok _ a => .ok ⟨⟩ (a, b)

/-- `insertAccuStat`, of the second accumulator into the first. -/
def insertAccuStat (sqrt : ℚ → ℚ) (s : AccuStat) :
    EStateM Fault (AccuMulti × AccuMulti) PUnit := do
  let p ← get
  if p.2.size ≠ p.1.size then
    throw (.thrown " [accu_multi] error size ")
  else
    (List.range p.2.size).forM (insertStat sqrt s)

/-- `getDouble` of a matrix. -/
def getDouble (m : Matrix (Value ℚ)) (column row : ℕ) : Except Fault ℚ := do
  match ← m.ppGetValue column row with
  | .double d => return d
  | _ => .error (.thrown "Value is not a double")

/-- The test for a name above the values. -/
def hasName (m : Matrix (Value ℚ)) : Except Fault Bool := do
  match ← m.get 0 0 with
  | some (.double _) => return false
  | some _ => return true
  | none => .error .null

def insertColumn (growth : ℕ → ℕ) (m : Matrix (Value ℚ)) (col : ℕ) :
    EStateM Fault AccuMulti PUnit := do
  let hasName ← inspect fun _ => hasName m
  let nbEl := if hasName then (m.nbrow + unsignedInt - 1) % unsignedInt else m.nbrow % unsignedInt
  if ¬ (← get).hasSize then
    modify fun a => a.setSize growth nbEl
  else if nbEl ≠ (← get).mstats.length then
    throw (.thrown "error")
  (List.range nbEl).forM fun i => do
    let v ← inspect fun _ => getDouble m col (if hasName then i + 1 else i)
    insertRow i v

/-! ## Insertions -/

/-- What inserts a column. -/
inductive Event where
  | column (m : Matrix (Value ℚ)) (col : ℕ)
  | accuStat (b : AccuMulti) (s : AccuStat)

/-- The run of an insertion, of which the other accumulator is dropped. -/
def Event.insert (growth : ℕ → ℕ) (sqrt : ℚ → ℚ) : Event → EStateM Fault AccuMulti PUnit
  | .column m col => insertColumn growth m col
  | .accuStat b s => fun a =>
    match insertAccuStat sqrt s (a, b) with
    | .ok _ p => .ok ⟨⟩ p.1
    | .error e p => .error e p.1

/-- The values that an insertion brings: those of a column of a matrix, below its name if it has one,
or the statistic of each row of an accumulator. -/
def Event.Carries (sqrt : ℚ → ℚ) (c : List ℚ) : Event → Prop
  | .column m col => ∃ named, hasName m = .ok named ∧ m.nbrow = c.length + named.toNat ∧
      ∀ i < c.length, getDouble m col (i + named.toNat) = .ok (c.getD i 0)
  | .accuStat b s => b.mstats.length = c.length ∧
      ∀ i x, b.mstats[i]? = some x → AccuMono.answer sqrt s x = .ok (c.getD i 0)

/-- The values that some columns bring to a row. -/
def row (columns : List (List ℚ)) (r : ℕ) : List ℚ := columns.map fun c => c.getD r 0

/-- What is answered for a quantile. -/
def asked (p : ℚ) (a : AccuMono) : Except Fault ℚ :=
  match a.quantile p with
  | .ok r _ => .ok r
  | .error e _ => .error e

/-- Two accumulators answer alike. -/
def Alike (a b : AccuMono) : Prop :=
  (∀ sqrt s, AccuMono.answer sqrt s a = AccuMono.answer sqrt s b) ∧
    (∀ p, asked p a = asked p b) ∧ (∀ k, a.getAt k = b.getAt k) ∧ a.count = b.count

/-- After some columns of one height there is a row for each of their values, which answers as an
accumulator that received them. -/
def Rows (type : AccuType) (q : ℚ) (columns : List (List ℚ)) (a : AccuMulti) : Prop :=
  (∀ c ∈ columns, a.mstats.length = c.length) ∧
    ∀ r x, a.mstats[r]? = some x → ∃ b,
      ((AccuMono.ofType type).setDefaultQuantile q).accumulate (row columns r) = .ok b ∧ Alike x b

/-- A column of the height of those before is inserted, and one of another height is refused and changes
nothing. -/
def Inserts (growth : ℕ → ℕ) (sqrt : ℚ → ℚ) (columns : List (List ℚ)) (a : AccuMulti) (e : Event)
    (c : List ℚ) : Prop :=
  ((∀ c' ∈ columns, c'.length = c.length) → ∃ a', e.insert growth sqrt a = .ok ⟨⟩ a') ∧
    ∀ c' ∈ columns, c'.length ≠ c.length → ∃ f, e.insert growth sqrt a = .error f a

/-- The states that an accumulator with a default quantile reaches, with the columns that were inserted;
each insertion, inserted or refused, meets a condition. -/
inductive Reached (growth : ℕ → ℕ) (sqrt : ℚ → ℚ) (type : AccuType) (q : ℚ)
    (meets : AccuMulti → Event → List ℚ → Prop) : AccuMulti → List (List ℚ) → Prop
  | start : Reached growth sqrt type q meets ((ofType type).setDefaultQuantile q) []
  | inserted {a a' columns e c} : Reached growth sqrt type q meets a columns →
      e.Carries sqrt c → meets a e c → e.insert growth sqrt a = .ok ⟨⟩ a' →
      Reached growth sqrt type q meets a' (columns ++ [c])
  | refused {a a' columns e c f} : Reached growth sqrt type q meets a columns →
      e.Carries sqrt c → meets a e c → e.insert growth sqrt a = .error f a' →
      Reached growth sqrt type q meets a' columns

/-- In each state reached the rows answer as accumulators of their own, and the next column is inserted
or refused by its height. -/
def Pointwise (growth : ℕ → ℕ) (sqrt : ℚ → ℚ) (type : AccuType) (q : ℚ)
    (meets : AccuMulti → Event → List ℚ → Prop) : Prop :=
  ∀ a columns, Reached growth sqrt type q meets a columns → Rows type q columns a ∧
    ∀ e c, e.Carries sqrt c → meets a e c → Inserts growth sqrt columns a e c

/-- A column has a value, and no more than an `unsigned int` counts. -/
def Column (c : List ℚ) : Prop := c ≠ [] ∧ c.length < 2 ^ 32

/-- The insertions that go well: there is a first column before the statistics of another accumulator,
and a column of a matrix has the height of those before. -/
def Fits (a : AccuMulti) (e : Event) (c : List ℚ) : Prop :=
  Column c ∧ match e with
    | .column _ _ => a.mstats = [] ∨ c.length = a.mstats.length
    | .accuStat _ _ => a.mstats ≠ []

/-! ## The loops -/

/-- An accumulator with other rows. -/
def withRows (a : AccuMulti) (rows : List AccuMono) : AccuMulti := { a with mstats := rows }

section Loop

variable {σ : Type} {w : σ → AccuMulti} {b : ℕ → EStateM Fault σ PUnit} {J : ℕ → σ → Prop}
  {f g : ℕ → AccuMono} {c : List ℚ} {h : ℕ}

/-- A loop over the rows inserts a value in each of them when each of its rounds does in its own. -/
theorem loop_rows
    (hbody : ∀ i s, i < h → J i s → (w s).mstats[i]? = some (f i) → ∃ s', b i s = .ok ⟨⟩ s' ∧
      w s' = (w s).withRows ((w s).mstats.set i (g i)) ∧ J (i + 1) s')
    {s : σ} (hs : (w s).mstats = (List.range h).map f) (hJ : J 0 s) :
    ∃ s', (List.range h).forM b s = .ok ⟨⟩ s' ∧
      w s' = (w s).withRows ((List.range h).map g) := by
  have hrun := forM_total (f := b) (List.range h)
    (I := fun done s' => J done.length s' ∧ w s' = (w s).withRows
      ((List.range h).map fun r => if r < done.length then g r else f r)) ?_ (s := s) ?_
  · obtain ⟨s', hrun, -, hview⟩ := hrun
    refine ⟨s', hrun, ?_⟩
    rw [hview, List.length_range]
    refine congrArg _ (List.map_congr_left fun r hr => ?_)
    rw [if_pos (List.mem_range.mp hr)]
  · rintro done i todo s' hlist ⟨hJ, hview⟩
    -- the round of a row is that of the number of rounds before
    have hi : i = done.length := by
      have hget := congrArg (fun l => l[done.length]?) hlist
      simp only [List.getElem?_append_right le_rfl, Nat.sub_self, List.getElem?_cons_zero] at hget
      have := List.getElem?_eq_some_iff.mp hget
      obtain ⟨hlt, hval⟩ := this
      rw [List.getElem_range] at hval
      exact hval.symm
    have hlt : i < h := by
      have hlen := congrArg List.length hlist
      rw [List.length_range, List.length_append, List.length_cons] at hlen
      omega
    rw [← hi] at hJ hview
    have hcell : (w s').mstats[i]? = some (f i) := by
      rw [hview, withRows, List.getElem?_map, List.getElem?_range hlt]
      exact congrArg some (if_neg (lt_irrefl i))
    obtain ⟨s'', hs'', hview', hJ'⟩ := hbody i s' hlt hJ hcell
    refine ⟨s'', hs'', by rwa [List.length_append, List.length_singleton, ← hi], ?_⟩
    rw [hview', hview, List.length_append, List.length_singleton, ← hi]
    refine congrArg _ (List.ext_getElem (by simp [withRows]) fun r h₁ h₂ => ?_)
    rw [List.getElem_set]
    simp only [withRows, List.getElem_map, List.getElem_range]
    by_cases hr : i = r
    · subst hr
      rw [if_pos rfl, if_pos (Nat.lt_succ_self i)]
    · rw [if_neg hr]
      by_cases hlt : r < i
      · rw [if_pos hlt, if_pos (by omega)]
      · rw [if_neg hlt, if_neg (by omega)]
  · refine ⟨hJ, ?_⟩
    have : (List.range h).map (fun r => if r < ([] : List ℕ).length then g r else f r) =
        (w s).mstats := by
      rw [hs]
      exact List.map_congr_left fun r _ => if_neg (Nat.not_lt_zero r)
    rw [this]
    rfl

end Loop

theorem insertRow_run {a : AccuMulti} {i : ℕ} {x y : AccuMono} {v : ℚ} (hx : a.mstats[i]? = some x)
    (hy : x.insert v = .ok y) : insertRow i v a = .ok ⟨⟩ (a.withRows (a.mstats.set i y)) := by
  simp only [insertRow, hx, hy]
  rfl

/-- The size of an accumulator that has no row is set to rows that have nothing yet. -/
theorem setSize_empty (growth : ℕ → ℕ) {a : AccuMulti} (ha : a.mstats = []) (s : ℕ) :
    ∃ capacity, a.setSize growth s =
      { a with mstats := (List.range s).map fun _ => AccuMono.ofType a.accu, capacity } := by
  by_cases hs : s = 0
  · subst hs
    refine ⟨a.capacity, ?_⟩
    rw [setSize, if_pos (by rw [ha]; rfl), List.range_zero, List.map_nil, ← ha]
  rw [setSize, if_neg (by rw [ha]; exact fun h => hs h.symm), ha]
  simp only [List.head?_nil, Option.map_none, Option.getD_none]
  clear hs
  induction s with
  | zero => exact ⟨a.capacity, rfl⟩
  | succ s ih =>
    obtain ⟨capacity, ih⟩ := ih
    rw [List.range_succ, List.foldl_append, ih, List.foldl_cons, List.foldl_nil]
    have hcopy : ((List.range s).map fun _ => AccuMono.ofType a.accu).map AccuMono.copy =
        (List.range s).map fun _ => AccuMono.ofType a.accu := by
      rw [List.map_map]
      rfl
    have hlast : ((List.range s).map (fun _ => AccuMono.ofType a.accu) ++
        [AccuMono.ofType a.accu]).modify s (fun x =>
          (x.setDefaultQuantile (1 / 2)).setDefaultAtIndex 0) =
        (List.range s ++ [s]).map fun _ => AccuMono.ofType a.accu := by
      rw [List.map_append, List.map_singleton]
      refine List.ext_getElem (by simp) fun r h₁ h₂ => ?_
      rw [List.getElem_modify]
      split_ifs with hr
      · subst hr
        rw [List.getElem_append_right (by simp)]
        simp only [List.getElem_singleton]
        rfl
      · rfl
    unfold emplaceBack
    split_ifs
    · exact ⟨capacity, by simp only [hlast]⟩
    · exact ⟨growth ((List.range s).map fun _ => AccuMono.ofType a.accu).length,
        by simp only [hcopy, hlast]⟩

/-! ## Runs -/

/-- What does not depend on the accumulator is read beside it. -/
theorem read_bind_run {α β : Type} {x : Except Fault α} {g : α → EStateM Fault AccuMulti β} {v : α}
    (hx : x = .ok v) (a : AccuMulti) : (inspect (fun _ => x) >>= g) a = g v a := by
  subst hx
  rfl

/-- What an accumulator holds after some columns of one height. -/
structure Holds (type : AccuType) (columns : List (List ℚ)) (h : ℕ) (a : AccuMulti) : Prop where
  accu : a.accu = type
  noSize : a.init_size = false
  small : h < unsignedInt
  empty : columns = [] ↔ h = 0
  height : ∀ c ∈ columns, c.length = h
  rows : a.mstats = (List.range h).map fun r => AccuMono.holding type (row columns r)

variable (growth : ℕ → ℕ) {sqrt : ℚ → ℚ} {type : AccuType} {columns : List (List ℚ)} {h : ℕ}
  {a : AccuMulti} {c : List ℚ}

theorem Holds.length (hold : Holds type columns h a) : a.mstats.length = h := by
  rw [hold.rows, List.length_map, List.length_range]

theorem row_append (columns : List (List ℚ)) (c : List ℚ) (r : ℕ) :
    row (columns ++ [c]) r = row columns r ++ [c.getD r 0] := by
  rw [row, row, List.map_append, List.map_singleton]

/-- One more column of the height. -/
theorem Holds.append (hold : Holds type columns h a) (hc : c ≠ []) (hlen : c.length = h) {a' : AccuMulti}
    (ha' : a' = a.withRows ((List.range h).map fun r =>
      AccuMono.holding type (row columns r ++ [c.getD r 0]))) : Holds type (columns ++ [c]) h a' := by
  subst ha'
  refine ⟨hold.accu, hold.noSize, hold.small, ?_, fun c' hc' => ?_, ?_⟩
  · have := List.length_pos_iff.mpr hc
    exact iff_of_false (by simp) (by omega)
  · rcases List.mem_append.mp hc' with hc' | hc'
    · exact hold.height c' hc'
    · rwa [List.mem_singleton.mp hc']
  · rw [withRows]
    exact List.map_congr_left fun r _ => by rw [row_append]

/-- The columns that a matrix brings are inserted: the first one, and those of its height. -/
theorem Holds.insertColumn (hold : Holds type columns h a) {m : Matrix (Value ℚ)} {col : ℕ}
    (hcarries : (Event.column m col).Carries sqrt c) (hcolumn : Column c)
    (hfits : columns = [] ∨ c.length = h) :
    ∃ a', insertColumn growth m col a = .ok ⟨⟩ a' ∧ Holds type (columns ++ [c]) c.length a' := by
  obtain ⟨named, hname, hrows, hvalues⟩ := hcarries
  obtain ⟨hne, hsmall⟩ := hcolumn
  have hnbEl : (if named then (m.nbrow + unsignedInt - 1) % unsignedInt else m.nbrow % unsignedInt) =
      c.length := by
    have : 1 ≤ unsignedInt := Nat.two_pow_pos 32
    cases named with
    | true =>
      rw [if_pos rfl, hrows, Bool.toNat_true, show c.length + 1 + unsignedInt - 1 =
        c.length + unsignedInt by omega, Nat.add_mod_right]
      exact Nat.mod_eq_of_lt hsmall
    | false =>
      rw [if_neg (by decide), hrows, Bool.toNat_false]
      exact Nat.mod_eq_of_lt hsmall
  -- the rows are there before the loop
  have hsize : Holds type columns c.length (a.setSize growth c.length) ∨ columns = [] ∧
      ∃ capacity, a.setSize growth c.length = { a with
        mstats := (List.range c.length).map fun _ => AccuMono.ofType type, capacity } := by
    rcases hfits with hnil | hlen
    · refine .inr ⟨hnil, ?_⟩
      have hempty : a.mstats = [] := by
        rw [hold.rows, (hold.empty).mp hnil]
        rfl
      obtain ⟨capacity, hset⟩ := setSize_empty growth hempty c.length
      exact ⟨capacity, by rw [hset, hold.accu]⟩
    · refine .inl ?_
      rw [setSize, if_pos (hold.length.trans hlen.symm), hlen]
      exact hold
  have hstart : (a.setSize growth c.length).mstats = (List.range c.length).map fun r =>
      AccuMono.holding type (row columns r) := by
    rcases hsize with hsize | ⟨hnil, capacity, hset⟩
    · exact hsize.rows
    · rw [hset, hnil]
      exact List.map_congr_left fun r _ => (AccuMono.holding_nil type).symm
  obtain ⟨a', hloop, ha'⟩ := loop_rows (w := id) (J := fun _ _ => True)
    (b := fun i => do
      let v ← inspect fun _ => getDouble m col (if named then i + 1 else i)
      insertRow i v)
    (f := fun r => AccuMono.holding type (row columns r))
    (g := fun r => AccuMono.holding type (row columns r ++ [c.getD r 0])) (h := c.length)
    (s := a.setSize growth c.length) (fun i s hi _ hcell => by
      refine ⟨_, ?_, rfl, trivial⟩
      have hread : getDouble m col (if named then i + 1 else i) = .ok (c.getD i 0) := by
        rw [← hvalues i hi]
        cases named <;> rfl
      rw [read_bind_run hread]
      exact insertRow_run hcell (AccuMono.insert_holding type _ _)) hstart trivial
  refine ⟨a', ?_, ?_⟩
  · unfold AccuMulti.insertColumn
    rw [read_bind_run hname]
    simp only [hnbEl]
    rw [bind_run (get_run a), if_pos (by rw [hasSize, hold.noSize]; decide),
      bind_run (modify_run _ a)]
    exact hloop
  · simp only [id] at ha'
    rcases hsize with hsize | ⟨hnil, capacity, hset⟩
    · exact hsize.append hne rfl ha'
    · subst ha' hnil
      rw [hset]
      refine ⟨hold.accu, hold.noSize, hsmall, iff_of_false (by simp) ?_, fun c' hc' => ?_, rfl⟩
      · have := List.length_pos_iff.mpr hne
        omega
      · rw [List.mem_singleton.mp hc']

theorem rowStat_run {b : AccuMulti} {i : ℕ} {x : AccuMono} {s : AccuStat} {v : ℚ}
    (hx : b.mstats[i]? = some x) (hv : AccuMono.answer sqrt s x = .ok v) :
    ∃ y, rowStat sqrt s i b = .ok v (b.withRows (b.mstats.set i y)) := by
  unfold AccuMono.answer at hv
  simp only [rowStat, hx]
  cases hstat : AccuMono.getStat sqrt s x with
  | ok r y =>
    rw [hstat] at hv
    cases hv
    exact ⟨y, rfl⟩
  | error e y =>
    rw [hstat] at hv
    cases hv

/-- The statistics of an accumulator of as many rows are inserted, and those of another one are
refused. -/
theorem Holds.insertAccuStat (hold : Holds type columns h a) {b : AccuMulti} {s : AccuStat}
    (hcarries : (Event.accuStat b s).Carries sqrt c) (hcolumn : Column c) :
    (c.length = h → ∃ a', (Event.accuStat b s).insert growth sqrt a = .ok ⟨⟩ a' ∧
      Holds type (columns ++ [c]) h a') ∧
    (c.length ≠ h → (Event.accuStat b s).insert growth sqrt a =
      .error (.thrown " [accu_multi] error size ") a) := by
  obtain ⟨hlen, hvalues⟩ := hcarries
  have hsize : a.size = h := by rw [size, hold.length, Nat.mod_eq_of_lt hold.small]
  have hsize' : b.size = c.length := by
    rw [size, hlen]
    exact Nat.mod_eq_of_lt hcolumn.2
  constructor
  · rintro rfl
    obtain ⟨p, hloop, hp⟩ := loop_rows (w := Prod.fst)
      (J := fun i p => ∀ r, i ≤ r → p.2.mstats[r]? = b.mstats[r]?) (b := insertStat sqrt s)
      (f := fun r => AccuMono.holding type (row columns r))
      (g := fun r => AccuMono.holding type (row columns r ++ [c.getD r 0])) (h := c.length)
      (s := (a, b)) (fun i p hi hJ hcell => by
        have hget : b.mstats[i]? = some b.mstats[i] := List.getElem?_eq_getElem (by omega)
        obtain ⟨y, hy⟩ := rowStat_run ((hJ i le_rfl).trans hget) (hvalues i _ hget)
        have hrow := insertRow_run hcell (AccuMono.insert_holding type _ (c.getD i 0))
        refine ⟨(p.1.withRows _, p.2.withRows (p.2.mstats.set i y)), by simp only [insertStat, hy, hrow], rfl,
          fun r hr => ?_⟩
        have hset : (p.2.mstats.set i y)[r]? = p.2.mstats[r]? := List.getElem?_set_ne (by omega)
        exact hset.trans (hJ r (by omega))) hold.rows (fun _ _ => rfl)
    refine ⟨p.1, ?_, hold.append hcolumn.1 rfl hp⟩
    have hrun : AccuMulti.insertAccuStat sqrt s (a, b) = .ok ⟨⟩ p := by
      unfold AccuMulti.insertAccuStat
      rw [bind_run (get_run _), if_neg (by rw [hsize, hsize']; exact fun h => h rfl), hsize']
      exact hloop
    simp only [Event.insert, hrun]
  · intro hne
    have hrun : AccuMulti.insertAccuStat sqrt s (a, b) =
        .error (.thrown " [accu_multi] error size ") (a, b) := by
      unfold AccuMulti.insertAccuStat
      rw [bind_run (get_run _), if_pos (by rw [hsize, hsize']; exact hne)]
      rfl
    simp only [Event.insert, hrun]

/-- An insertion that fits inserts a column of the height, and refuses one of another height. -/
theorem Holds.insert (hold : Holds type columns h a) {e : Event} (hcarries : e.Carries sqrt c)
    (hfits : Fits a e c) :
    (∃ a' h', e.insert growth sqrt a = .ok ⟨⟩ a' ∧ Holds type (columns ++ [c]) h' a' ∧
      (columns = [] ∨ c.length = h)) ∨
    (∃ f, e.insert growth sqrt a = .error f a) ∧ columns ≠ [] ∧ c.length ≠ h := by
  obtain ⟨hcolumn, hfits⟩ := hfits
  have hnil : columns = [] ↔ a.mstats = [] := by
    rw [← List.length_eq_zero_iff (l := a.mstats), hold.length]
    exact hold.empty
  cases e with
  | column m col =>
    have hfits : columns = [] ∨ c.length = h := by
      rw [hnil, ← hold.length]
      exact hfits
    obtain ⟨a', hrun, hold'⟩ := hold.insertColumn growth hcarries hcolumn hfits
    exact .inl ⟨a', _, hrun, hold', hfits⟩
  | accuStat b s =>
    obtain ⟨hok, herror⟩ := hold.insertAccuStat growth hcarries hcolumn
    by_cases hlen : c.length = h
    · obtain ⟨a', hrun, hold'⟩ := hok hlen
      exact .inl ⟨a', _, hrun, hold', .inr hlen⟩
    · exact .inr ⟨⟨_, herror hlen⟩, fun h => hfits (hnil.mp h), hlen⟩

/-- The states reached hold the columns. -/
theorem holds_of_reached {growth : ℕ → ℕ} {q : ℚ} (hreached : Reached growth sqrt type q Fits a columns) :
    ∃ h, Holds type columns h a := by
  induction hreached with
  | start =>
    exact ⟨0, rfl, rfl, Nat.two_pow_pos 32, iff_of_true rfl rfl, fun _ hc => absurd hc List.not_mem_nil, rfl⟩
  | inserted _ hcarries hfits hrun ih =>
    obtain ⟨h, hold⟩ := ih
    rcases hold.insert growth hcarries hfits with ⟨a', h', hrun', hold', -⟩ | ⟨⟨f, hrun'⟩, -⟩
    · rw [hrun] at hrun'
      cases hrun'
      exact ⟨h', hold'⟩
    · rw [hrun] at hrun'
      cases hrun'
  | refused _ hcarries hfits hrun ih =>
    obtain ⟨h, hold⟩ := ih
    rcases hold.insert growth hcarries hfits with ⟨a', h', hrun', -⟩ | ⟨⟨f, hrun'⟩, -⟩
    · rw [hrun] at hrun'
      cases hrun'
    · rw [hrun] at hrun'
      cases hrun'
      exact ⟨h, hold⟩

/-- The default quantile is the one that an accumulator begins with, or it is not asked for one. -/
theorem alike_of_quantile {q : ℚ} (hq : type = .standard ∨ type = .mean ∨ q = 1 / 2) (l : List ℚ) :
    Alike (AccuMono.holding type l) ((AccuMono.holding type l).setDefaultQuantile q) := by
  rcases hq with rfl | rfl | rfl
  · refine ⟨fun sqrt s => ?_, fun _ => rfl, fun _ => rfl, rfl⟩
    cases s with
    | S_variance =>
      rw [AccuMono.answer_inspect rfl, AccuMono.answer_inspect rfl,
        AccuMono.variance_setDefaultQuantile]
    | S_stdDeviation =>
      rw [AccuMono.answer_inspect rfl, AccuMono.answer_inspect rfl,
        AccuMono.stdDeviation_setDefaultQuantile]
    | _ => rfl
  · refine ⟨fun sqrt s => ?_, fun _ => rfl, fun _ => rfl, rfl⟩
    cases s <;> rfl
  · have : (AccuMono.holding type l).setDefaultQuantile (1 / 2) = AccuMono.holding type l := by
      cases type <;> rfl
    rw [this]
    exact ⟨fun _ _ => rfl, fun _ => rfl, fun _ => rfl, rfl⟩

/-- Along insertions that fit, each row answers as an accumulator of its own, unless a quantile other
than the median is asked for. -/
theorem pointwise (growth : ℕ → ℕ) (sqrt : ℚ → ℚ) {type : AccuType} {q : ℚ}
    (hq : type = .standard ∨ type = .mean ∨ q = 1 / 2) : Pointwise growth sqrt type q Fits := by
  intro a columns hreached
  obtain ⟨h, hold⟩ := holds_of_reached hreached
  refine ⟨⟨fun c hc => hold.length.trans (hold.height c hc).symm, fun r x hx => ?_⟩, ?_⟩
  · refine ⟨_, AccuMono.accumulate_setDefaultQuantile type q _, ?_⟩
    have hr : r < h := by
      rw [← hold.length]
      exact (List.getElem?_eq_some_iff.mp hx).1
    rw [hold.rows, List.getElem?_map, List.getElem?_range hr] at hx
    cases hx
    exact alike_of_quantile hq _
  · intro e c hcarries hfits
    rcases hold.insert growth hcarries hfits with ⟨a', h', hrun, -, hheight⟩ | ⟨hrun, hne, hheight⟩
    · refine ⟨fun _ => ⟨a', hrun⟩, fun c' hc' hlen => ?_⟩
      rcases hheight with hnil | hheight
      · rw [hnil] at hc'
        exact absurd hc' List.not_mem_nil
      · exact absurd ((hold.height c' hc').trans hheight.symm) hlen
    · refine ⟨fun hall => ?_, fun _ _ _ => hrun⟩
      obtain ⟨c', hc'⟩ := List.exists_mem_of_ne_nil columns hne
      exact absurd ((hall c' hc').symm.trans (hold.height c' hc')) hheight

/-- A matrix of one column. -/
def ofColumn (c : List ℚ) : Matrix (Value ℚ) :=
  ⟨c.map fun v => some (.double v), 1, c.length, 1, c.length, 1, 1, 0, 0⟩

/-- An accumulator of medians that has received a column. -/
theorem pointwise_median : ∃ a, Reached (fun n => 2 * n + 1) id .quantile (1 / 2) Fits a [[1, 2]] ∧
    Rows .quantile (1 / 2) [[1, 2]] a := by
  have hreached : ∃ a, Reached (fun n => 2 * n + 1) id .quantile (1 / 2) Fits a [[1, 2]] := by
    have hcarries : (Event.column (ofColumn [1, 2]) 0).Carries id [1, 2] :=
      ⟨false, rfl, rfl, fun i hi => by
        have : i < 2 := hi
        interval_cases i <;> rfl⟩
    exact ⟨_, .inserted .start hcarries ⟨⟨List.cons_ne_nil _ _, by decide⟩, .inl rfl⟩ rfl⟩
  obtain ⟨a, ha⟩ := hreached
  exact ⟨a, ha, (pointwise _ _ (.inr (.inr rfl)) a _ ha).1⟩

/-- A column of another height is taken. -/
theorem not_pointwise_taller :
    ¬ Pointwise (fun n => 2 * n + 1) id .mean (1 / 2) fun _ _ c => Column c := by
  intro h
  have hcarries : (Event.column (ofColumn [1]) 0).Carries id [1] := ⟨false, rfl, rfl, fun i hi => by
    have : i < 1 := hi
    interval_cases i
    rfl⟩
  have hcarries' : (Event.column (ofColumn [1, 2]) 0).Carries id [1, 2] :=
    ⟨false, rfl, rfl, fun i hi => by
      have : i < 2 := hi
      interval_cases i <;> rfl⟩
  have hinserts := (h _ _ (.inserted .start hcarries ⟨List.cons_ne_nil _ _, by decide⟩ rfl)).2 _ _
    hcarries' ⟨List.cons_ne_nil _ _, by decide⟩
  obtain ⟨f, hf⟩ := hinserts.2 [1] List.mem_cons_self (by decide)
  cases hf

end AccuMulti

end Vle.Manager.Details
