import Vle.Lib.Runs
import Vle.Oov.Plugin
import Vle.Value.Growth

/-!
# The storage plug-in

`Storage` keeps the values in a matrix that has a column for each observable and a row for each date. The
columns are found through the names of the observables, and a name that is announced again keeps its
first column while the matrix gets another one.

`recorded_of_meets` is for observables that are announced once: the matrix then holds the observations, at
their places. The sizes that the matrix asks for are not to wrap around.
-/

namespace Vle.Oov

open Lib

variable {D : Type}

inductive StorageHeaderType where
  | STORAGE_HEADER_NONE
  | STORAGE_HEADER_TOP
  deriving DecidableEq, Repr

/-- `Storage`. The date is that of the last row, and none is before all dates. -/
structure Storage (D : Type) where
  m_matrix : Matrix (Value D)
  m_colAccess : AList fun _ : String => ℕ
  m_time : Option D
  m_headertype : StorageHeaderType

namespace Storage

def buildKey (parent simulator port : String) : String := parent ++ ":" ++ simulator ++ "." ++ port

/-- `Map::getInt`. -/
def getInt (m : List (String × Option (Value D))) (name : String) : Except Fault ℤ := do
  match ← Value.mapGet m name with
  | some (.integer i) => return i
  | some _ => throw (.thrown "Value is not an integer")
  | none => throw (.thrown s!"Map: the key '{name}' have empty (null) value")

/-- `Map::getString`. -/
def getString (m : List (String × Option (Value D))) (name : String) : Except Fault String := do
  match ← Value.mapGet m name with
  | some (.string s) => return s
  | some _ => throw (.thrown "Value is not a string")
  | none => throw (.thrown s!"Map: the key '{name}' have empty (null) value")

/-- The number of columns or of rows by which the matrix grows. -/
def increment (parameters : Option (Value D)) (name : String) : Except Fault ℤ :=
  match parameters with
  | some (.map m) => if Value.mapExist m name then getInt m name else .ok 100
  | _ => .ok 100

/-- The form of the header. -/
def header (parameters : Option (Value D)) : Except Fault StorageHeaderType :=
  match parameters with
  | some (.map m) =>
    if Value.mapExist m "header" then do
      let type ← getString m "header"
      return if type = "top" then .STORAGE_HEADER_TOP else .STORAGE_HEADER_NONE
    else .ok .STORAGE_HEADER_NONE
  | _ => .ok .STORAGE_HEADER_NONE

/-- An `int` as a size. -/
def toSize (i : ℤ) : ℕ := (i % sizeT).toNat

def onParameter (memory : ℕ) (parameters : Option (Value D)) : Except Fault (Storage D) := do
  let rzcolumns ← toSize <$> increment parameters "inc_columns"
  let rzrows ← toSize <$> increment parameters "inc_rows"
  match ← header parameters with
  | .STORAGE_HEADER_TOP => do
    let m ← Matrix.ofCapacities memory 1 1 rzcolumns rzrows rzcolumns rzrows
    let m ← m.add 0 0 (some (.string "time"))
    return ⟨m, ∅, none, .STORAGE_HEADER_TOP⟩
  | .STORAGE_HEADER_NONE => do
    let m ← Matrix.ofCapacities memory 1 0 rzcolumns rzrows rzcolumns rzrows
    return ⟨m, ∅, none, .STORAGE_HEADER_NONE⟩

/-- `onNewObservable`. A name that is in the map keeps its column there. -/
def onNewObservable (memory : ℕ) (simulator parent port : String) (s : Storage D) :
    Except Fault (Storage D) := do
  let key := buildKey parent simulator port
  let idx := s.m_matrix.nbcol
  let m_colAccess := if key ∈ s.m_colAccess then s.m_colAccess else s.m_colAccess.insert key idx
  let m ← s.m_matrix.addColumn memory
  let m ← match s.m_headertype with
    | .STORAGE_HEADER_TOP => m.add idx 0 (some (.string key))
    | .STORAGE_HEADER_NONE => .ok m
  return { s with
    m_matrix := m
    m_colAccess := m_colAccess }

/-- `setLastTime`, for the date of the member. -/
def setLastTime (memory : ℕ) (m_time : D) (s : Storage D) : Except Fault (Storage D) := do
  let row := s.m_matrix.nbrow
  let m ← s.m_matrix.addRow memory
  let m ← m.add 0 row (some (.double m_time))
  return { s with m_matrix := m }

def nextTime [DecidableEq D] (memory : ℕ) (trame_time : D) (s : Storage D) : Except Fault (Storage D) :=
  if some trame_time ≠ s.m_time then setLastTime memory trame_time { s with m_time := some trame_time }
  else .ok s

/-- `onValue`. An observable that is not in the map is the end of the map, which nothing may be read
from. -/
def onValue [DecidableEq D] (memory : ℕ) (simulator parent port : String) (time : D)
    (value : Option (Value D)) (s : Storage D) : Except Fault (Storage D) := do
  let s ← s.nextTime memory time
  if simulator ≠ "" then
    match s.m_colAccess.lookup (buildKey parent simulator port) with
    | none => throw .null
    | some column => do
      let m ← s.m_matrix.set column ((s.m_matrix.nbrow + sizeT - 1) % sizeT) value
      return { s with m_matrix := m }
  else return s

variable [LinearOrder D] (memory : ℕ)

/-- A call of the interface. `onDelObservable` does nothing. -/
def call (s : Storage D) : Call D (Value D) → Except Fault (Storage D)
  | .onNewObservable simulator parent port _ => s.onNewObservable memory simulator parent port
  | .onDelObservable _ _ _ _ => .ok s
  | .onValue simulator parent port time value => s.onValue memory simulator parent port time value

/-- The matrix that `finish` returns after some calls. -/
def finish (parameters : Option (Value D)) (calls : List (Call D (Value D))) :
    Except Fault (Matrix (Value D)) := do
  let s ← onParameter memory parameters
  let s ← calls.foldlM (call memory) s
  return s.m_matrix

/-! ## What the matrix should hold -/

end Storage

/-- The parent, the model and the port that an observable is known by. -/
structure Observable where
  parent : String
  simulator : String
  port : String
  deriving DecidableEq, Repr

namespace Call

variable {T V : Type}

/-- The observable that a call announces. -/
def announced : Call T V → Option Observable
  | onNewObservable simulator parent port _ => some ⟨parent, simulator, port⟩
  | _ => none

/-- The value that a call gives for an observable at a date. -/
def valueAt [DecidableEq T] (o : Observable) (date : T) : Call T V → Option (Option V)
  | onValue simulator parent port time value =>
    if simulator ≠ "" ∧ ⟨parent, simulator, port⟩ = o ∧ time = date then some value else none
  | _ => none

/-- The names of an observable have no colon and no dot. -/
def Plain : Call T V → Prop
  | onNewObservable simulator parent _ _ => (':' ∉ parent.toList ∧ '.' ∉ simulator.toList)
  | onDelObservable _ _ _ _ => True
  | onValue simulator parent _ _ _ => (':' ∉ parent.toList ∧ '.' ∉ simulator.toList)

end Call

namespace Storage

variable {T V : Type}

/-- The observables announced, in order. -/
def announced (calls : List (Call T V)) : List Observable := calls.filterMap Call.announced

/-- The last value given for an observable at a date, or nothing. -/
def last [DecidableEq T] (calls : List (Call T V)) (o : Observable) (date : T) : Option V :=
  ((calls.filterMap (Call.valueAt o date)).getLast?).join

/-- The number of rows before the observations. -/
def top : StorageHeaderType → ℕ
  | .STORAGE_HEADER_NONE => 0
  | .STORAGE_HEADER_TOP => 1

/-- A matrix shows the observations: after the header, each row is for a date, with the date in its first
column, and each of the other columns is for an observable. -/
structure Shows [DecidableEq D] (header : StorageHeaderType) (calls : List (Call D (Value D)))
    (columns : List Observable) (rows : List D) (m : Matrix (Value D)) : Prop where
  nbcol : m.nbcol = columns.length + 1
  nbrow : m.nbrow = top header + rows.length
  time : header = .STORAGE_HEADER_TOP → m.cell 0 0 = some (some (.string "time"))
  name : header = .STORAGE_HEADER_TOP → ∀ j o, columns[j]? = some o →
    m.cell (j + 1) 0 = some (some (.string (buildKey o.parent o.simulator o.port)))
  date : ∀ i d, rows[i]? = some d → m.cell 0 (top header + i) = some (some (.double d))
  value : ∀ i d j o, rows[i]? = some d → columns[j]? = some o →
    m.cell (j + 1) (top header + i) = some (last calls o d)

/-- The observations are recorded: there is one row for each date of a call, in increasing order, and one
column for each observable. -/
structure Recorded [LinearOrder D] (header : StorageHeaderType) (calls : List (Call D (Value D)))
    (columns : List Observable) (rows : List D) (m : Matrix (Value D)) : Prop where
  rows_sorted : rows.Pairwise (· < ·)
  rows_mem : ∀ d, d ∈ rows ↔ d ∈ dates calls
  columns_nodup : columns.Nodup
  columns_mem : ∀ o, o ∈ columns ↔ o ∈ announced calls
  shows : Shows header calls columns rows m

variable [LinearOrder D] (memory : ℕ)

/-- The next state, if there is no failure. -/
def next (s : Storage D) (c : Call D (Value D)) : Option (Storage D) := (s.call memory c).toOption

/-- An observable that is announced is a new one, and a matrix that needs a larger buffer for a row or a
column has place for its sizes with their steps. -/
def Meets (s : Storage D) : Call D (Value D) → Prop
  | .onNewObservable simulator parent port _ => buildKey parent simulator port ∉ s.m_colAccess ∧
      s.m_matrix.Room (s.m_matrix.nbcol + 1) s.m_matrix.nbrow
  | .onDelObservable _ _ _ _ => True
  | .onValue _ _ _ time _ => some time ≠ s.m_time →
      s.m_matrix.Room s.m_matrix.nbcol (s.m_matrix.nbrow + 1)

/-- There is no memory for as many columns and rows as there are calls, with the steps. -/
def Lacks (steps : ℕ × ℕ) (calls : List (Call D (Value D))) : Prop :=
  min memory maxSize < (calls.length + 1 + steps.1) * (calls.length + 1 + steps.2)

/-- What is true between two calls. -/
structure Kept (header : StorageHeaderType) (steps : ℕ × ℕ) (calls : List (Call D (Value D)))
    (rows : List D) (s : Storage D) : Prop where
  recorded : Recorded header calls (announced calls) rows s.m_matrix
  growing : s.m_matrix.Growing
  access : ∀ j o, (announced calls)[j]? = some o →
    s.m_colAccess.lookup (buildKey o.parent o.simulator o.port) = some (j + 1)
  last : s.m_time = rows.getLast?
  headertype : s.m_headertype = header
  steps : s.m_matrix.stepcol = steps.1 ∧ s.m_matrix.steprow = steps.2

/-! ## Calls -/

section Lists

variable {calls : List (Call T V)} {c : Call T V}

theorem announced_concat : announced (calls ++ [c]) = announced calls ++ c.announced.toList := by
  unfold announced
  rw [List.filterMap_append]
  cases h : c.announced <;> simp [h]

/-- The names announced are those of the observables. -/
theorem observables_eq : observables calls =
    (announced calls).map fun o => buildKey o.parent o.simulator o.port := by
  unfold observables announced
  rw [List.map_filterMap]
  congr 1
  funext c
  cases c <;> rfl

theorem last_of_none [DecidableEq T] {o : Observable} {d : T} (h : c.valueAt o d = none) :
    last (calls ++ [c]) o d = last calls o d := by
  unfold last
  rw [List.filterMap_append]
  simp [h]

theorem last_of_some [DecidableEq T] {o : Observable} {d : T} {value : Option V}
    (h : c.valueAt o d = some value) : last (calls ++ [c]) o d = value := by
  unfold last
  rw [List.filterMap_append]
  simp [h]

/-- There is no value without a call that gives it. -/
theorem last_eq_none [DecidableEq T] {o : Observable} {d : T} (h : ∀ c ∈ calls, c.valueAt o d = none) :
    last calls o d = none := by
  unfold last
  rw [List.filterMap_eq_nil_iff.mpr h]
  rfl

/-- The call that gives a value for an observable at a date. -/
theorem valueAt_eq_some [DecidableEq T] {o : Observable} {d : T} {value : Option V} :
    c.valueAt o d = some value ↔
      o.simulator ≠ "" ∧ c = .onValue o.simulator o.parent o.port d value := by
  cases c with
  | onNewObservable simulator parent port time => simp [Call.valueAt]
  | onDelObservable simulator parent port time => simp [Call.valueAt]
  | onValue simulator parent port time v =>
    obtain ⟨p, s, q⟩ := o
    simp only [Call.valueAt, Option.ite_none_right_eq_some, Option.some.injEq, Observable.mk.injEq,
      Call.onValue.injEq]
    constructor
    · rintro ⟨⟨hne, ⟨rfl, rfl, rfl⟩, rfl⟩, rfl⟩
      exact ⟨hne, rfl, rfl, rfl, rfl, rfl⟩
    · rintro ⟨hne, rfl, rfl, rfl, rfl, rfl⟩
      exact ⟨⟨hne, ⟨rfl, rfl, rfl⟩, rfl⟩, rfl⟩

/-- What comes before the first character of a kind. -/
theorem eq_of_append_cons {a : Char} {l l' r r' : List Char} (hl : a ∉ l) (hl' : a ∉ l')
    (h : l ++ a :: r = l' ++ a :: r') : l = l' ∧ r = r' := by
  have htake : ∀ {k : List Char}, a ∉ k → ∀ t, (k ++ a :: t).takeWhile (· ≠ a) = k := by
    intro k hk t
    have hpos : ∀ b ∈ k, decide (b ≠ a) = true := fun b hb => decide_eq_true fun heq => hk (heq ▸ hb)
    rw [List.takeWhile_append_of_pos hpos, List.takeWhile_cons_of_neg (by simp), List.append_nil]
  have heq : l = l' := by rw [← htake hl r, h, htake hl' r']
  subst heq
  have := List.append_cancel_left h
  exact ⟨rfl, List.tail_eq_of_cons_eq this⟩

/-- Different observables have different names. -/
theorem buildKey_inj {o o' : Observable} (h : ':' ∉ o.parent.toList ∧ '.' ∉ o.simulator.toList)
    (h' : ':' ∉ o'.parent.toList ∧ '.' ∉ o'.simulator.toList)
    (heq : buildKey o.parent o.simulator o.port = buildKey o'.parent o'.simulator o'.port) : o = o' := by
  obtain ⟨parent, simulator, port⟩ := o
  obtain ⟨parent', simulator', port'⟩ := o'
  have hlist := congrArg String.toList heq
  simp only [buildKey, String.toList_append, List.append_assoc] at hlist
  obtain ⟨hparent, hrest⟩ := eq_of_append_cons h.1 h'.1 hlist
  obtain ⟨hsimulator, hport⟩ := eq_of_append_cons h.2 h'.2 hrest
  obtain rfl : parent = parent' := String.toList_inj.mp hparent
  obtain rfl : simulator = simulator' := String.toList_inj.mp hsimulator
  obtain rfl : port = port' := String.toList_inj.mp hport
  rfl

end Lists

/-! ## Steps -/

section Steps

variable {header : StorageHeaderType} {steps : ℕ × ℕ} {calls : List (Call D (Value D))}
  {c : Call D (Value D)} {columns : List Observable} {rows : List D} {m m' : Matrix (Value D)} {s : Storage D} {memory}

/-- The rows of an observation are those after the header. -/
theorem top_le (header : StorageHeaderType) : top header ≤ 1 := by
  cases header <;> decide

theorem top_pos (h : header = .STORAGE_HEADER_TOP) : top header = 1 := by
  rw [h]
  rfl

theorem lt_of_getElem? {α : Type} {l : List α} {i : ℕ} {a : α} (h : l[i]? = some a) : i < l.length :=
  (List.getElem?_eq_some_iff.mp h).1

/-- An element of a list with one more. -/
theorem getElem?_concat_cases {α : Type} {l : List α} {i : ℕ} {a b : α} (h : (l ++ [a])[i]? = some b) :
    l[i]? = some b ∧ i < l.length ∨ i = l.length ∧ b = a := by
  rcases Nat.lt_or_ge i l.length with hlt | hge
  · rw [List.getElem?_append_left hlt] at h
    exact .inl ⟨h, hlt⟩
  · have hi := lt_of_getElem? h
    rw [List.length_append, List.length_singleton] at hi
    obtain rfl : i = l.length := by omega
    rw [List.getElem?_concat_length, Option.some.injEq] at h
    exact .inr ⟨rfl, h.symm⟩

/-- The cells of a matrix that grows by a column. -/
theorem Shows.addColumn (h : Shows header calls columns rows m)
    (hgrown : m.Grown m' (m.nbcol + 1) m.nbrow) {o : Observable}
    (hnone : ∀ c ∈ calls, ∀ d, c.valueAt o d = none) {m'' : Matrix (Value D)}
    (hsizes : m''.nbcol = m'.nbcol ∧ m''.nbrow = m'.nbrow)
    (hname : header = .STORAGE_HEADER_TOP → m''.cell m.nbcol 0 =
      some (some (.string (buildKey o.parent o.simulator o.port))))
    (happart : ∀ c r, c < m'.nbcol → r < m'.nbrow → ¬ (c = m.nbcol ∧ r < top header) →
      m''.cell c r = m'.cell c r) : Shows header calls (columns ++ [o]) rows m'' := by
  have hnbcol := h.nbcol
  have hnbrow := h.nbrow
  have hold : ∀ c r, c < m.nbcol → r < m.nbrow → m''.cell c r = m.cell c r := by
    intro c r hc hr
    rw [happart c r (by rw [hgrown.nbcol]; omega) (by rw [hgrown.nbrow]; omega) (by omega),
      hgrown.cell c r (by omega) hr, if_pos ⟨hc, hr⟩]
  have hnew : ∀ r, top header ≤ r → r < m.nbrow → m''.cell m.nbcol r = some none := by
    intro r htop hr
    rw [happart m.nbcol r (by rw [hgrown.nbcol]; omega) (by rw [hgrown.nbrow]; omega) (by omega),
      hgrown.cell m.nbcol r (by omega) hr, if_neg (by omega)]
  refine ⟨?_, ?_, fun htop => ?_, fun htop j o' hj => ?_, fun i d hi => ?_, fun i d j o' hi hj => ?_⟩
  · rw [hsizes.1, hgrown.nbcol, hnbcol, List.length_append, List.length_singleton]
  · rw [hsizes.2, hgrown.nbrow, hnbrow]
  · have := top_pos htop
    rw [hold 0 0 (by omega) (by omega)]
    exact h.time htop
  · have := top_pos htop
    rcases getElem?_concat_cases hj with ⟨hj, hlt⟩ | ⟨rfl, rfl⟩
    · rw [hold (j + 1) 0 (by omega) (by omega)]
      exact h.name htop j o' hj
    · rw [← hnbcol]
      exact hname htop
  · have hi' := lt_of_getElem? hi
    rw [hold 0 _ (by omega) (by omega)]
    exact h.date i d hi
  · have hi' := lt_of_getElem? hi
    rcases getElem?_concat_cases hj with ⟨hj, hlt⟩ | ⟨rfl, rfl⟩
    · rw [hold (j + 1) _ (by omega) (by omega)]
      exact h.value i d j o' hi hj
    · rw [← hnbcol, hnew _ (by omega) (by omega), last_eq_none fun c hc => hnone c hc d]

/-- The cells of a matrix that grows by a row. -/
theorem Shows.addRow (h : Shows header calls columns rows m)
    (hgrown : m.Grown m' m.nbcol (m.nbrow + 1)) {d : D} (hnone : ∀ c ∈ calls, ∀ o, c.valueAt o d = none)
    {m'' : Matrix (Value D)} (hput : m'.Put m'' 0 m.nbrow (some (.double d))) :
    Shows header calls columns (rows ++ [d]) m'' := by
  have hnbcol := h.nbcol
  have hnbrow := h.nbrow
  have hold : ∀ c r, c < m.nbcol → r < m.nbrow → m''.cell c r = m.cell c r := by
    intro c r hc hr
    rw [hput.apart c r (by rw [hgrown.nbcol]; omega) (by rw [hgrown.nbrow]; omega) (by omega),
      hgrown.cell c r hc (by omega), if_pos ⟨hc, hr⟩]
  refine ⟨?_, ?_, fun htop => ?_, fun htop j o hj => ?_, fun i d' hi => ?_, fun i d' j o hi hj => ?_⟩
  · rw [hput.nbcol, hgrown.nbcol, hnbcol]
  · rw [hput.nbrow, hgrown.nbrow, hnbrow, List.length_append, List.length_singleton, Nat.add_assoc]
  · have := top_pos htop
    rw [hold 0 0 (by omega) (by omega)]
    exact h.time htop
  · have := top_pos htop
    have hj' := lt_of_getElem? hj
    rw [hold (j + 1) 0 (by omega) (by omega)]
    exact h.name htop j o hj
  · rcases getElem?_concat_cases hi with ⟨hi, hlt⟩ | ⟨rfl, rfl⟩
    · rw [hold 0 _ (by omega) (by omega)]
      exact h.date i d' hi
    · rw [← hnbrow]
      exact hput.cell
  · have hj' := lt_of_getElem? hj
    rcases getElem?_concat_cases hi with ⟨hi, hlt⟩ | ⟨rfl, rfl⟩
    · rw [hold (j + 1) _ (by omega) (by omega)]
      exact h.value i d' j o hi hj
    · rw [← hnbrow, hput.apart (j + 1) _ (by rw [hgrown.nbcol]; omega) (by rw [hgrown.nbrow]; omega)
        (by omega), hgrown.cell (j + 1) _ (by omega) (by omega), if_neg (by omega),
        last_eq_none fun c hc => hnone c hc o]

/-- The cells of a matrix that gets a value in its last row. -/
theorem Shows.value_set (h : Shows header calls columns (rows ++ [d]) m) (hsorted : d ∉ rows)
    (hnodup : columns.Nodup) {o : Observable} {j : ℕ} (hj : columns[j]? = some o)
    {value : Option (Value D)}
    (hvalue : ∀ o' d', c.valueAt o' d' = if o' = o ∧ d' = d then some value else none)
    (hput : m.Put m' (j + 1) (m.nbrow - 1) value) :
    Shows header (calls ++ [c]) columns (rows ++ [d]) m' := by
  have hnbcol := h.nbcol
  have hnbrow := h.nbrow
  rw [List.length_append, List.length_singleton] at hnbrow
  have hjlt := lt_of_getElem? hj
  refine ⟨?_, ?_, fun htop => ?_, fun htop k o' hk => ?_, fun i d' hi => ?_, fun i d' k o' hi hk => ?_⟩
  · rw [hput.nbcol, hnbcol]
  · rw [hput.nbrow, h.nbrow]
  · have := top_pos htop
    rw [hput.apart 0 0 (by omega) (by omega) (by omega)]
    exact h.time htop
  · have := top_pos htop
    have hk' := lt_of_getElem? hk
    rw [hput.apart (k + 1) 0 (by omega) (by omega) (by omega)]
    exact h.name htop k o' hk
  · have hi' := lt_of_getElem? hi
    rw [List.length_append, List.length_singleton] at hi'
    rw [hput.apart 0 _ (by omega) (by omega) (by omega)]
    exact h.date i d' hi
  · have hi' := lt_of_getElem? hi
    rw [List.length_append, List.length_singleton] at hi'
    have hk' := lt_of_getElem? hk
    by_cases hsame : o' = o ∧ d' = d
    · obtain ⟨rfl, rfl⟩ := hsame
      -- the observable has one place, and the date too
      obtain rfl : k = j := (List.getElem?_inj hk' hnodup).mp (hk.trans hj.symm)
      rcases getElem?_concat_cases hi with ⟨hi, -⟩ | ⟨rfl, -⟩
      · exact absurd (List.mem_of_getElem? hi) hsorted
      · have hcell := hput.cell
        rw [hnbrow, Nat.add_sub_assoc (Nat.le_add_left 1 _), Nat.add_sub_cancel] at hcell
        rw [hcell, last_of_some ((hvalue o' d').trans (if_pos ⟨rfl, rfl⟩))]
    · rw [last_of_none ((hvalue o' d').trans (if_neg hsame)), hput.apart (k + 1) _ (by omega) (by omega)]
      · exact h.value i d' k o' hi hk
      · rintro ⟨hkj, hrow⟩
        obtain rfl : k = j := by omega
        obtain rfl : i = rows.length := by omega
        rw [hk, Option.some.injEq] at hj
        rw [List.getElem?_concat_length, Option.some.injEq] at hi
        exact hsame ⟨hj, hi.symm⟩

/-- A call that gives no value leaves what the matrix shows. -/
theorem Shows.of_none (h : Shows header calls columns rows m) (hnone : ∀ o d, c.valueAt o d = none) :
    Shows header (calls ++ [c]) columns rows m :=
  ⟨h.nbcol, h.nbrow, h.time, h.name, h.date, fun i d j o hi hj => by
    rw [last_of_none (hnone o d)]
    exact h.value i d j o hi hj⟩

/-- The values given are for observables that have been announced. -/
theorem announced_of_valueAt (hcalled : WellCalled calls) {o : Observable} {d : D}
    {value : Option (Value D)} (hmem : c ∈ calls) (h : c.valueAt o d = some value) :
    buildKey o.parent o.simulator o.port ∈ observables calls := by
  obtain ⟨hne, rfl⟩ := valueAt_eq_some.mp h
  obtain ⟨done, todo, rfl⟩ := List.append_of_mem hmem
  have hknown := hcalled.known done _ todo ⟨buildname o.parent o.simulator o.port, d, value⟩ rfl
    (by simp [Call.given, hne])
  unfold observables at hknown ⊢
  rw [List.filterMap_append]
  exact List.mem_append_left _ hknown

/-- A name that has been announced is in the map. -/
theorem Kept.mem_of_announced (h : Kept header steps calls rows s) {key : String}
    (hkey : key ∈ observables calls) : ∃ o ∈ announced calls,
      buildKey o.parent o.simulator o.port = key ∧ key ∈ s.m_colAccess := by
  rw [observables_eq] at hkey
  obtain ⟨o, ho, rfl⟩ := List.mem_map.mp hkey
  obtain ⟨j, hj⟩ := List.getElem?_of_mem ho
  exact ⟨o, ho, rfl, AList.lookup_isSome.mp (by rw [h.access j o hj]; rfl)⟩

/-- There are not more columns and rows than calls. -/
theorem Kept.sizes (h : Kept header steps calls rows s) :
    s.m_matrix.nbcol ≤ calls.length + 1 ∧ s.m_matrix.nbrow ≤ calls.length + 1 := by
  have hcolumns : (announced calls).length ≤ calls.length := List.length_filterMap_le _ _
  have hdates : (dates calls).length ≤ calls.length := List.length_filterMap_le _ _
  have hnodup : rows.Nodup := h.recorded.rows_sorted.imp fun hlt => hlt.ne
  have hrows := (hnodup.subperm fun d hd => (h.recorded.rows_mem d).mp hd).length_le
  have htop := top_le header
  rw [h.recorded.shows.nbcol, h.recorded.shows.nbrow]
  omega

/-- A matrix that cannot grow by a row or a column lacks memory. -/
theorem Kept.lacks (h : Kept header steps calls rows s) {columns rows' : ℕ}
    (hcolumns : columns ≤ s.m_matrix.nbcol + 1) (hrows : rows' ≤ s.m_matrix.nbrow + 1)
    (hlt : min memory maxSize < (columns + s.m_matrix.stepcol) * (rows' + s.m_matrix.steprow)) :
    Lacks memory steps (calls ++ [c]) := by
  have hsizes := h.sizes
  rw [h.steps.1, h.steps.2] at hlt
  refine hlt.trans_le (Nat.mul_le_mul ?_ ?_) <;> rw [List.length_append, List.length_singleton] <;> omega

omit [LinearOrder D] in
/-- More calls lack memory too. -/
theorem Lacks.append {todo : List (Call D (Value D))} (h : Lacks memory steps calls) :
    Lacks memory steps (calls ++ todo) := by
  refine lt_of_lt_of_le h (Nat.mul_le_mul ?_ ?_) <;> rw [List.length_append] <;> omega

variable (memory) in
/-- An observable that is announced gets a column. -/
theorem onNewObservable_run (h : Kept header steps calls rows s) (hcalled : WellCalled calls)
    {simulator parent port : String} {time : D} (hc : c = .onNewObservable simulator parent port time)
    (hmeets : s.Meets c) :
    (∃ what, s.call memory c = .error (.thrown what) ∧ Lacks memory steps (calls ++ [c])) ∨
    ∃ s', s.call memory c = .ok s' ∧ Kept header steps (calls ++ [c]) rows s' := by
  subst hc
  obtain ⟨hnew, hroom⟩ := hmeets
  obtain ⟨⟨hsorted, hrows, hnodup, -, hshows⟩, hgrowing, haccess, hlast, hheader, hsteps⟩ := id h
  have hnone : ∀ c ∈ calls, ∀ d, c.valueAt ⟨parent, simulator, port⟩ d = none := by
    intro c hmem d
    refine Option.eq_none_iff_forall_ne_some.mpr fun value hvalue => hnew ?_
    obtain ⟨-, -, -, hmem⟩ := h.mem_of_announced (announced_of_valueAt hcalled hmem hvalue)
    exact hmem
  have hannounced : announced (calls ++ [.onNewObservable simulator parent port time]) =
      announced calls ++ [⟨parent, simulator, port⟩] := announced_concat
  have hdates : dates (calls ++ [.onNewObservable simulator parent port time]) = dates calls := by
    rw [dates_concat]
    simp [Call.date]
  have hfresh : (⟨parent, simulator, port⟩ : Observable) ∉ announced calls := by
    intro hmem
    obtain ⟨j, hj⟩ := List.getElem?_of_mem hmem
    exact hnew (AList.lookup_isSome.mp (by rw [haccess j _ hj]; rfl))
  -- what the map and the rows are, whatever the header
  have hkept : ∀ m'', m''.Growing →
      m''.stepcol = s.m_matrix.stepcol ∧ m''.steprow = s.m_matrix.steprow →
      Shows header calls (announced calls ++ [⟨parent, simulator, port⟩]) rows m'' →
      Kept header steps (calls ++ [.onNewObservable simulator parent port time]) rows
        ⟨m'', s.m_colAccess.insert (buildKey parent simulator port) s.m_matrix.nbcol, s.m_time,
          s.m_headertype⟩ := by
    intro m'' hgrowing' hsteps' hshows'
    refine ⟨⟨hsorted, by rwa [hdates], ?_, fun _ => Iff.rfl, ?_⟩, hgrowing', fun j o hj => ?_, hlast,
      hheader, hsteps'.1.trans hsteps.1, hsteps'.2.trans hsteps.2⟩
    · rw [hannounced]
      exact List.nodup_append.mpr ⟨hnodup, List.nodup_singleton _, fun a ha b hb hab =>
        hfresh (by rwa [← List.mem_singleton.mp hb, ← hab])⟩
    · rw [hannounced]
      exact hshows'.of_none fun o d => rfl
    · rw [hannounced] at hj
      rcases getElem?_concat_cases hj with ⟨hj, -⟩ | ⟨rfl, rfl⟩
      · refine (AList.lookup_insert_ne fun heq => hnew ?_).trans (haccess j o hj)
        rw [← heq]
        exact AList.lookup_isSome.mp (by rw [haccess j o hj]; rfl)
      · rw [hshows.nbcol]
        exact AList.lookup_insert _
  rw [call, onNewObservable, if_neg hnew]
  rcases Matrix.addColumn_run memory hgrowing hroom with ⟨what, herror, hlt⟩ | ⟨m', hrun, hgrown⟩
  · rw [herror]
    exact .inl ⟨what, rfl, h.lacks le_rfl (Nat.le_succ _) hlt⟩
  · rw [hrun, hheader]
    simp only [Except.ok_bind]
    cases hh : header with
    | STORAGE_HEADER_NONE =>
      refine .inr ⟨_, rfl, ?_⟩
      have := hshows.addColumn hgrown hnone ⟨rfl, rfl⟩ (fun htop => by rw [hh] at htop; cases htop)
        fun c r _ _ _ => rfl
      have hk := hkept m' hgrown.growing ⟨hgrown.stepcol, hgrown.steprow⟩ this
      rw [hh, hheader, hh] at hk
      exact hk
    | STORAGE_HEADER_TOP =>
      have htop := top_pos hh
      have hnbrow := hshows.nbrow
      have hcolumn : s.m_matrix.nbcol < m'.nbcol := by rw [hgrown.nbcol]; omega
      have hrow : 0 < m'.nbrow := by rw [hgrown.nbrow]; omega
      obtain ⟨m'', hadd, hput⟩ := Matrix.add_run hgrown.growing hcolumn hrow
        (some (.string (buildKey parent simulator port)))
      have := hshows.addColumn hgrown hnone ⟨hput.nbcol, hput.nbrow⟩ (fun _ => hput.cell)
        fun c r hc hr hne => hput.apart c r hc hr (by omega)
      have hk := hkept m'' hput.growing
        ⟨hput.stepcol.trans hgrown.stepcol, hput.steprow.trans hgrown.steprow⟩ this
      rw [hh, hheader, hh] at hk
      simp only [hadd, Except.ok_bind]
      exact .inr ⟨_, rfl, hk⟩

variable (memory) in
/-- A date that comes has the last row. -/
theorem nextTime_run (h : Kept header steps calls rows s) (hcalled : WellCalled (calls ++ [c])) {time : D}
    (hdate : c.date = some time)
    (hroom : some time ≠ s.m_time → s.m_matrix.Room s.m_matrix.nbcol (s.m_matrix.nbrow + 1)) :
    (∃ what, s.nextTime memory time = .error (.thrown what) ∧ Lacks memory steps (calls ++ [c])) ∨
    ∃ m' rows', s.nextTime memory time = .ok { s with
        m_matrix := m'
        m_time := some time } ∧ m'.Growing ∧
      (m'.stepcol = s.m_matrix.stepcol ∧ m'.steprow = s.m_matrix.steprow) ∧
      Shows header calls (announced calls) (rows' ++ [time]) m' ∧
      (rows' ++ [time]).Pairwise (· < ·) ∧ ∀ d, d ∈ rows' ++ [time] ↔ d ∈ dates (calls ++ [c]) := by
  obtain ⟨⟨hsorted, hrows, -, -, hshows⟩, hgrowing, -, hlast, -⟩ := id h
  have hle : ∀ d ∈ rows, d ≤ time := fun d hd => hcalled.le_last ((hrows d).mp hd) hdate
  unfold nextTime
  by_cases hsame : some time = s.m_time
  · obtain ⟨rows', rfl⟩ := List.getLast?_eq_some_iff.mp (hlast.symm.trans hsame.symm)
    rw [if_neg (not_not.mpr hsame)]
    refine .inr ⟨s.m_matrix, rows', by rw [hsame], hgrowing, ⟨rfl, rfl⟩, hshows, hsorted, fun d => ?_⟩
    rw [hrows, dates_concat, hdate, List.mem_append]
    refine ⟨.inl, fun hd => hd.elim id fun hd => ?_⟩
    rw [List.mem_singleton.mp hd, ← hrows]
    exact List.mem_append_right _ (List.mem_singleton_self _)
  · -- the date is a later one
    have hlt : ∀ d ∈ rows, d < time := by
      intro d hd
      refine lt_of_le_of_ne (hle d hd) fun heq => hsame ?_
      subst heq
      obtain ⟨rows', l, rfl⟩ := (List.eq_nil_or_concat rows).resolve_left (List.ne_nil_of_mem hd)
      rw [hlast, List.concat_eq_append, List.getLast?_concat]
      rw [List.concat_eq_append] at hd hsorted hle
      -- a date that is not before it is the last one
      rcases List.mem_append.mp hd with hd | hd
      · have hbefore := (List.pairwise_append.mp hsorted).2.2 d hd l (List.mem_singleton_self _)
        exact absurd (hle l (List.mem_append_right _ (List.mem_singleton_self _))) (not_le.mpr hbefore)
      · rw [List.mem_singleton.mp hd]
    have hnone : ∀ c ∈ calls, ∀ o, c.valueAt o time = none := by
      intro c hmem o
      refine Option.eq_none_iff_forall_ne_some.mpr fun value hvalue => ?_
      obtain ⟨-, rfl⟩ := valueAt_eq_some.mp hvalue
      exact (hlt time ((hrows time).mpr (List.mem_filterMap.mpr ⟨_, hmem, rfl⟩))).false
    rw [if_pos hsame]
    unfold setLastTime
    rcases Matrix.addRow_run memory hgrowing (hroom hsame) with
      ⟨what, herror, hlt⟩ | ⟨m', hrun, hgrown⟩
    · refine .inl ⟨what, ?_, h.lacks (Nat.le_succ _) le_rfl hlt⟩
      simp only [herror, Except.error_bind]
    · have hwide := hshows.nbcol
      have hcolumn : 0 < m'.nbcol := by rw [hgrown.nbcol]; omega
      have hrow : s.m_matrix.nbrow < m'.nbrow := by rw [hgrown.nbrow]; omega
      obtain ⟨m'', hadd, hput⟩ := Matrix.add_run hgrown.growing hcolumn hrow (some (.double time))
      refine .inr ⟨m'', rows, ?_, hput.growing, ⟨hput.stepcol.trans hgrown.stepcol,
        hput.steprow.trans hgrown.steprow⟩, hshows.addRow hgrown hnone hput, ?_, fun d => ?_⟩
      · simp only [hrun, Except.ok_bind, hadd]
        rfl
      · exact List.pairwise_append.mpr ⟨hsorted, List.pairwise_singleton _ _, fun d hd e he =>
          (List.mem_singleton.mp he) ▸ hlt d hd⟩
      · rw [List.mem_append, hrows, dates_concat, hdate, List.mem_append]
        rfl

omit [LinearOrder D] in
/-- The names of the observables tell them apart. -/
theorem announced_of_observables {calls : List (Call D (Value D))} (hplain : ∀ c ∈ calls, c.Plain)
    {o : Observable} (ho : ':' ∉ o.parent.toList ∧ '.' ∉ o.simulator.toList)
    (hmem : buildKey o.parent o.simulator o.port ∈ observables calls) : o ∈ announced calls := by
  rw [observables_eq] at hmem
  obtain ⟨o', ho', heq⟩ := List.mem_map.mp hmem
  obtain ⟨c, hc, hannounced⟩ := List.mem_filterMap.mp ho'
  have hplain' : ':' ∉ o'.parent.toList ∧ '.' ∉ o'.simulator.toList := by
    have := hplain c hc
    cases c with
    | onNewObservable simulator parent port time =>
      cases hannounced
      exact this
    | onDelObservable simulator parent port time => cases hannounced
    | onValue simulator parent port time value => cases hannounced
  rwa [buildKey_inj ho hplain' heq.symm]

variable (memory) in
/-- A value is put at its place. -/
theorem onValue_run (h : Kept header steps calls rows s) (hcalled : WellCalled (calls ++ [c]))
    (hplain : ∀ c' ∈ calls ++ [c], c'.Plain) {simulator parent port : String} {time : D}
    {value : Option (Value D)} (hc : c = .onValue simulator parent port time value)
    (hmeets : s.Meets c) :
    (∃ what, s.call memory c = .error (.thrown what) ∧ Lacks memory steps (calls ++ [c])) ∨
    ∃ s' rows', s.call memory c = .ok s' ∧ Kept header steps (calls ++ [c]) rows' s' := by
  have hdate : c.date = some time := by rw [hc]; rfl
  have hroom : some time ≠ s.m_time → s.m_matrix.Room s.m_matrix.nbcol (s.m_matrix.nbrow + 1) := by
    rw [hc] at hmeets
    exact hmeets
  have hannounced : announced (calls ++ [c]) = announced calls := by
    rw [announced_concat, hc]
    exact List.append_nil _
  have hcall : s.call memory c = s.onValue memory simulator parent port time value := by rw [hc]; rfl
  rw [hcall, onValue]
  rcases nextTime_run memory h hcalled hdate hroom with
    ⟨what, herror, hlacks⟩ | ⟨m', rows', hrun, hgrowing, hsteps, hshows, hsorted, hmem⟩
  · rw [herror]
    exact .inl ⟨what, rfl, hlacks⟩
  rw [hrun]
  simp only [Except.ok_bind]
  have hkept : ∀ m'', m''.Growing →
      m''.stepcol = s.m_matrix.stepcol ∧ m''.steprow = s.m_matrix.steprow →
      Shows header (calls ++ [c]) (announced calls) (rows' ++ [time]) m'' →
      Kept header steps (calls ++ [c]) (rows' ++ [time])
        ⟨m'', s.m_colAccess, some time, s.m_headertype⟩ := by
    intro m'' hgrowing' hsteps' hshows'
    refine ⟨⟨hsorted, hmem, ?_, fun _ => Iff.rfl, ?_⟩, hgrowing', ?_, ?_, h.headertype,
      hsteps'.1.trans h.steps.1, hsteps'.2.trans h.steps.2⟩
    · rw [hannounced]
      exact h.recorded.columns_nodup
    · rwa [hannounced]
    · rw [hannounced]
      exact h.access
    · exact (List.getLast?_concat ..).symm
  by_cases hsimulator : simulator = ""
  · rw [if_neg (not_not.mpr hsimulator)]
    refine .inr ⟨_, _, rfl, hkept m' hgrowing hsteps (hshows.of_none fun o d => ?_)⟩
    rw [hc]
    exact if_neg fun hand => hand.1 hsimulator
  · rw [if_pos hsimulator]
    have hplainc : (':' ∉ parent.toList ∧ '.' ∉ simulator.toList) := by
      have := hplain c (by simp)
      rw [hc] at this
      exact this
    have hvalueAt : ∀ o d, c.valueAt o d =
        if o = ⟨parent, simulator, port⟩ ∧ d = time then some value else none := by
      intro o d
      rw [hc, Call.valueAt]
      refine if_congr ?_ rfl rfl
      exact ⟨fun hand => ⟨hand.2.1.symm, hand.2.2.symm⟩,
        fun hand => ⟨hsimulator, hand.1.symm, hand.2.symm⟩⟩
    have hobservable := hcalled.known calls c [] ⟨buildname parent simulator port, time, value⟩ rfl
      (by rw [hc]; simp [Call.given, hsimulator])
    have hcolumn : (⟨parent, simulator, port⟩ : Observable) ∈ announced calls :=
      announced_of_observables (fun c' hc' => hplain c' (List.mem_append_left _ hc')) hplainc hobservable
    obtain ⟨j, hj⟩ := List.getElem?_of_mem hcolumn
    have hjlt := lt_of_getElem? hj
    have hnbcol := hshows.nbcol
    have hnbrow := hshows.nbrow
    rw [List.length_append, List.length_singleton] at hnbrow
    have hcolumn : j + 1 < m'.nbcol := by omega
    have hrow : m'.nbrow - 1 < m'.nbrow := by omega
    obtain ⟨m'', hset, hput⟩ := Matrix.add_run hgrowing hcolumn hrow value
    have hlast : (m'.nbrow + sizeT - 1) % sizeT = m'.nbrow - 1 := by
      have hsmall : m'.nbrow < sizeT := by
        have hle := (Nat.le_mul_of_pos_left m'.nbrow (hgrowing.wide.trans_le
          (hgrowing.columns.resolve_right (by omega)))).trans
          ((Nat.mul_le_mul_left _ hgrowing.rows).trans (hgrowing.length ▸ hgrowing.small))
        exact hle.trans_lt Matrix.maxSize_lt
      rw [show m'.nbrow + sizeT - 1 = m'.nbrow - 1 + sizeT by omega, Nat.add_mod_right]
      exact Nat.mod_eq_of_lt (by omega)
    have hlookup := h.access j _ hj
    simp only at hlookup
    rw [hlookup]
    simp only [hlast]
    change m'.set (j + 1) (m'.nbrow - 1) value = .ok m'' at hset
    simp only [hset, Except.ok_bind]
    refine .inr ⟨_, _, rfl, hkept m'' hput.growing
      ⟨hput.stepcol.trans hsteps.1, hput.steprow.trans hsteps.2⟩ ?_⟩
    refine hshows.value_set ?_ h.recorded.columns_nodup hj hvalueAt hput
    exact fun hd => ((List.pairwise_append.mp hsorted).2.2 time hd time (List.mem_singleton_self _)).false

variable (memory) in
/-- A call keeps the invariant. -/
theorem call_run (h : Kept header steps calls rows s) (hcalled : WellCalled (calls ++ [c]))
    (hplain : ∀ c' ∈ calls ++ [c], c'.Plain) (hmeets : s.Meets c) :
    (∃ what, s.call memory c = .error (.thrown what) ∧ Lacks memory steps (calls ++ [c])) ∨
    ∃ s' rows', s.call memory c = .ok s' ∧ Kept header steps (calls ++ [c]) rows' s' := by
  cases hc : c with
  | onNewObservable simulator parent port time =>
    rcases onNewObservable_run memory h hcalled.of_append hc hmeets with herror | ⟨s', hrun, hkept⟩
    · exact .inl (hc ▸ herror)
    · exact .inr ⟨s', rows, hc ▸ hrun, hc ▸ hkept⟩
  | onDelObservable simulator parent port time =>
    obtain ⟨⟨hsorted, hrows, hnodup, -, hshows⟩, hgrowing, haccess, hlast, hheader, hsteps⟩ := h
    have hannounced : announced (calls ++ [.onDelObservable simulator parent port time]) = announced calls :=
      announced_concat.trans (List.append_nil _)
    have hdates : dates (calls ++ [.onDelObservable simulator parent port time]) = dates calls := by
      rw [dates_concat]
      exact List.append_nil _
    refine .inr ⟨s, rows, rfl, ⟨hsorted, by rwa [hdates], by rwa [hannounced], fun _ => Iff.rfl, ?_⟩,
      hgrowing, by rwa [hannounced], hlast, hheader, hsteps⟩
    rw [hannounced]
    exact hshows.of_none fun o d => rfl
  | onValue simulator parent port time value =>
    exact hc ▸ onValue_run memory h hcalled hplain hc hmeets

variable (memory) in
/-- A run keeps the invariant, or lacks memory. -/
theorem run_kept {todo : List (Call D (Value D))} (h : Kept header steps calls rows s)
    (hcalled : WellCalled (calls ++ todo)) (hplain : ∀ c ∈ calls ++ todo, c.Plain)
    (hmeets : Along (next memory) Meets s todo) :
    (∃ what, todo.foldlM (call memory) s = .error (.thrown what) ∧ Lacks memory steps (calls ++ todo)) ∨
    ∃ s' rows', todo.foldlM (call memory) s = .ok s' ∧ Kept header steps (calls ++ todo) rows' s' := by
  induction todo generalizing s calls rows with
  | nil =>
    rw [List.append_nil]
    exact .inr ⟨s, rows, rfl, h⟩
  | cons c todo ih =>
    have hsplit : calls ++ c :: todo = (calls ++ [c]) ++ todo := by
      rw [List.append_assoc, List.singleton_append]
    rw [hsplit] at hcalled hplain ⊢
    rw [List.foldlM_cons]
    rcases call_run memory h hcalled.of_append (fun c' hc' => hplain c' (List.mem_append_left _ hc')) hmeets.1
      with ⟨what, herror, hlacks⟩ | ⟨s', rows', hrun, hkept⟩
    · rw [herror]
      exact .inl ⟨what, rfl, hlacks.append⟩
    · rw [hrun]
      exact ih hkept hcalled hplain (hmeets.2 s' (by rw [next, hrun]; rfl))

/-- The matrix is ready when the parameters are well formed. -/
theorem onParameter_run (memory : ℕ) {parameters : Option (Value D)} {rzcolumns rzrows : ℤ}
    (hcolumns : increment parameters "inc_columns" = .ok rzcolumns)
    (hrows : increment parameters "inc_rows" = .ok rzrows) (hheader : Storage.header parameters = .ok header)
    (hpos : 0 < rzcolumns ∧ 0 < rzrows) (hint : rzcolumns < 2 ^ 31 ∧ rzrows < 2 ^ 31) :
    (∃ what, onParameter memory parameters = .error (.thrown what) ∧
      Lacks memory (rzcolumns.toNat, rzrows.toNat) ([] : List (Call D (Value D)))) ∨
    ∃ s, onParameter memory parameters = .ok s ∧ Kept header (rzcolumns.toNat, rzrows.toNat) [] [] s := by
  have hsize : ∀ {rz : ℤ}, 0 < rz → rz < 2 ^ 31 → toSize rz = rz.toNat := by
    intro rz h0 h1
    unfold toSize sizeT
    rw [Int.emod_eq_of_lt h0.le (by push_cast; omega)]
  have hproduct : rzcolumns.toNat * rzrows.toNat < sizeT := by
    have hc : rzcolumns.toNat ≤ 2 ^ 31 := by omega
    have hr : rzrows.toNat ≤ 2 ^ 31 := by omega
    exact (Nat.mul_le_mul hc hr).trans_lt (by decide)
  have hcolumn : 1 ≤ rzcolumns.toNat := by omega
  have hrow : 1 ≤ rzrows.toNat := by omega
  have hlacks : min memory maxSize < rzcolumns.toNat * rzrows.toNat →
      Lacks memory (rzcolumns.toNat, rzrows.toNat) ([] : List (Call D (Value D))) := fun hlt =>
    hlt.trans_le (Nat.mul_le_mul (Nat.le_add_left _ _) (Nat.le_add_left _ _))
  unfold onParameter
  rw [hcolumns, hrows, hheader, Except.map_ok, Except.map_ok, hsize hpos.1 hint.1, hsize hpos.2 hint.2]
  simp only [Except.ok_bind]
  cases header with
  | STORAGE_HEADER_NONE =>
    rcases Matrix.ofCapacities_run (α := Value D) memory Nat.one_pos hcolumn (Nat.zero_le _) hrow
      hproduct with ⟨what, herror, hlt⟩ | ⟨m, hrun, hgrowing, hnbcol, hnbrow, hstepcol, hsteprow⟩
    · rw [herror]
      exact .inl ⟨what, rfl, hlacks hlt⟩
    · rw [hrun]
      refine .inr ⟨_, rfl, ⟨⟨.nil, by simp [dates], .nil, fun _ => Iff.rfl, ?_⟩, hgrowing,
        by simp [announced], rfl, rfl, hstepcol, hsteprow⟩⟩
      refine ⟨hnbcol, hnbrow, nofun, nofun, by simp, by simp⟩
  | STORAGE_HEADER_TOP =>
    rcases Matrix.ofCapacities_run (α := Value D) memory Nat.one_pos hcolumn hrow hrow hproduct with
      ⟨what, herror, hlt⟩ | ⟨m, hrun, hgrowing, hnbcol, hnbrow, hstepcol, hsteprow⟩
    · rw [herror]
      exact .inl ⟨what, rfl, hlacks hlt⟩
    · have hfirst : 0 < m.nbcol := by omega
      have htop : 0 < m.nbrow := by omega
      obtain ⟨m', hadd, hput⟩ := Matrix.add_run hgrowing hfirst htop (some (.string "time"))
      rw [hrun]
      simp only [Except.ok_bind, hadd]
      refine .inr ⟨_, rfl, ⟨⟨.nil, by simp [dates], .nil, fun _ => Iff.rfl, ?_⟩, hput.growing,
        by simp [announced], rfl, rfl, hput.stepcol.trans hstepcol, hput.steprow.trans hsteprow⟩⟩
      refine ⟨hput.nbcol.trans hnbcol, hput.nbrow.trans hnbrow, fun _ => hput.cell, ?_, by simp, by simp⟩
      intro _ j o hj
      cases hj

end Steps

/-- The matrix returned holds the observations, one row for each date and one column for each observable,
when the observables announced are new ones and the sizes of the matrix do not wrap around. Only a lack
of memory stops the plug-in. -/
theorem recorded_of_meets (memory : ℕ) {parameters : Option (Value D)} {rzcolumns rzrows : ℤ}
    {headertype : StorageHeaderType} (hcolumns : increment parameters "inc_columns" = .ok rzcolumns)
    (hrows : increment parameters "inc_rows" = .ok rzrows) (hheader : header parameters = .ok headertype)
    (hpos : 0 < rzcolumns ∧ 0 < rzrows) (hint : rzcolumns < 2 ^ 31 ∧ rzrows < 2 ^ 31)
    {calls : List (Call D (Value D))} (hcalled : WellCalled calls) (hplain : ∀ c ∈ calls, c.Plain)
    (hmeets : ∀ s, onParameter memory parameters = .ok s → Along (next memory) Meets s calls) :
    (∃ what, finish memory parameters calls = .error (.thrown what) ∧
      Lacks memory (rzcolumns.toNat, rzrows.toNat) calls) ∨
    ∃ m columns rows, finish memory parameters calls = .ok m ∧ Recorded headertype calls columns rows m := by
  unfold finish
  rcases onParameter_run memory hcolumns hrows hheader hpos hint with
    ⟨what, herror, hlacks⟩ | ⟨s, hstart, hkept⟩
  · rw [herror]
    exact .inl ⟨what, rfl, hlacks.append⟩
  · rw [hstart, Except.ok_bind]
    rcases run_kept memory hkept hcalled hplain (hmeets s hstart) with
      ⟨what, herror, hlacks⟩ | ⟨s', rows', hrun, hkept'⟩
    · rw [herror]
      exact .inl ⟨what, rfl, hlacks⟩
    · rw [hrun]
      exact .inr ⟨_, _, rows', rfl, hkept'.recorded⟩

/-- Parameters with small increments, and a header. -/
def smallParameters : Option (Value ℤ) :=
  some (.map [("header", some (.string "top")), ("inc_columns", some (.integer 2)),
    ("inc_rows", some (.integer 2))])

/-- A model that is observed, deleted, and created again under its name. -/
def againCalls : List (Call ℤ (Value ℤ)) :=
  [.onNewObservable "A" "P" "x" 0, .onValue "A" "P" "x" 0 (some (.integer 5)),
    .onDelObservable "A" "P" "x" 1, .onNewObservable "A" "P" "x" 1]

theorem wellCalled_again : WellCalled againCalls := by
  refine ⟨by decide, fun done c todo g hcalls hg => ?_⟩
  have hmem : (c, done.length) ∈ againCalls.zipIdx := by
    rw [hcalls, List.zipIdx_append, List.zipIdx_cons]
    simp
  simp only [againCalls, List.zipIdx_cons, List.zipIdx_nil, List.mem_cons, Prod.mk.injEq,
    List.not_mem_nil, or_false] at hmem
  rcases hmem with ⟨rfl, hd⟩ | ⟨rfl, hd⟩ | ⟨rfl, hd⟩ | ⟨rfl, hd⟩
  · cases hg
  · obtain ⟨b, rfl⟩ := List.length_eq_one_iff.mp hd
    cases hcalls
    cases hg
    decide
  · cases hg
  · cases hg

theorem plain_again : ∀ c ∈ againCalls, c.Plain := by
  simp [againCalls, Call.Plain]

/-- The model before it is created again. -/
theorem recorded_of_meets_first :
    (∃ what, finish 100 smallParameters (againCalls.take 3) = .error (.thrown what) ∧
      Lacks 100 (2, 2) (againCalls.take 3)) ∨
    ∃ m columns rows, finish 100 smallParameters (againCalls.take 3) = .ok m ∧
      Recorded .STORAGE_HEADER_TOP (againCalls.take 3) columns rows m := by
  have hcolumns : increment smallParameters "inc_columns" = .ok 2 := rfl
  have hrows : increment smallParameters "inc_rows" = .ok 2 := rfl
  refine recorded_of_meets 100 hcolumns hrows rfl (by decide) (by decide)
    (show WellCalled (againCalls.take 3 ++ againCalls.drop 3) from wellCalled_again).of_append
    (fun c hc => plain_again c (List.mem_of_mem_take hc)) fun s hs => ?_
  cases hs
  refine ⟨⟨by decide, ?_⟩, fun s hs => ?_⟩
  · unfold Matrix.Room sizeT
    decide
  cases hs
  refine ⟨fun _ => ?_, fun s hs => ⟨trivial, fun s hs => trivial⟩⟩
  unfold Matrix.Room sizeT
  decide

/-- The model that is created again gets a second column. -/
theorem not_recorded_again :
    ¬ ∀ calls : List (Call ℤ (Value ℤ)), WellCalled calls → (∀ c ∈ calls, c.Plain) → ∀ m,
      finish 100 smallParameters calls = .ok m →
      ∃ columns rows, Recorded .STORAGE_HEADER_TOP calls columns rows m := by
  intro h
  have hrun : (finish 100 smallParameters againCalls).toOption.map (fun m => m.nbcol) = some 3 := by
    rfl
  obtain ⟨m, hm, hnbcol⟩ := Option.map_eq_some_iff.mp hrun
  cases hfinish : finish 100 smallParameters againCalls with
  | error e =>
    rw [hfinish] at hm
    cases hm
  | ok m' =>
    rw [hfinish] at hm
    cases hm
    obtain ⟨columns, rows, hrecorded⟩ := h againCalls wellCalled_again plain_again m hfinish
    have hsubset : columns ⊆ [⟨"P", "A", "x"⟩] := by
      intro o ho
      have hmem := (hrecorded.columns_mem o).mp ho
      have hannounced : announced againCalls = [⟨"P", "A", "x"⟩, ⟨"P", "A", "x"⟩] := rfl
      rw [hannounced] at hmem
      simpa using hmem
    have hle := (hrecorded.columns_nodup.subperm hsubset).length_le
    have hlength := hrecorded.shows.nbcol
    rw [List.length_singleton] at hle
    omega

end Storage

end Vle.Oov
