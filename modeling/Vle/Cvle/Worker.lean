import Vle.Lib.Except
import Vle.Value.Place
import Vle.Vpz.Condition
import Vle.Lib.InPlace
import Mathlib.Data.List.SplitOn

/-!
# The worker of cvle

A `Worker` simulates one experiment for each row of a block. In the column form the header names values of
the conditions, and each field of a row is written at the place of its column. In the record form a row
is an experiment of its own, whose conditions replace those of the worker until the row is simulated.

The conditions are changed in place from row to row. What the streams of the language read is a
parameter, with the parser of the records.
-/

namespace Vle.Cvle

open Lib Vpz

variable {D : Type}

/-- How a worker fails. -/
inductive Failure where
  | fault (f : Fault)
  | assertion
  deriving DecidableEq, Repr

/-- An exception. -/
def thrown (what : String) : Failure := .fault (.thrown what)

/-- What `operator>>` reads from a text, and the parser of an experiment. -/
structure Readers (D : Type) where
  boolean : String → Option Bool
  integer : String → Option ℤ
  double : String → Option D
  parseMemory : String → Except Failure (Conditions D)

/-- `boost::algorithm::split` with one separator. -/
def split (separator : Char) (str : String) : List String :=
  (str.toList.splitOn separator).map String.ofList

def cleanup_token (str : String) : String :=
  if 2 ≤ str.toList.length ∧ str.toList.head? = some '"' ∧ str.toList.getLast? = some '"' then
    String.ofList str.toList.tail.dropLast
  else str

/-- The place of a value in the conditions. -/
structure Location where
  condition : String
  port : String
  path : List ℕ
  deriving DecidableEq, Repr

namespace Location

/-- The value at a place. -/
def read (conds : Conditions D) (l : Location) : Option (Value D) :=
  (conds.port l.condition l.port).join.bind fun v => v.valueAt l.path

/-- The conditions with a value at a place. -/
def write (l : Location) (u : Value D) (conds : Conditions D) : Conditions D :=
  changeAt l.condition (fun c => { c with
    list := changeAt l.port (Option.map fun v => Value.putAt u v l.path) c.list }) conds

end Location

/-! ## `Access` -/

/-- `Access`. -/
structure Access where
  condition : String
  port : String
  params : List String
  deriving DecidableEq, Repr

namespace Access

/-- The constructor. -/
def ofString (str : String) : Except Failure Access :=
  let access : Access := match split '.' str with
    | [] => ⟨str, "", []⟩
    | [condition] => ⟨condition, "", []⟩
    | condition :: port :: params => ⟨condition, port, params⟩
  if access.condition = "" then .error .assertion else .ok access

def is_undefined_string (access : Access) : Bool := access.port = ""

/-- The white space that `strtol` leaves out. -/
def isSpace (c : Char) : Bool := c ∈ [' ', '\t', '\n', '\x0b', '\x0c', '\r']

/-- `strtol` in base 10: none when it sets `errno`. -/
def strtol (str : String) : Option ℤ :=
  let text := str.toList.dropWhile isSpace
  let digits := match text with
    | '-' :: l => l
    | '+' :: l => l
    | l => l
  let n : ℤ := (digits.takeWhile Char.isDigit).foldl (fun n c => 10 * n + (c.toNat - '0'.toNat : ℕ)) 0
  let val := if text.head? = some '-' then -n else n
  if -2 ^ 63 ≤ val ∧ val < 2 ^ 63 then some val else none

/-- The position of a parameter in a value. -/
def position (access : Access) (i : ℕ) (param : String) (current : Value D) : Except Failure ℕ :=
  match current with
  | .set s =>
    match strtol param with
    | some val =>
      if 0 ≤ val ∧ val < s.length then .ok val.toNat
      else .error (thrown s!"Fails to convert '{access.condition}.{access.port}' parameter '{i}' as correct set index")
    | none =>
      .error (thrown s!"Fails to convert '{access.condition}.{access.port}' parameter '{i}' as correct set index")
  | .map m =>
    match m.findIdx? fun e => e.1 = param with
    | some k => .ok k
    | none =>
      .error (thrown s!"Fails to convert '{access.condition}.{access.port}' parameter '{i}' as correct map index")
  | _ => .error (thrown s!"Fails to convert '{access.condition}.{access.port}' parameter '{i}' as correct map index")

/-- The loop over the parameters from one on, with the way that it goes. -/
def browse (access : Access) : ℕ → List String → Value D → Except Failure (List ℕ × Value D)
  | _, [], current => .ok ([], current)
  | i, param :: params, current => do
    let k ← access.position i param current
    match current.child k with
    | some u => do
      let (path, value) ← browse access (i + 1) params u
      return (k :: path, value)
    | none => throw (thrown s!"Fails to convert '{access.condition}'")

/-- `value`: the place that the pointer is to, and what it points to. -/
def value (access : Access) (vpz : Conditions D) : Except Failure (Location × Value D) :=
  match vpz.lookup access.condition with
  | none => .error (.fault (Conditions.missing access.condition))
  | some cnd =>
    match cnd.list.lookup access.port with
    | none => .error (thrown s!"Condition {cnd.name} have no port {access.port}")
    | some none => .error (.fault .null)
    | some (some elem) => do
      let (path, value) ← access.browse 0 access.params elem
      return (⟨access.condition, access.port, path⟩, value)

end Access

/-! ## `Columns` -/

/-- A column: a text to keep, or a place with a clone of the value there. -/
inductive Column (D : Type) where
  | keep (str : String)
  | value (default_value : Value D) (place : Location)

/-- The columns, in the order of the header. -/
abbrev Columns (D : Type) := List (Column D)

namespace Columns

/-- The columns that are kept, or the others. -/
def ofKind (keep : Bool) (columns : Columns D) : Columns D :=
  columns.filter fun c => match c with
    | .keep _ => keep
    | .value _ _ => !keep

/-- `add`, with the check of the number of columns of a kind. -/
def add (columns : Columns D) (c : Column D) (keep : Bool) : Except Failure (Columns D) :=
  if 2 ^ 31 ≤ (ofKind keep (columns ++ [c])).length then .error (thrown "Too many column")
  else .ok (columns ++ [c])

/-- `vle::utils::to`. -/
def utilsTo {α : Type} (read : String → Option α) (str : String) : Except Failure α :=
  match read str with
  | some a => .ok a
  | none => .error (thrown s!"Can not convert '{str}'")

/-- The value that a field stands for in a column, if it stands for one. -/
def field (R : Readers D) (default_value : Value D) (str : String) : Except Failure (Option (Value D)) :=
  match default_value with
  | .boolean b => if str = "" then .ok (some (.boolean b)) else do
    let b ← utilsTo R.boolean str
    return some (.boolean b)
  | .integer i => if str = "" then .ok (some (.integer i)) else do
    let i ← utilsTo R.integer str
    return some (.integer i)
  | .double d => if str = "" then .ok (some (.double d)) else do
    let d ← utilsTo R.double str
    return some (.double d)
  | .string s => if str = "" then .ok (some (.string s)) else .ok (some (.string str))
  | _ => .ok none

/-- Two values are of one class that a text stands for. -/
def sameKind : Value D → Value D → Bool
  | .boolean _, .boolean _ => true
  | .integer _, .integer _ => true
  | .double _, .double _ => true
  | .string _, .string _ => true
  | _, _ => false

/-- An assignment through the pointer of a column. The cast is to the class of the value that is
assigned. -/
def assign (place : Location) (u : Value D) (vpz : Conditions D) : Except Failure (Conditions D) :=
  match place.read vpz with
  | some w => if sameKind w u then .ok (place.write u vpz) else .error (thrown "bad cast")
  | none => .error (.fault .null)

/-- `update`. -/
def update (R : Readers D) (s : Conditions D × Columns D) (i : ℕ) (str : String) :
    Except Failure (Conditions D × Columns D) :=
  match s.2[i]? with
  | none => .error .assertion
  | some (.keep _) => .ok (s.1, s.2.set i (.keep str))
  | some (.value default_value place) => do
    match ← field R default_value str with
    | some u => do
      let vpz ← assign place u s.1
      return (vpz, s.2)
    | none => return s

end Columns

/-! ## `ConditionsBackup` -/

namespace ConditionsBackup

/-- Whether a record changes the condition of the simulation engine. -/
def modifEngine (other : Conditions D) : Bool :=
  match other.port "_cvle_cond" "has_simulation_engine" with
  | some (some (.boolean b)) => b
  | _ => false

/-- The ports of a condition of a record. -/
def setPorts (c : Condition D) (ports : AList fun _ : String => Option (Value D)) :
    Except Failure (Condition D) :=
  ports.entries.foldlM (fun c port =>
    match port.2 with
    | some v => .ok ((c.del port.1).setValueToPort port.1 v)
    | none => .error (thrown "No value")) c

/-- A condition of a record is one that `modify` takes. -/
def taken (modif_engine : Bool) (name : String) : Bool :=
  name ≠ "_cvle_cond" ∧ (name ≠ Conditions.defaultSimulationEngineCondName ∨ modif_engine)

def modify (mconds toupdate other : Conditions D) : Except Failure (Conditions D) :=
  other.entries.foldlM (fun toup_conds cond =>
    if taken (modifEngine other) cond.1 then
      if cond.1 ∈ mconds then
        match toup_conds.lookup cond.1 with
        | some toup_cond => do
          let toup_cond ← setPorts toup_cond cond.2.list
          return toup_conds.insert cond.1 toup_cond
        | none => .error (.fault (Conditions.missing cond.1))
      else .error (thrown "Unknown condition")
    else .ok toup_conds) toupdate

def restoreBackup (mconds toupdate other : Conditions D) : Except Failure (Conditions D) :=
  other.entries.foldlM (fun toup_conds cond =>
    if cond.1 ≠ "_cvle_cond" then
      match mconds.lookup cond.1 with
      | some c => .ok ((toup_conds.del cond.1).add c)
      | none => .error (thrown "Unknown condition")
    else .ok toup_conds) toupdate

end ConditionsBackup

/-! ## `Worker` -/

/-- What `init` gives a worker: the columns, or the backup of the conditions. -/
inductive Form (D : Type) where
  | columns (m_columns : Columns D)
  | conditions (mconds : Conditions D)

/-- `Worker`, of which the experiment is its conditions. -/
structure Worker (D : Type) where
  m_vpz : Conditions D
  form : Form D

namespace Worker

/-- A column of the header. -/
def initColumn (vpz : Conditions D) (columns : Columns D) (token : String) : Except Failure (Columns D) := do
  let access ← Access.ofString (cleanup_token token)
  if access.is_undefined_string then columns.add (.keep access.condition) true
  else do
    let (place, v) ← access.value vpz
    columns.add (.value v place) false

def init (vpz : Conditions D) (header : String) : Except Failure (Worker D) :=
  if header = "_cvle_complex_values" then .ok ⟨vpz, .conditions vpz⟩
  else do
    let columns ← (split ',' header).foldlM (initColumn vpz) []
    return ⟨vpz, .columns columns⟩

/-- The fields of a row, from a column on. -/
def updates (R : Readers D) : ℕ → List String → Conditions D × Columns D →
    Except Failure (Conditions D × Columns D)
  | _, [], s => .ok s
  | i, token :: output, s => do
    let s ← Columns.update R s i (cleanup_token token)
    updates R (i + 1) output s

/-- A row of `run`: the conditions with which it is simulated, and the worker after it. -/
def runRow (R : Readers D) (w : Worker D) (buffer : String) : Except Failure (Conditions D × Worker D) :=
  match w.form with
  | .columns m_columns => do
    let (vpz, columns) ← updates R 0 (split ',' buffer) (w.m_vpz, m_columns)
    return (vpz, ⟨vpz, .columns columns⟩)
  | .conditions mconds => do
    let conds ← R.parseMemory buffer
    let vpz ← ConditionsBackup.modify mconds w.m_vpz conds
    let restored ← ConditionsBackup.restoreBackup mconds vpz conds
    return (vpz, ⟨restored, .conditions mconds⟩)

end Worker

end Vle.Cvle
