import Mathlib.Tactic

/-!
# Values

The values that the conditions of a model and the plans hold, over a type of doubles. What an access
does when it fails is a `Fault`: an exception, or what the language leaves undefined.
-/

namespace Vle

/-- How an access fails: an exception with its text, a read past the end of a vector, and an access
through a null pointer. -/
inductive Fault where
  | thrown (what : String)
  | outOfRange
  | null
  deriving DecidableEq, Repr

/-- The sizes of a `Matrix`, those of its buffer, and the steps by which the buffer grows. -/
structure MatrixSize where
  columns : ℕ
  rows : ℕ
  columnsMax : ℕ
  rowsMax : ℕ
  stepColumns : ℕ
  stepRows : ℕ
  deriving DecidableEq, Repr

/-- The classes derived from `vle::value::Value`, but for `User`. A pointer in a container may be null.
A `Map` lists its keys in the order in which an iteration meets them. -/
inductive Value (D : Type) where
  | boolean (value : Bool)
  | integer (value : ℤ)
  | double (value : D)
  | string (value : String)
  | set (value : List (Option (Value D)))
  | map (value : List (String × Option (Value D)))
  | tuple (value : List D)
  | table (width height : ℕ) (value : List D)
  | xml (value : String)
  | null
  | matrix (size : MatrixSize) (value : List (Option (Value D)))

namespace Value

variable {D : Type}

/-- `Set::get`, which checks the index. -/
def setGet (s : List (Option (Value D))) (i : ℕ) : Except Fault (Option (Value D)) :=
  if h : i < s.length then
    .ok s[i]
  else
    .error (.thrown s!"Set: too big index '{i}' (max {s.length})")

/-- `Tuple::at`, whose check lets the size through. -/
def tupleAt (t : List D) (i : ℕ) : Except Fault D :=
  if t.length < i then
    .error (.thrown s!"Tuple: bad accessor {i}")
  else
    match t[i]? with
    | some d => .ok d
    | none => .error .outOfRange

/-- What a pointer points to. -/
def deref (p : Option (Value D)) : Except Fault (Value D) :=
  match p with
  | some v => .ok v
  | none => .error .null

/-- `Map::exist`. -/
def mapExist (m : List (String × Option (Value D))) (name : String) : Bool :=
  (m.lookup name).isSome

/-- `Map::get`. -/
def mapGet (m : List (String × Option (Value D))) (name : String) :
    Except Fault (Option (Value D)) :=
  match m.lookup name with
  | some p => .ok p
  | none => .error (.thrown s!"Map: the key '{name}' does not exist")

/-- A read in a `Set` succeeds exactly within its size. -/
theorem setGet_eq_ok {s : List (Option (Value D))} {i : ℕ} {p : Option (Value D)} :
    setGet s i = .ok p ↔ s[i]? = some p := by
  unfold setGet
  split_ifs with h
  · simp [List.getElem?_eq_getElem h]
  · simp [List.getElem?_eq_none (not_lt.mp h)]

/-- A read in a `Tuple` succeeds exactly within its size. -/
theorem tupleAt_eq_ok {t : List D} {i : ℕ} {d : D} : tupleAt t i = .ok d ↔ t[i]? = some d := by
  unfold tupleAt
  split_ifs with h
  · simp [List.getElem?_eq_none h.le]
  · cases t[i]? <;> simp

end Value

end Vle
