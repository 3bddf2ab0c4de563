import Vle.Lib.Runs
import Vle.Lib.Storage
import Vle.Lib.Grid
import Vle.Value.Matrix

/-!
# Two-dimensional arrays

`utils::Array` keeps its elements row after row in a vector, with the numbers of rows and columns
beside it. What an array says is its `Plane`: the element at each pair of coordinates. The operations
on planes are what the functions should do, and the arrays of a program go with the planes exactly as
long as no element is set by move or emplaced, since these insert instead of assigning, nothing is
moved from, and the sizes fit (`shows_iff`).
-/

namespace Vle.Utils

open Vle.Lib Vle.Lib.Storage

/-- `utils::Array`. -/
structure Array2 (T : Type) where
  container : List T
  rows : ℕ
  columns : ℕ
  deriving DecidableEq, Repr

namespace Array2

variable {T : Type} [Inhabited T]

/-! ## The code -/

/-- A vector of `size` values, which the memory may be enough for or not. -/
def vector (memory size : ℕ) (value : T) : Except Fault (List T) :=
  if memory < size then .error (.thrown "std::bad_alloc") else .ok (List.replicate size value)

/-- The place of an element in the vector. -/
def position (columns column row : ℕ) : ℕ := Grid.place sizeT columns column row

/-- The coordinates that a loop over the rows with one over the columns in it meets. -/
def coordinates (columns rows : ℕ) : List (ℕ × ℕ) :=
  (List.range rows).flatMap fun r => (List.range columns).map fun c => (c, r)

/-- `Array()`. -/
def create : Array2 T := ⟨[], 0, 0⟩

/-- `Array(columns, rows, value)`, and `Array(columns, rows)` with the value by default. -/
def ofSizes (memory columns rows : ℕ) (value : T) : Except Fault (Array2 T) := do
  let container ← vector memory (rows * columns % sizeT) value
  return ⟨container, rows, columns⟩

/-- `Array(q)`. -/
def copy (memory : ℕ) (q : Array2 T) : Except Fault (Array2 T) :=
  if memory < q.container.length then .error (.thrown "std::bad_alloc") else .ok q

/-- `resize(cols, rows)`. -/
def resize (memory : ℕ) (a : Array2 T) (cols rows : ℕ) : Except Fault (Array2 T) := do
  let container ← vector memory (rows * cols % sizeT) default
  let rmin := min rows a.rows
  let cmin := min cols a.columns
  let container ← copyAll .outOfRange ((coordinates cmin rmin).map fun (c, r) =>
    (position a.columns c r, position cols c r)) a.container container
  return ⟨container, rows, cols⟩

/-- `resize(cols, rows, value)`: whatever the vector keeps is written over. -/
def resizeFilled (memory : ℕ) (_ : Array2 T) (cols rows : ℕ) (value : T) : Except Fault (Array2 T) := do
  let container ← vector memory (rows * cols % sizeT) value
  return ⟨container, rows, cols⟩

/-- `m_check_index`. -/
def checkIndex (a : Array2 T) (column row : ℕ) : Except Fault Unit :=
  if a.columns ≤ column ∨ a.rows ≤ row then .error (.thrown "Array: bad access") else .ok ()

/-- How an element is passed to `set`. -/
inductive Pass where
  | copy
  | move
  deriving DecidableEq, Repr

/-- `emplace`, which puts an element into the vector before the one at the coordinates. It is taken to
find the memory for it. -/
def emplace (a : Array2 T) (column row : ℕ) (x : T) : Except Fault (Array2 T) := do
  a.checkIndex column row
  let i := position a.columns column row
  if a.container.length < i then
    .error .outOfRange
  else
    return { a with container := a.container.insertIdx i x }

/-- The two `set`s. -/
def set (pass : Pass) (a : Array2 T) (column row : ℕ) (x : T) : Except Fault (Array2 T) :=
  match pass with
  | .copy => do
    a.checkIndex column row
    let container ← write .outOfRange a.container (position a.columns column row) x
    return { a with container := container }
  | .move => do
    a.checkIndex column row
    let i := position a.columns column row
    if a.container.length < i then
      .error .outOfRange
    else
      return { a with container := a.container.insertIdx i x }

/-- `operator()`. -/
def read (a : Array2 T) (column row : ℕ) : Except Fault T := do
  a.checkIndex column row
  Storage.read .outOfRange a.container (position a.columns column row)

/-- The loops of `assign`, with the element that `first` is at and those after it. -/
def assignLoop (pass : Pass) : List (ℕ × ℕ) → T → List T → Array2 T → Except Fault (Array2 T)
  | [], _, _, a => .ok a
  | (c, r) :: rest, x, xs, a => do
    let a ← set pass a c r x
    match xs with
    | [] => return a
    | y :: ys => assignLoop pass rest y ys a

/-- `assign` of a range with a first element. The elements are passed on to `set` as the iterators of
the range give them. -/
def assign (pass : Pass) (a : Array2 T) (first : T) (rest : List T) : Except Fault (Array2 T) :=
  assignLoop pass (coordinates a.columns a.rows) first rest a

/-! ## Programs -/

/-- The arrays of a program, by the numbers of the variables. -/
abbrev State (T : Type) := ℕ → Array2 T

/-- The calls on the arrays, with the variables that they are about. A construction gives its variable
a new array. -/
inductive Op (T : Type) where
  | create (i : ℕ)
  | ofSizes (i columns rows : ℕ) (value : T)
  | copy (i q : ℕ)
  | move (i q : ℕ)
  | resize (i cols rows : ℕ)
  | resizeFilled (i cols rows : ℕ) (value : T)
  | swap (i c : ℕ)
  | assign (i : ℕ) (pass : Pass) (first : T) (rest : List T)
  | set (i : ℕ) (pass : Pass) (column row : ℕ) (x : T)
  | emplace (i column row : ℕ) (x : T)
  | read (i column row : ℕ)

open Function (update)

/-- A call: the arrays after it, and the element that it returns. -/
def run (memory : ℕ) (s : State T) : Op T → Except Fault (State T × Option T)
  | .create i => return (update s i create, none)
  | .ofSizes i columns rows value => do
    let a ← ofSizes memory columns rows value
    return (update s i a, none)
  | .copy i q => do
    let a ← copy memory (s q)
    return (update s i a, none)
  | .move i q => return (update (update s q { s q with container := [] }) i (s q), none)
  | .resize i cols rows => do
    let a ← resize memory (s i) cols rows
    return (update s i a, none)
  | .resizeFilled i cols rows value => do
    let a ← resizeFilled memory (s i) cols rows value
    return (update s i a, none)
  | .swap i c => return (update (update s i (s c)) c (s i), none)
  | .assign i pass first rest => do
    let a ← assign pass (s i) first rest
    return (update s i a, none)
  | .set i pass column row x => do
    let a ← set pass (s i) column row x
    return (update s i a, none)
  | .emplace i column row x => do
    let a ← emplace (s i) column row x
    return (update s i a, none)
  | .read i column row => do
    let x ← read (s i) column row
    return (s, some x)

/-- The arrays after a call. An exception leaves them as they are; after anything else that fails there
are none. -/
def next (memory : ℕ) (s : State T) (op : Op T) : Option (State T) :=
  match run memory s op with
  | .ok (s', _) => some s'
  | .error (.thrown _) => some s
  | .error _ => none

/-! ## What the arrays should do -/

/-- An array as the elements at its coordinates. -/
structure Plane (T : Type) where
  columns : ℕ
  rows : ℕ
  element : ℕ → ℕ → T

namespace Plane

/-- A plane of one value. -/
def filled (columns rows : ℕ) (value : T) : Plane T := ⟨columns, rows, fun _ _ => value⟩

/-- The elements of the common rectangle stay at their coordinates. -/
def resize (p : Plane T) (columns rows : ℕ) : Plane T where
  columns := columns
  rows := rows
  element c r := if c < p.columns ∧ r < p.rows then p.element c r else default

/-- The first elements in the order of the rows, as many as there are. -/
def assign (p : Plane T) (xs : List T) : Plane T :=
  { p with element := fun c r => (xs[r * p.columns + c]?).getD (p.element c r) }

/-- One element. -/
def set (p : Plane T) (column row : ℕ) (x : T) : Plane T :=
  { p with element := fun c r => if c = column ∧ r = row then x else p.element c r }

/-- The coordinates of a plane. -/
def Has (p : Plane T) (column row : ℕ) : Prop := column < p.columns ∧ row < p.rows

instance (p : Plane T) (column row : ℕ) : Decidable (p.Has column row) := inferInstanceAs (Decidable (_ ∧ _))

/-- What a call should do: the planes after it, and the element that it returns. Coordinates that a
plane does not have are refused. -/
def step (t : ℕ → Plane T) : Op T → Option ((ℕ → Plane T) × Option T)
  | .create i => some (update t i (filled 0 0 default), none)
  | .ofSizes i columns rows value => some (update t i (filled columns rows value), none)
  | .copy i q => some (update t i (t q), none)
  | .move i q => some (update t i (t q), none)
  | .resize i cols rows => some (update t i ((t i).resize cols rows), none)
  | .resizeFilled i cols rows value => some (update t i (filled cols rows value), none)
  | .swap i c => some (update (update t i (t c)) c (t i), none)
  | .assign i _ first rest => some (update t i ((t i).assign (first :: rest)), none)
  | .set i _ column row x =>
    if (t i).Has column row then some (update t i ((t i).set column row x), none) else none
  | .emplace i column row x =>
    if (t i).Has column row then some (update t i ((t i).set column row x), none) else none
  | .read i column row =>
    if (t i).Has column row then some (t, some ((t i).element column row)) else none

end Plane

/-- What an array says. -/
def plane (a : Array2 T) : Plane T where
  columns := a.columns
  rows := a.rows
  element c r := (a.container[r * a.columns + c]?).getD default

/-- An array with as many elements as rows times columns, which are those of a plane. -/
structure Shows (a : Array2 T) (p : Plane T) : Prop where
  columns : a.columns = p.columns
  rows : a.rows = p.rows
  size : a.container.length = a.rows * a.columns
  element : ∀ c r, c < a.columns → r < a.rows →
    a.container[r * a.columns + c]? = some (p.element c r)

/-- The calls that may find too little memory. -/
def Op.Allocates : Op T → Prop
  | .ofSizes .. | .copy .. | .resize .. | .resizeFilled .. => True
  | _ => False

/-- A call does to the arrays what it should, with the element that it should return. It refuses
coordinates with an error when it should, and it may fail when it has to allocate memory. -/
def Right (memory : ℕ) (s : State T) (op : Op T) : Prop :=
  match run memory s op with
  | .ok (s', x) => ∃ t', Plane.step (fun k => (s k).plane) op = some (t', x) ∧ ∀ k, (s' k).Shows (t' k)
  | .error (.thrown what) =>
    (what = "Array: bad access" ∧ Plane.step (fun k => (s k).plane) op = none) ∨
      (what = "std::bad_alloc" ∧ op.Allocates)
  | .error _ => False

/-- What a call must not do: set an element by move, emplace one, move from an array with elements, or
ask for more elements than a size can say. -/
def Meets (memory : ℕ) (s : State T) : Op T → Prop
  | .ofSizes _ columns rows _ | .resize _ columns rows | .resizeFilled _ columns rows _ =>
    rows * columns < sizeT ∨ memory < rows * columns % sizeT
  | .move i q => i = q ∨ (s q).rows * (s q).columns = 0
  | .assign i pass _ _ => pass = .copy ∨ (s i).rows * (s i).columns = 0
  | .set i pass column row _ => pass = .copy ∨ ¬ (s i).plane.Has column row
  | .emplace i column row _ => ¬ (s i).plane.Has column row
  | _ => True

/-! ## One array -/

/-- An array with as many elements as rows times columns, a number that a size can say. -/
structure Kept (a : Array2 T) : Prop where
  size : a.container.length = a.rows * a.columns
  bound : a.container.length < sizeT

variable {a : Array2 T} {p : Plane T} {memory column row : ℕ}

/-- An array that is kept shows its elements. -/
theorem Kept.shows (h : a.Kept) : a.Shows a.plane where
  columns := rfl
  rows := rfl
  size := h.size
  element c r hc hr := by
    have hlt := Grid.flat_lt hc hr
    rw [← h.size] at hlt
    change _ = some ((a.container[r * a.columns + c]?).getD default)
    rw [List.getElem?_eq_getElem hlt]
    rfl

/-- The place of coordinates that an array has. -/
theorem Kept.position_eq (h : a.Kept) (hhas : a.plane.Has column row) :
    position a.columns column row = row * a.columns + column ∧
      row * a.columns + column < a.container.length := by
  have hlt := Grid.flat_lt hhas.1 hhas.2
  have hsize := h.size
  have hbound := h.bound
  change row * a.columns + column < a.rows * a.columns at hlt
  exact ⟨Grid.place_of_lt (by omega), by omega⟩

/-- Coordinates that an array has pass the check. -/
theorem checkIndex_of_has (h : a.plane.Has column row) : a.checkIndex column row = .ok () := by
  have hc : column < a.columns := h.1
  have hr : row < a.rows := h.2
  rw [checkIndex, if_neg (by omega)]

/-- Other coordinates do not. -/
theorem checkIndex_of_not_has (h : ¬ a.plane.Has column row) :
    a.checkIndex column row = .error (.thrown "Array: bad access") := by
  have : a.columns ≤ column ∨ a.rows ≤ row := by
    by_contra hnot
    push Not at hnot
    exact h hnot
  rw [checkIndex, if_pos this]

/-- An element that is set by copy is put in its place. -/
theorem set_copy_run (h : a.Kept) (hhas : a.plane.Has column row) (x : T) :
    set .copy a column row x =
      .ok { a with container := a.container.set (row * a.columns + column) x } := by
  obtain ⟨hplace, hlt⟩ := h.position_eq hhas
  rw [set, checkIndex_of_has hhas, Except.ok_bind, hplace, write_eq_ok.mpr ⟨hlt, rfl⟩]
  rfl

/-- That changes one element. -/
theorem Shows.set (h : a.Shows p) (hkept : a.Kept) (hhas : a.plane.Has column row) (x : T) :
    Shows { a with container := a.container.set (row * a.columns + column) x } (p.set column row x) where
  columns := h.columns
  rows := h.rows
  size := by rw [List.length_set]; exact h.size
  element c r hc hr := by
    change (a.container.set (row * a.columns + column) x)[r * a.columns + c]? =
      some (if c = column ∧ r = row then x else p.element c r)
    by_cases heq : c = column ∧ r = row
    · obtain ⟨rfl, rfl⟩ := heq
      rw [if_pos ⟨rfl, rfl⟩, List.getElem?_set_self (hkept.position_eq hhas).2]
    · have hne : row * a.columns + column ≠ r * a.columns + c := fun he =>
        have hsame := Grid.flat_inj hhas.1 hc he
        heq ⟨hsame.1.symm, hsame.2.symm⟩
      rw [if_neg heq, List.getElem?_set_ne hne]
      exact h.element c r hc hr

/-- An element that is read is the one at its coordinates. -/
theorem read_run (h : a.Kept) (hhas : a.plane.Has column row) :
    read a column row = .ok (a.plane.element column row) := by
  obtain ⟨hplace, -⟩ := h.position_eq hhas
  rw [read, checkIndex_of_has hhas, Except.ok_bind, hplace]
  exact read_eq_ok.mpr (h.shows.element column row hhas.1 hhas.2)

/-- An element put in by `emplace` makes the vector longer than the array. -/
theorem emplace_run (h : a.Kept) (hhas : a.plane.Has column row) (x : T) :
    ∃ container, emplace a column row x = .ok { a with container := container } ∧
      container.length = a.rows * a.columns + 1 := by
  obtain ⟨hplace, hlt⟩ := h.position_eq hhas
  refine ⟨_, by rw [emplace, checkIndex_of_has hhas, Except.ok_bind, if_neg (by omega)]; rfl, ?_⟩
  rw [List.length_insertIdx_of_le_length (by omega), h.size]

omit [Inhabited T] in
/-- A vector of a size that fits. -/
theorem vector_run {size : ℕ} (value : T) (h : ¬ memory < size) :
    vector memory size value = .ok (List.replicate size value) := if_neg h

omit [Inhabited T] in
/-- A new array of one value. -/
theorem ofSizes_run {columns rows : ℕ} (value : T) (h : ¬ memory < rows * columns % sizeT) :
    ofSizes memory columns rows value =
      .ok ⟨List.replicate (rows * columns % sizeT) value, rows, columns⟩ := by
  rw [ofSizes, vector_run value h]
  rfl

omit [Inhabited T] in
/-- An array of one value shows it. -/
theorem shows_filled {columns rows : ℕ} (value : T) :
    Shows ⟨List.replicate (rows * columns) value, rows, columns⟩ (Plane.filled columns rows value) where
  columns := rfl
  rows := rfl
  size := List.length_replicate
  element c r hc hr := by
    rw [List.getElem?_replicate, if_pos (Grid.flat_lt hc hr)]
    rfl

/-! ## `resize` -/

/-- The coordinates that the loops meet. -/
theorem mem_coordinates {columns rows : ℕ} {k : ℕ × ℕ} :
    k ∈ coordinates columns rows ↔ k.1 < columns ∧ k.2 < rows := by
  obtain ⟨c, r⟩ := k
  simp only [coordinates, List.mem_flatMap, List.mem_map, List.mem_range, Prod.mk.injEq]
  constructor
  · rintro ⟨r', hr, c', hc, rfl, rfl⟩
    exact ⟨hc, hr⟩
  · rintro ⟨hc, hr⟩
    exact ⟨r, hr, c, hc, rfl, rfl⟩

/-- The array that `resize` makes keeps the elements of the common rectangle. -/
theorem resize_run (h : a.Kept) {cols rows : ℕ} (hfit : rows * cols < sizeT)
    (hmemory : ¬ memory < rows * cols % sizeT) :
    ∃ container, resize memory a cols rows = .ok ⟨container, rows, cols⟩ ∧
      Shows ⟨container, rows, cols⟩ (a.plane.resize cols rows) := by
  set common := coordinates (min cols a.columns) (min rows a.rows) with hcommon
  have hin : ∀ k ∈ common, position cols k.1 k.2 = k.2 * cols + k.1 ∧
      k.2 * cols + k.1 < rows * cols ∧ a.plane.Has k.1 k.2 := by
    intro k hk
    obtain ⟨hc, hr⟩ := mem_coordinates.mp hk
    rw [lt_min_iff] at hc hr
    have hlt := Grid.flat_lt hc.1 hr.1
    exact ⟨Grid.place_of_lt (by omega), hlt, hc.2, hr.2⟩
  have hbound : ∀ w ∈ common.map fun k => (k.2 * cols + k.1, a.plane.element k.1 k.2),
      w.1 < (List.replicate (rows * cols) (default : T)).length := by
    intro w hw
    obtain ⟨k, hk, rfl⟩ := List.mem_map.mp hw
    rw [List.length_replicate]
    exact (hin k hk).2.1
  obtain ⟨container, hwrite⟩ := exists_writeAll Fault.outOfRange hbound
  have hrun : resize memory a cols rows = .ok ⟨container, rows, cols⟩ := by
    have hread : ∀ m ∈ common.map fun k => (position a.columns k.1 k.2, position cols k.1 k.2),
        a.container[m.1]? = some ((a.container[m.1]?).getD default) := by
      intro m hm
      obtain ⟨k, hk, rfl⟩ := List.mem_map.mp hm
      obtain ⟨hplace, hlt⟩ := h.position_eq (hin k hk).2.2
      rw [hplace, List.getElem?_eq_getElem hlt]
      rfl
    have hcopy := copyAll_eq Fault.outOfRange (fun i => (a.container[i]?).getD default)
      (List.replicate (rows * cols) default) hread
    rw [List.map_map, List.map_congr_left (g := fun k => (k.2 * cols + k.1, a.plane.element k.1 k.2)),
      hwrite] at hcopy
    · rw [resize, vector_run default hmemory, Except.ok_bind, Nat.mod_eq_of_lt hfit]
      exact congrArg (fun x => x >>= fun container => .ok (⟨container, rows, cols⟩ : Array2 T)) hcopy
    · intro k hk
      obtain ⟨hplace, -, hhas⟩ := hin k hk
      exact Prod.ext hplace (congrArg (fun i => (a.container[i]?).getD default) (h.position_eq hhas).1)
  refine ⟨container, hrun, rfl, rfl, ?_, fun c r hc hr => ?_⟩
  · rw [length_of_writeAll hwrite, List.length_replicate]
  · change container[r * cols + c]? =
      some (if c < a.columns ∧ r < a.rows then a.plane.element c r else default)
    by_cases hhas : c < a.columns ∧ r < a.rows
    · rw [if_pos hhas]
      refine writeAll_const hwrite (fun w hw hplace => ?_) ⟨_, List.mem_map.mpr ⟨(c, r), ?_, rfl⟩, rfl⟩
      · obtain ⟨k, hk, rfl⟩ := List.mem_map.mp hw
        obtain ⟨hc', -⟩ := mem_coordinates.mp hk
        obtain ⟨rfl, rfl⟩ := Grid.flat_inj (lt_min_iff.mp hc').1 hc hplace
        rfl
      · exact mem_coordinates.mpr ⟨lt_min hc hhas.1, lt_min hr hhas.2⟩
    · rw [if_neg hhas, writeAll_apart hwrite, List.getElem?_replicate, if_pos (Grid.flat_lt hc hr)]
      intro w hw hplace
      obtain ⟨k, hk, rfl⟩ := List.mem_map.mp hw
      obtain ⟨hc', hr'⟩ := mem_coordinates.mp hk
      rw [lt_min_iff] at hc' hr'
      obtain ⟨rfl, rfl⟩ := Grid.flat_inj hc'.1 hc hplace
      exact hhas ⟨hc'.2, hr'.2⟩

/-- A size that does not fit is not the size of the vector. -/
theorem resize_length {a' : Array2 T} {cols rows : ℕ} (h : resize memory a cols rows = .ok a') :
    a'.container.length = rows * cols % sizeT ∧ a'.rows = rows ∧ a'.columns = cols := by
  obtain ⟨container, hvector, h⟩ := Except.bind_eq_ok.mp h
  obtain ⟨container', hcopy, h⟩ := Except.bind_eq_ok.mp h
  cases h
  unfold vector at hvector
  split_ifs at hvector
  cases hvector
  exact ⟨by rw [length_of_copyAll hcopy, List.length_replicate], rfl, rfl⟩

/-- Once there is a vector, `resize` does not throw. -/
theorem resize_no_throw {cols rows : ℕ} (hmemory : ¬ memory < rows * cols % sizeT) (what : String) :
    resize memory a cols rows ≠ .error (.thrown what) := by
  intro h
  rw [resize, vector_run default hmemory, Except.ok_bind] at h
  dsimp only at h
  generalize hcopy : copyAll Fault.outOfRange _ a.container _ = x at h
  cases x with
  | ok container => cases h
  | error e =>
    rw [copyAll_eq_error hcopy] at h
    cases h

/-! ## `assign` -/

/-- The elements that `assign` sets by copy, from a place on. -/
theorem assignLoop_copy {ks : List (ℕ × ℕ)} (h : a.Kept) (hhas : ∀ k ∈ ks, a.plane.Has k.1 k.2)
    {i : ℕ} (hplaces : ks.map (fun k => k.2 * a.columns + k.1) = List.range' i ks.length)
    (x : T) (xs : List T) :
    ∃ container, assignLoop .copy ks x xs a = .ok { a with container := container } ∧
      container.length = a.container.length ∧
      ∀ j, j < container.length → container[j]? =
        if i ≤ j ∧ j < i + ks.length then ((x :: xs)[j - i]?).or a.container[j]? else a.container[j]? := by
  induction ks generalizing a i x xs with
  | nil => exact ⟨a.container, rfl, rfl, fun j _ => by rw [if_neg (by simp)]⟩
  | cons k ks ih =>
    have hk := hhas k List.mem_cons_self
    rw [List.map_cons, List.length_cons, List.range'_succ, List.cons.injEq] at hplaces
    obtain ⟨hplace, hplaces⟩ := hplaces
    have hset := set_copy_run h hk x
    have hlt := (h.position_eq hk).2
    rw [hplace] at hset hlt
    have hkept : Kept { a with container := a.container.set i x } :=
      ⟨by rw [List.length_set]; exact h.size, by rw [List.length_set]; exact h.bound⟩
    have hat : ∀ j, j < a.container.length →
        (a.container.set i x)[j]? = if j = i then some x else a.container[j]? := by
      intro j hj
      by_cases hji : j = i
      · rw [if_pos hji, hji, List.getElem?_set_self hlt]
      · rw [if_neg hji, List.getElem?_set_ne (Ne.symm hji)]
    cases xs with
    | nil =>
      refine ⟨a.container.set i x, by rw [assignLoop, hset]; rfl, List.length_set, fun j hj => ?_⟩
      rw [List.length_set] at hj
      rw [hat j hj]
      rcases lt_trichotomy j i with hlt | rfl | hgt
      · rw [if_neg (by omega), if_neg (by omega)]
      · rw [if_pos rfl, if_pos (by simp), Nat.sub_self]
        rfl
      · have hnone : [x][j - i]? = none := List.getElem?_eq_none (by simp; omega)
        rw [if_neg (by omega), hnone, Option.none_or, ite_self]
    | cons y ys =>
      obtain ⟨container, hrun, hlen, hcontainer⟩ :=
        ih hkept (fun k' hk' => hhas k' (List.mem_cons_of_mem k hk')) hplaces y ys
      rw [List.length_set] at hlen
      refine ⟨container, by rw [assignLoop, hset]; exact hrun, hlen, fun j hj => ?_⟩
      rw [hcontainer j hj, hat j (by omega), List.length_cons]
      rcases lt_trichotomy j i with hlt | rfl | hgt
      · rw [if_neg (by omega), if_neg (by omega), if_neg (by omega)]
      · rw [if_neg (by omega), if_pos rfl, if_pos (by omega), Nat.sub_self]
        rfl
      · have hsub : j - i = (j - (i + 1)) + 1 := by omega
        rw [if_neg (by omega : ¬ j = i), hsub, List.getElem?_cons_succ]
        exact if_congr (by omega) rfl rfl

/-- The places of the coordinates, in the order of the loops. -/
theorem map_coordinates (columns rows : ℕ) :
    (coordinates columns rows).map (fun k => k.2 * columns + k.1) = List.range (rows * columns) := by
  rw [coordinates, List.map_flatMap, ← Grid.flat_range]
  congr 1
  funext r
  rw [List.map_map]
  rfl

theorem length_coordinates (columns rows : ℕ) : (coordinates columns rows).length = rows * columns := by
  have h := congrArg List.length (map_coordinates columns rows)
  rwa [List.length_map, List.length_range] at h

/-- Setting elements by copy one row after the other assigns them. -/
theorem assign_copy_run (h : a.Kept) (x : T) (xs : List T) :
    ∃ container, assign .copy a x xs = .ok { a with container := container } ∧
      Shows { a with container := container } (a.plane.assign (x :: xs)) := by
  have hplaces : (coordinates a.columns a.rows).map (fun k => k.2 * a.columns + k.1) =
      List.range' 0 (coordinates a.columns a.rows).length := by
    rw [map_coordinates, length_coordinates, List.range_eq_range']
  obtain ⟨container, hrun, hlen, hcontainer⟩ := assignLoop_copy h
    (fun k (hk : k ∈ coordinates a.columns a.rows) => mem_coordinates.mp hk) hplaces x xs
  refine ⟨container, hrun, rfl, rfl, hlen.trans h.size, fun c r hc hr => ?_⟩
  have hlt : r * a.columns + c < a.rows * a.columns := Grid.flat_lt hc hr
  have hold := h.shows.element c r hc hr
  change container[r * a.columns + c]? =
    some (((x :: xs)[r * a.columns + c]?).getD (a.plane.element c r))
  rw [hcontainer _ (by rw [hlen, h.size]; exact hlt), length_coordinates, if_pos (by omega), Nat.sub_zero,
    hold]
  cases (x :: xs)[r * a.columns + c]? <;> rfl

omit [Inhabited T] in
/-- Setting elements by move makes the vector longer. -/
theorem assignLoop_move {ks : List (ℕ × ℕ)} {a' : Array2 T} (x : T) (xs : List T)
    (h : assignLoop .move ks x xs a = .ok a') :
    a'.rows = a.rows ∧ a'.columns = a.columns ∧ a.container.length ≤ a'.container.length ∧
      (ks ≠ [] → a.container.length < a'.container.length) := by
  induction ks generalizing a x xs with
  | nil =>
    cases h
    exact ⟨rfl, rfl, le_rfl, fun hne => absurd rfl hne⟩
  | cons k ks ih =>
    obtain ⟨a₁, hset, h⟩ := Except.bind_eq_ok.mp h
    obtain ⟨-, -, hset⟩ := Except.bind_eq_ok.mp hset
    dsimp only at hset
    split_ifs at hset with hpos
    cases hset
    have hlen : (a.container.insertIdx (position a.columns k.1 k.2) x).length = a.container.length + 1 :=
      List.length_insertIdx_of_le_length (not_lt.mp hpos) x
    cases xs with
    | nil =>
      cases h
      dsimp only
      exact ⟨rfl, rfl, by omega, fun _ => by omega⟩
    | cons y ys =>
      obtain ⟨hrows, hcolumns, hle, -⟩ := ih y ys h
      dsimp only at hrows hcolumns hle
      exact ⟨hrows, hcolumns, by omega, fun _ => by omega⟩

/-! ## Programs -/

variable {s : State T}

omit [Inhabited T] in
/-- When a variable gets an array and a plane that go together, all still do. -/
theorem shows_update {t : ℕ → Plane T} (h : ∀ k, (s k).Shows (t k)) {i : ℕ} (ha : a.Shows p) (k : ℕ) :
    (update s i a k).Shows (update t i p k) := by
  by_cases hk : k = i
  · rw [hk, Function.update_self, Function.update_self]
    exact ha
  · rw [Function.update_of_ne hk, Function.update_of_ne hk]
    exact h k

omit [Inhabited T] in
theorem kept_update (h : ∀ k, (s k).Kept) {i : ℕ} (ha : a.Kept) (k : ℕ) : (update s i a k).Kept := by
  by_cases hk : k = i
  · rw [hk, Function.update_self]
    exact ha
  · rw [Function.update_of_ne hk]
    exact h k

/-- A call does what it should, and keeps the arrays, or it is refused as it should. -/
def Done (memory : ℕ) (s : State T) (op : Op T) : Prop :=
  (∃ s' t' x, run memory s op = .ok (s', x) ∧ Plane.step (fun k => (s k).plane) op = some (t', x) ∧
    (∀ k, (s' k).Shows (t' k)) ∧ ∀ k, (s' k).Kept) ∨
  ∃ what, run memory s op = .error (.thrown what) ∧
    ((what = "Array: bad access" ∧ Plane.step (fun k => (s k).plane) op = none) ∨
      (what = "std::bad_alloc" ∧ op.Allocates))

/-- A call that gives one variable a new array. -/
theorem done_of_update (hs : ∀ k, (s k).Kept) {op : Op T} {i : ℕ}
    (hrun : run memory s op = .ok (update s i a, none))
    (hstep : Plane.step (fun k => (s k).plane) op = some (update (fun k => (s k).plane) i p, none))
    (hshows : a.Shows p) (hbound : a.container.length < sizeT) : Done memory s op :=
  .inl ⟨_, _, none, hrun, hstep, shows_update (fun k => (hs k).shows) hshows,
    kept_update hs ⟨hshows.size, hbound⟩⟩

omit [Inhabited T] in
/-- An array of a size that fits, or no memory for it. -/
theorem vector_cases (columns rows : ℕ) (value : T)
    (h : rows * columns < sizeT ∨ memory < rows * columns % sizeT) :
    (vector memory (rows * columns % sizeT) value = .error (.thrown "std::bad_alloc")) ∨
      (¬ memory < rows * columns % sizeT ∧ rows * columns < sizeT) := by
  by_cases hmemory : memory < rows * columns % sizeT
  · exact .inl (if_pos hmemory)
  · exact .inr ⟨hmemory, h.resolve_right hmemory⟩

/-- A call that meets the condition. -/
theorem done_of_meets (hs : ∀ k, (s k).Kept) (op : Op T) (h : Meets memory s op) : Done memory s op := by
  cases op with
  | create i =>
    refine done_of_update hs rfl rfl ⟨rfl, rfl, rfl, fun c r hc => absurd hc (Nat.not_lt_zero c)⟩ ?_
    exact (by decide : 0 < sizeT)
  | ofSizes i columns rows value =>
    rcases vector_cases columns rows value h with hvector | ⟨hmemory, hfit⟩
    · exact .inr ⟨_, by rw [run, ofSizes, hvector]; rfl, .inr ⟨rfl, trivial⟩⟩
    · refine done_of_update hs (by rw [run, ofSizes_run value hmemory]; rfl) rfl ?_ ?_
      · rw [Nat.mod_eq_of_lt hfit]
        exact shows_filled value
      · rw [List.length_replicate]
        exact Nat.mod_lt _ (by decide)
  | copy i q =>
    by_cases hmemory : memory < (s q).container.length
    · exact .inr ⟨_, by rw [run, copy, if_pos hmemory]; rfl, .inr ⟨rfl, trivial⟩⟩
    · exact done_of_update hs (by rw [run, copy, if_neg hmemory]; rfl) rfl (hs q).shows (hs q).bound
  | move i q =>
    have hsame : update (update s q { s q with container := [] }) i (s q) = update s i (s q) := by
      rcases h with rfl | hempty
      · rw [Function.update_idem]
      · have hnil : (s q).container = [] := by
          rw [← List.length_eq_zero_iff, (hs q).size]
          exact hempty
        rw [← hnil]
        exact congrArg (update · i (s q)) (Function.update_eq_self q s)
    exact done_of_update hs (by rw [run, hsame]; rfl) rfl (hs q).shows (hs q).bound
  | resize i cols rows =>
    rcases vector_cases cols rows (default : T) h with hvector | ⟨hmemory, hfit⟩
    · exact .inr ⟨_, by rw [run, resize, hvector]; rfl, .inr ⟨rfl, trivial⟩⟩
    · obtain ⟨container, hrun, hshows⟩ := resize_run (hs i) hfit hmemory
      refine done_of_update hs (by rw [run, hrun]; rfl) rfl hshows ?_
      rw [(resize_length hrun).1]
      exact Nat.mod_lt _ (by decide)
  | resizeFilled i cols rows value =>
    rcases vector_cases cols rows value h with hvector | ⟨hmemory, hfit⟩
    · exact .inr ⟨_, by rw [run, resizeFilled, hvector]; rfl, .inr ⟨rfl, trivial⟩⟩
    · refine done_of_update hs (by rw [run, resizeFilled, vector_run value hmemory]; rfl) rfl ?_ ?_
      · rw [Nat.mod_eq_of_lt hfit]
        exact shows_filled value
      · rw [List.length_replicate]
        exact Nat.mod_lt _ (by decide)
  | swap i c =>
    refine .inl ⟨_, _, none, rfl, rfl, ?_, ?_⟩
    · exact shows_update (shows_update (fun k => (hs k).shows) (hs c).shows) (hs i).shows
    · exact kept_update (kept_update hs (hs c)) (hs i)
  | assign i pass first rest =>
    rcases h with rfl | hempty
    · obtain ⟨container, hrun, hshows⟩ := assign_copy_run (hs i) first rest
      refine done_of_update hs (by rw [run, hrun]; rfl) rfl hshows ?_
      rw [hshows.size, ← (hs i).size]
      exact (hs i).bound
    · have hnil : coordinates (s i).columns (s i).rows = [] := by
        rw [← List.length_eq_zero_iff, length_coordinates]
        exact hempty
      refine done_of_update hs (by rw [run, assign, hnil]; rfl) rfl ⟨rfl, rfl, (hs i).size, ?_⟩ (hs i).bound
      intro c r hc hr
      have := Grid.flat_lt hc hr
      omega
  | set i pass column row x =>
    by_cases hhas : (s i).plane.Has column row
    · obtain rfl : pass = .copy := h.resolve_right (not_not.mpr hhas)
      refine done_of_update hs (by rw [run, set_copy_run (hs i) hhas]; rfl) (if_pos hhas)
        ((hs i).shows.set (hs i) hhas x) ?_
      rw [List.length_set]
      exact (hs i).bound
    · refine .inr ⟨_, ?_, .inl ⟨rfl, if_neg hhas⟩⟩
      cases pass <;> rw [run, set, checkIndex_of_not_has hhas] <;> rfl
  | emplace i column row x =>
    exact .inr ⟨_, by rw [run, emplace, checkIndex_of_not_has h]; rfl, .inl ⟨rfl, if_neg h⟩⟩
  | read i column row =>
    by_cases hhas : (s i).plane.Has column row
    · exact .inl ⟨s, _, _, by rw [run, read_run (hs i) hhas]; rfl, if_pos hhas, fun k => (hs k).shows, hs⟩
    · exact .inr ⟨_, by rw [run, read, checkIndex_of_not_has hhas]; rfl, .inl ⟨rfl, if_neg hhas⟩⟩

theorem Done.right {op : Op T} (h : Done memory s op) : Right memory s op := by
  rcases h with ⟨s', t', x, hrun, hstep, hshows, -⟩ | ⟨what, hrun, hwhat⟩
  · rw [Right, hrun]
    exact ⟨t', hstep, hshows⟩
  · rw [Right, hrun]
    exact hwhat

theorem Done.kept {op : Op T} (h : Done memory s op) (hs : ∀ k, (s k).Kept) {s' : State T}
    (hnext : next memory s op = some s') (k : ℕ) : (s' k).Kept := by
  rcases h with ⟨s₁, t', x, hrun, -, -, hkept⟩ | ⟨what, hrun, -⟩
  · rw [next, hrun] at hnext
    cases hnext
    exact hkept k
  · rw [next, hrun] at hnext
    cases hnext
    exact hs k

/-- After a call that does what it should, the array that it gave its variable has a size. -/
theorem Right.size {op : Op T} {i : ℕ} {x : Option T} (h : Right memory s op)
    (hrun : run memory s op = .ok (update s i a, x)) : a.container.length = a.rows * a.columns := by
  rw [Right, hrun] at h
  obtain ⟨t', -, hshows⟩ := h
  have := (hshows i).size
  rwa [Function.update_self] at this

/-- A size that does not fit is not that of a vector. -/
theorem Right.fits {op : Op T} {i rows columns : ℕ} {container : List T} {x : Option T}
    (h : Right memory s op) (hrun : run memory s op = .ok (update s i ⟨container, rows, columns⟩, x))
    (hlen : container.length = rows * columns % sizeT) : rows * columns < sizeT := by
  have hsize := h.size hrun
  dsimp only at hsize
  rw [← hsize, hlen]
  exact Nat.mod_lt _ (by decide)

/-- An element that is emplaced makes the vector longer. -/
theorem Right.not_longer {op : Op T} {i : ℕ} {container : List T} {x : Option T} (h : Right memory s op)
    (hrun : run memory s op = .ok (update s i { s i with container := container }, x))
    (hlen : container.length = (s i).rows * (s i).columns + 1) : False := by
  have hsize := h.size hrun
  dsimp only at hsize
  omega

/-- A call that does what it should meets the condition. -/
theorem meets_of_right (hs : ∀ k, (s k).Kept) (op : Op T) (h : Right memory s op) : Meets memory s op := by
  cases op with
  | create | copy | swap | read => trivial
  | ofSizes i columns rows value =>
    by_cases hmemory : memory < rows * columns % sizeT
    · exact .inr hmemory
    · exact .inl (h.fits (by rw [run, ofSizes_run value hmemory]; rfl) List.length_replicate)
  | resizeFilled i cols rows value =>
    by_cases hmemory : memory < rows * cols % sizeT
    · exact .inr hmemory
    · exact .inl (h.fits (by rw [run, resizeFilled, vector_run value hmemory]; rfl) List.length_replicate)
  | resize i cols rows =>
    by_cases hmemory : memory < rows * cols % sizeT
    · exact .inr hmemory
    refine .inl ?_
    cases hres : resize memory (s i) cols rows with
    | ok a =>
      obtain ⟨hlen, hrows, hcolumns⟩ := resize_length hres
      obtain ⟨container, rows', columns'⟩ := a
      dsimp only at hlen hrows hcolumns
      subst hrows hcolumns
      exact h.fits (by rw [run, hres]; rfl) hlen
    | error e =>
      have hrun : run memory s (.resize i cols rows) = .error e := by rw [run, hres]; rfl
      rw [Right, hrun] at h
      cases e with
      | thrown what => exact absurd hres (resize_no_throw hmemory what)
      | outOfRange => exact h.elim
      | null => exact h.elim
  | move i q =>
    by_contra hnot
    obtain ⟨hne, hsize⟩ := not_or.mp hnot
    obtain ⟨t', -, hshows⟩ := h
    have hq := (hshows q).size
    rw [Function.update_of_ne (Ne.symm hne), Function.update_self] at hq
    exact hsize hq.symm
  | assign i pass first rest =>
    by_contra hnot
    obtain ⟨hpass, hsize⟩ := not_or.mp hnot
    obtain rfl : pass = .move := by cases pass <;> trivial
    cases hres : assign .move (s i) first rest with
    | ok a =>
      obtain ⟨hrows, hcolumns, -, hlonger⟩ := assignLoop_move first rest hres
      have hne : coordinates (s i).columns (s i).rows ≠ [] := by
        rw [← List.length_pos_iff, length_coordinates]
        exact Nat.pos_of_ne_zero hsize
      have hlt := hlonger hne
      have hlen := h.size (by rw [run, hres]; rfl)
      rw [hrows, hcolumns, ← (hs i).size] at hlen
      omega
    | error e =>
      have hrun : run memory s (.assign i .move first rest) = .error e := by rw [run, hres]; rfl
      rw [Right, hrun] at h
      cases e with
      | thrown what =>
        rcases h with ⟨-, hstep⟩ | ⟨-, hallocates⟩
        · cases hstep
        · exact hallocates
      | outOfRange => exact h
      | null => exact h
  | set i pass column row x =>
    by_contra hnot
    obtain ⟨hpass, hhas⟩ := not_or.mp hnot
    obtain rfl : pass = .move := by cases pass <;> trivial
    obtain ⟨container, hemplace, hlen⟩ := emplace_run (hs i) (not_not.mp hhas) x
    have hset : set .move (s i) column row x = .ok { s i with container := container } := hemplace
    exact h.not_longer (by rw [run, hset]; rfl) hlen
  | emplace i column row x =>
    intro hhas
    obtain ⟨container, hemplace, hlen⟩ := emplace_run (hs i) hhas x
    exact h.not_longer (by rw [run, hemplace]; rfl) hlen

/-- The arrays of a program have as many elements as rows times columns, the calls change the elements
that they should, and reading gives the last element put there, exactly as long as every call meets the
condition. -/
theorem shows_iff (memory : ℕ) (ops : List (Op T)) :
    Along (next memory) (Right memory) (fun _ => create) ops ↔
      Along (next memory) (Meets memory) (fun _ => create) ops := by
  refine along_iff (I := fun s => ∀ k, (s k).Kept) (E := fun _ _ => True) (fun s op hs _ => ?_)
    (fun s op s' hs _ hmeets hnext => (done_of_meets hs op hmeets).kept hs hnext)
    (fun _ => ⟨rfl, (by decide : 0 < sizeT)⟩) (along_true _ ops)
  exact ⟨meets_of_right hs op, fun h => (done_of_meets hs op h).right⟩

/-- An array of one number whose element is set by move. -/
theorem set_move_inserts : ∃ ops : List (Op ℕ), ¬ Along (next 8) (Right 8) (fun _ => create) ops := by
  refine ⟨[.ofSizes 0 1 1 0, .set 0 .move 0 0 5], fun h => ?_⟩
  obtain ⟨hright, -⟩ := h.2 (update (fun _ => create) 0 ⟨[0], 1, 1⟩) rfl
  have hsize : [5, 0].length = 1 * 1 :=
    hright.size (a := ⟨[5, 0], 1, 1⟩) (i := 0) (x := none) rfl
  exact absurd hsize (by decide)

end Array2

end Vle.Utils
