import Vle.Lib.Runs
import Vle.Lib.Storage
import Vle.Value.Value

/-!
# Matrices

`value::Matrix` keeps its cells line after line in one vector, the buffer, whose lines and columns are
as many as the capacities say. Sizes are `size_t`, so sums and products of them wrap around, and a
vector is refused when it would be larger than the memory. An access outside of the vector is
`Fault.outOfRange`: the language leaves undefined what it does.

The operations keep a matrix well formed, and `resize` does what it promises, exactly when the sizes fit
(`keeps_iff`): its first branch takes any sizes whose product is null, and `reserve` copies the old
area into a buffer whose lines, or their number, may be smaller than those of the old area.
-/

namespace Vle

open Lib Lib.Storage

/-- The values of `size_t` are below this. -/
def sizeT : ℕ := 2 ^ 64

/-- What `max_size` of a vector of pointers gives. -/
def maxSize : ℕ := 2 ^ 60 - 1

/-- `value::Matrix`, over a type of values. A cell is a pointer, which may be null. -/
structure Matrix (α : Type) where
  matrix : List (Option α)
  nbcol : ℕ
  nbrow : ℕ
  nbcolmax : ℕ
  nbrowmax : ℕ
  stepcol : ℕ
  steprow : ℕ
  lastX : ℕ
  lastY : ℕ
  deriving DecidableEq, Repr

namespace Matrix

variable {α : Type}

/-! ## The code -/

/-- The place of a cell in a buffer whose lines have `stride` cells. -/
def position (stride column row : ℕ) : ℕ := (row * stride + column) % sizeT

/-- The indices of a loop from `first` to before `last`. -/
def span (first last : ℕ) : List ℕ := List.range' first (last - first)

/-- The cells that a loop over `rows` meets, with a loop over `columns` in it: a column and a row
each. -/
def cells (rows columns : List ℕ) : List (ℕ × ℕ) :=
  rows.flatMap fun r => columns.map fun c => (c, r)

/-- A vector of null pointers, which `memory` cells may be enough for or not. -/
def allocate (memory size : ℕ) : Except Fault (List (Option α)) :=
  if maxSize < size then .error (.thrown "cannot create std::vector larger than max_size()")
  else if memory < size then .error (.thrown "std::bad_alloc")
  else .ok (List.replicate size none)

/-- The matrix that the default constructor builds. -/
def empty (memory : ℕ) : Except Fault (Matrix α) := do
  let matrix ← allocate memory (256 * 1024)
  return ⟨matrix, 0, 0, 256, 1024, 1, 1, 0, 0⟩

/-- The matrix of a constructor with sizes: they are its capacities too. -/
def ofSizes (memory columns rows resizeColumns resizeRows : ℕ) : Except Fault (Matrix α) := do
  let matrix ← allocate memory (columns * rows % sizeT)
  return ⟨matrix, columns, rows, columns, rows, resizeColumns, resizeRows, 0, 0⟩

/-- The matrix of a constructor with sizes and capacities. -/
def ofCapacities (memory columns rows columnmax rowmax resizeColumns resizeRows : ℕ) :
    Except Fault (Matrix α) := do
  let matrix ← allocate memory (columnmax * rowmax % sizeT)
  if columnmax * rowmax % sizeT = 0 then
    .error (.thrown s!"Matrix: bad constructor initialization {columns % 2 ^ 32} x {rows % 2 ^ 32}")
  else if columnmax < columns then
    .error (.thrown s!"Matrix: Number of columns error: {columns % 2 ^ 32} on {columnmax % 2 ^ 32}")
  else if rowmax < rows then
    .error (.thrown s!"Matrix: Number of row error: {rows % 2 ^ 32} on {rowmax % 2 ^ 32}")
  else .ok ⟨matrix, columns, rows, columnmax, rowmax, resizeColumns, resizeRows, 0, 0⟩

/-- The copy constructor, with `clone`. -/
def clone (memory : ℕ) (m : Matrix α) : Except Fault (Matrix α) := do
  let _ ← allocate (α := α) memory m.matrix.length
  return { m with lastX := 0, lastY := 0 }

/-- `pp_check_index`, which lets the number of rows through. -/
def checkIndex (m : Matrix α) (column row : ℕ) : Except Fault Unit :=
  if column < m.nbcol ∧ row ≤ m.nbrow then .ok ()
  else .error (.thrown s!"Matrix: bad access {column % 2 ^ 32} {row % 2 ^ 32} for {m.nbcol % 2 ^ 32} x {m.nbrow % 2 ^ 32} matrix")

/-- `m_matrix[…] = p`, at a cell. -/
def assign (m : Matrix α) (column row : ℕ) (p : Option α) : Except Fault (Matrix α) := do
  let matrix ← write .outOfRange m.matrix (position m.nbcolmax column row) p
  return { m with matrix := matrix }

/-- `add`. -/
def add (m : Matrix α) (column row : ℕ) (val : Option α) : Except Fault (Matrix α) := do
  m.checkIndex column row
  m.assign column row val

/-- `set`. -/
def set (m : Matrix α) (column row : ℕ) (val : Option α) : Except Fault (Matrix α) := do
  m.checkIndex column row
  m.assign column row val

/-- `give`: what the cell pointed to, with the cell null from then on. -/
def give (m : Matrix α) (column row : ℕ) : Except Fault (Option α × Matrix α) := do
  m.checkIndex column row
  let p ← read .outOfRange m.matrix (position m.nbcolmax column row)
  let m ← m.assign column row none
  return (p, m)

/-- `addToLastCell`. -/
def addToLastCell (m : Matrix α) (val : Option α) : Except Fault (Matrix α) :=
  m.assign m.lastX m.lastY val

/-- `moveLastCell`. -/
def moveLastCell (m : Matrix α) : Matrix α :=
  let lastX := (m.lastX + 1) % sizeT
  if lastX < m.nbcol then { m with lastX := lastX }
  else
    let lastY := (m.lastY + 1) % sizeT
    { m with lastX := 0, lastY := if lastY < m.nbrow then lastY else 0 }

/-- `clear`. -/
def clear (m : Matrix α) : Matrix α :=
  { m with matrix := m.matrix.map fun _ => none, lastX := 0, lastY := 0 }

/-- The moves of the loops of `reserve`, from a place in the buffer to one in a buffer whose rows have
`columnmax` cells. -/
def moves (m : Matrix α) (columnmax : ℕ) : List (ℕ × ℕ) :=
  (cells (span 0 m.nbrow) (span 0 m.nbcol)).map fun p =>
    (position m.nbcolmax p.1 p.2, position columnmax p.1 p.2)

/-- `reserve`. -/
def reserve (memory : ℕ) (m : Matrix α) (columnmax rowmax : ℕ) : Except Fault (Matrix α) :=
  if columnmax * rowmax % sizeT = 0 then
    .error (.thrown s!"Matrix: bad reserve operation {columnmax % 2 ^ 32} x {rowmax % 2 ^ 32}")
  else if columnmax ≤ m.nbcolmax ∧ rowmax ≤ m.nbrowmax then .ok m
  else do
    let tmp ← allocate memory (columnmax * rowmax % sizeT)
    let moved ← moveAll .outOfRange none (m.moves columnmax) m.matrix tmp
    return { m with matrix := moved.2, nbcolmax := columnmax, nbrowmax := rowmax }

/-- How both `resize` get a buffer: `reserve` when a size is not below its capacity. -/
def makeRoom (memory : ℕ) (m : Matrix α) (columns rows : ℕ) : Except Fault (Matrix α) :=
  if m.nbcolmax ≤ columns ∨ m.nbrowmax ≤ rows then
    m.reserve memory ((columns + m.stepcol) % sizeT) ((rows + m.steprow) % sizeT)
  else .ok m

/-- One value, or a null pointer, in the cells that a loop meets. -/
def writeCells (m : Matrix α) (ps : List (ℕ × ℕ)) (p : Option α) : Except Fault (Matrix α) := do
  let matrix ← writeAll .outOfRange (ps.map fun q => (position m.nbcolmax q.1 q.2, p)) m.matrix
  return { m with matrix := matrix }

/-- The cells of the two loops of `resize`. -/
def resetCells (m : Matrix α) (columns rows : ℕ) : List (ℕ × ℕ) :=
  cells (span (min m.nbrow rows) (max m.nbrow rows)) (span 0 (max m.nbcol columns)) ++
    cells (span 0 (max m.nbrow rows)) (span (min m.nbcol columns) (max m.nbcol columns))

/-- `resize`. -/
def resize (memory : ℕ) (m : Matrix α) (columns rows : ℕ) : Except Fault (Matrix α) :=
  if columns * rows % sizeT = 0 then .ok { m with nbcol := columns, nbrow := rows }
  else do
    let m ← m.makeRoom memory columns rows
    let m ← m.writeCells (m.resetCells columns rows) none
    return { m with nbcol := columns, nbrow := rows }

/-- `increaseAllocation`. -/
def increaseAllocation (memory : ℕ) (m : Matrix α) (columns rows : ℕ) : Except Fault (Matrix α) :=
  m.resize memory (max m.nbcol columns) (max m.nbrow rows)

/-- `addColumn`. -/
def addColumn (memory : ℕ) (m : Matrix α) : Except Fault (Matrix α) :=
  m.resize memory ((m.nbcol + 1) % sizeT) m.nbrow

/-- `addRow`. -/
def addRow (memory : ℕ) (m : Matrix α) : Except Fault (Matrix α) :=
  m.resize memory m.nbcol ((m.nbrow + 1) % sizeT)

/-- The cells of the two loops of `resize` with a value, whose bounds are met. -/
def fillCells (m : Matrix α) (columns rows : ℕ) : List (ℕ × ℕ) :=
  cells (span (min m.nbrow rows) (max m.nbrow rows + 1)) (span 0 (max m.nbcol columns + 1)) ++
    cells (span 0 (max m.nbrow rows + 1)) (span (min m.nbcol columns) (max m.nbcol columns + 1))

/-- `value->clone()`, through a pointer that may be null. -/
def cloneOf (value : Option α) : Except Fault α :=
  match value with
  | some v => .ok v
  | none => .error .null

/-- `resize` with a value. -/
def resizeFill (memory : ℕ) (m : Matrix α) (columns rows : ℕ) (value : Option α) :
    Except Fault (Matrix α) :=
  if columns * rows % sizeT = 0 then .ok { m with nbcol := columns, nbrow := rows }
  else do
    let m ← m.makeRoom memory columns rows
    let v ← cloneOf value
    let m ← m.writeCells (m.fillCells columns rows) (some v)
    return { m with nbcol := columns, nbrow := rows }

/-! ## What `resize` promises -/

/-- The pointer in a cell, when the cell is inside the buffer. -/
def cell (m : Matrix α) (column row : ℕ) : Option (Option α) :=
  m.matrix[position m.nbcolmax column row]?

/-- The buffer has the cells that the capacities say, and the sizes are within the capacities. -/
structure WellFormed (m : Matrix α) : Prop where
  columns : m.nbcol ≤ m.nbcolmax
  rows : m.nbrow ≤ m.nbrowmax
  length : m.matrix.length = m.nbcolmax * m.nbrowmax
  small : m.matrix.length ≤ maxSize

/-- After a `resize` the cells that are in the old area too hold what they held, and the others are
null. -/
def Resized (m m' : Matrix α) (columns rows : ℕ) : Prop :=
  m'.nbcol = columns ∧ m'.nbrow = rows ∧ m'.WellFormed ∧
    ∀ c r, c < columns → r < rows →
      m'.cell c r = if c < m.nbcol ∧ r < m.nbrow then m.cell c r else some none

/-- What `resize` promises: it resizes the matrix, or refuses to with an exception when there is no
memory for the sizes with the steps. It accesses nothing outside of the buffer. -/
def Keeps (memory : ℕ) (m : Matrix α) (columns rows : ℕ) : Prop :=
  match m.resize memory columns rows with
  | .ok m' => m.Resized m' columns rows
  | .error e => (∃ what, e = .thrown what) ∧
      min memory maxSize < (columns + m.stepcol) * (rows + m.steprow)

/-- `reserve` moves the cells to another buffer. -/
def Moves (memory : ℕ) (m : Matrix α) (columnmax rowmax : ℕ) : Prop :=
  columnmax * rowmax % sizeT ≠ 0 ∧ columnmax * rowmax % sizeT ≤ min memory maxSize ∧
    ¬ (columnmax ≤ m.nbcolmax ∧ rowmax ≤ m.nbrowmax)

/-- A buffer that `reserve` moves the cells to has place for the area. -/
def ReserveFits (memory : ℕ) (m : Matrix α) (columnmax rowmax : ℕ) : Prop :=
  m.Moves memory columnmax rowmax →
    columnmax * rowmax < sizeT ∧ m.nbcol ≤ columnmax ∧ m.nbrow ≤ rowmax

/-- The old area fits in a buffer with other capacities: all its rows, and of each row all cells. Where
a row has more, the last one does not reach past the end of the buffer, and the cells of the next rows
that it takes are null if they are to be kept. -/
def OldFits (m : Matrix α) (columns rows columnmax rowmax : ℕ) : Prop :=
  m.nbrow ≤ rowmax ∧ (columnmax < m.nbcol →
    (max m.nbrow rows - 1) * columnmax + m.nbcol ≤ columnmax * rowmax ∧
    ∀ c r, r + 1 < min m.nbrow rows → c < columns → c + columnmax < m.nbcol →
      m.cell c (r + 1) = some none)

/-- The sizes fit: those with a null product are within the capacities, and otherwise the sizes with the
steps do not wrap around, and the old area fits in the buffer if the cells move to another one. -/
def ResizeFits (memory : ℕ) (m : Matrix α) (columns rows : ℕ) : Prop :=
  let columnmax := (columns + m.stepcol) % sizeT
  let rowmax := (rows + m.steprow) % sizeT
  if columns * rows % sizeT = 0 then columns ≤ m.nbcolmax ∧ rows ≤ m.nbrowmax
  else m.nbcolmax ≤ columns ∨ m.nbrowmax ≤ rows →
    (columnmax * rowmax % sizeT ≠ 0 → columnmax ≤ m.nbcolmax ∧ rowmax ≤ m.nbrowmax →
      columns ≤ m.nbcolmax ∧ rows ≤ m.nbrowmax) ∧
    (m.Moves memory columnmax rowmax → columns ≤ columnmax ∧ rows ≤ rowmax ∧
      columnmax * rowmax < sizeT ∧ m.OldFits columns rows columnmax rowmax)

/-! ## Places -/

@[simp] theorem mem_span {i first last : ℕ} : i ∈ span first last ↔ first ≤ i ∧ i < last := by
  simp only [span, List.mem_range'_1]
  omega

@[simp] theorem mem_cells {rows columns : List ℕ} {c r : ℕ} :
    (c, r) ∈ cells rows columns ↔ r ∈ rows ∧ c ∈ columns := by
  simp [cells]

/-- A loop goes through its cells row after row. -/
theorem cells_ordered (a b c d : ℕ) : (cells (span a b) (span c d)).Pairwise fun p q =>
    p.2 < q.2 ∨ p.2 = q.2 ∧ p.1 < q.1 := by
  rw [cells, List.pairwise_flatMap]
  constructor
  · intro r _
    rw [List.pairwise_map]
    exact (List.pairwise_lt_range' (s := c) (n := d - c)).imp fun h => .inr ⟨rfl, h⟩
  · refine (List.pairwise_lt_range' (s := a) (n := b - a)).imp fun h => ?_
    intro p hp q hq
    obtain ⟨_, _, rfl⟩ := List.mem_map.mp hp
    obtain ⟨_, _, rfl⟩ := List.mem_map.mp hq
    exact .inl h

/-- A cell within the capacities has a place in the buffer. -/
theorem place_lt {stride height c r : ℕ} (hc : c < stride) (hr : r < height) :
    r * stride + c < stride * height := by
  calc r * stride + c < r * stride + stride := by omega
    _ = (r + 1) * stride := by ring
    _ ≤ height * stride := Nat.mul_le_mul_right _ hr
    _ = stride * height := Nat.mul_comm _ _

/-- A place before the end of a row is that of no cell of a later row. -/
theorem row_le_of_place {stride c r c' r' : ℕ} (hc : c < stride)
    (h : r' * stride + c' = r * stride + c) : r' ≤ r := by
  by_contra hlt
  have : (r + 1) * stride ≤ r' * stride := Nat.mul_le_mul_right _ (by omega)
  rw [Nat.add_mul, Nat.one_mul] at this
  omega

theorem maxSize_lt : maxSize < sizeT := by decide

/-- A place that does not wrap around. -/
theorem position_eq {stride c r : ℕ} (h : r * stride + c ≤ maxSize) :
    position stride c r = r * stride + c :=
  Nat.mod_eq_of_lt (lt_of_le_of_lt h maxSize_lt)

/-- A vector is allocated when there is memory. -/
theorem allocate_eq_ok {memory size : ℕ} {s : List (Option α)} :
    allocate memory size = .ok s ↔ size ≤ min memory maxSize ∧ s = List.replicate size none := by
  unfold allocate
  split_ifs with h₁ h₂
  · simp [h₁]
  · simp [h₂]
  · simp [not_lt.mp h₁, not_lt.mp h₂, eq_comm]

/-- A vector is refused with an exception. -/
theorem allocate_eq_error {memory size : ℕ} {e : Fault}
    (h : allocate (α := α) memory size = .error e) :
    (∃ what, e = .thrown what) ∧ min memory maxSize < size := by
  unfold allocate at h
  split_ifs at h with h₁ h₂
  · cases h
    exact ⟨⟨_, rfl⟩, lt_of_le_of_lt (min_le_right _ _) h₁⟩
  · cases h
    exact ⟨⟨_, rfl⟩, lt_of_le_of_lt (min_le_left _ _) h₂⟩

namespace WellFormed

variable {m : Matrix α}

/-- The place of a cell within the capacities. -/
theorem position (h : m.WellFormed) {c r : ℕ} (hc : c < m.nbcolmax) (hr : r < m.nbrowmax) :
    position m.nbcolmax c r = r * m.nbcolmax + c ∧ r * m.nbcolmax + c < m.matrix.length := by
  have hlt := place_lt hc hr
  rw [← h.length] at hlt
  exact ⟨position_eq (hlt.le.trans h.small), hlt⟩

/-- There is a pointer in each cell of the area. -/
theorem exists_cell (h : m.WellFormed) {c r : ℕ} (hc : c < m.nbcol) (hr : r < m.nbrow) :
    ∃ p, m.cell c r = some p := by
  obtain ⟨heq, hlt⟩ := h.position (lt_of_lt_of_le hc h.columns) (lt_of_lt_of_le hr h.rows)
  rw [cell, heq]
  exact ⟨_, List.getElem?_eq_getElem hlt⟩

end WellFormed

/-! ## `reserve` -/

/-- The writes of the moves of `reserve`. -/
def moved (m : Matrix α) (columnmax : ℕ) : List (ℕ × Option α) :=
  (m.moves columnmax).map fun w => (w.2, (m.matrix[w.1]?).getD none)

theorem mem_moves {m : Matrix α} {columnmax : ℕ} {w : ℕ × ℕ} : w ∈ m.moves columnmax ↔
    ∃ c r, c < m.nbcol ∧ r < m.nbrow ∧
      w = (Matrix.position m.nbcolmax c r, Matrix.position columnmax c r) := by
  simp only [moves, List.mem_map, Prod.exists, mem_cells, mem_span, Nat.zero_le, true_and]
  constructor
  · rintro ⟨c, r, ⟨hr, hc⟩, rfl⟩
    exact ⟨c, r, hc, hr, rfl⟩
  · rintro ⟨c, r, hc, hr, rfl⟩
    exact ⟨c, r, ⟨hr, hc⟩, rfl⟩

/-- The places from which `reserve` moves are different ones. -/
theorem WellFormed.nodup_moves {m : Matrix α} (h : m.WellFormed) (columnmax : ℕ) :
    ((m.moves columnmax).map Prod.fst).Nodup := by
  rw [moves, List.map_map, List.Nodup, List.pairwise_map]
  refine (cells_ordered 0 m.nbrow 0 m.nbcol).imp_of_mem fun {p q} hp hq hpq heq => ?_
  obtain ⟨c, r⟩ := p
  obtain ⟨c', r'⟩ := q
  simp only [mem_cells, mem_span] at hp hq
  simp only [Function.comp_apply] at hpq heq
  have hc : c < m.nbcolmax := lt_of_lt_of_le hp.2.2 h.columns
  rw [(h.position hc (lt_of_lt_of_le hp.1.2 h.rows)).1,
    (h.position (lt_of_lt_of_le hq.2.2 h.columns) (lt_of_lt_of_le hq.1.2 h.rows)).1] at heq
  have := row_le_of_place hc heq.symm
  rcases hpq with hlt | ⟨rfl, hlt⟩
  · omega
  · omega

/-- `reserve`, when it moves the cells. -/
theorem reserve_of_moves {m : Matrix α} (h : m.WellFormed) {memory columnmax rowmax : ℕ}
    (hmoves : m.Moves memory columnmax rowmax) :
    m.reserve memory columnmax rowmax =
      (writeAll .outOfRange (m.moved columnmax)
        (List.replicate (columnmax * rowmax % sizeT) none) >>= fun tmp =>
          .ok { m with matrix := tmp, nbcolmax := columnmax, nbrowmax := rowmax }) := by
  obtain ⟨hne, hsize, hgrow⟩ := hmoves
  have hinside : ∀ w ∈ m.moves columnmax,
      m.matrix[w.1]? = some ((m.matrix[w.1]?).getD none) := fun w hw => by
    obtain ⟨c, r, hc, hr, rfl⟩ := mem_moves.mp hw
    obtain ⟨p, hcell⟩ := h.exists_cell hc hr
    rw [cell] at hcell
    rw [hcell, Option.getD_some]
  have hmove := moveAll_eq Fault.outOfRange none (fun i => (m.matrix[i]?).getD none)
    (List.replicate (columnmax * rowmax % sizeT) none) hinside (h.nodup_moves columnmax)
  rw [reserve, if_neg hne, if_neg hgrow, allocate_eq_ok.mpr ⟨hsize, rfl⟩, moved, ← hmove]
  simp only [Except.ok_bind]
  cases moveAll Fault.outOfRange none (m.moves columnmax) m.matrix
      (List.replicate (columnmax * rowmax % sizeT) none) with
  | error e => rfl
  | ok s => rfl

/-- The places that `reserve` writes when the old area fits. -/
theorem position_of_fits {m : Matrix α} {columns rows columnmax rowmax : ℕ}
    (hsmall : columnmax * rowmax ≤ maxSize) (hfits : m.OldFits columns rows columnmax rowmax)
    {c r : ℕ} (hc : c < m.nbcol) (hr : r < m.nbrow) :
    Matrix.position columnmax c r = r * columnmax + c ∧ r * columnmax + c < columnmax * rowmax := by
  have hlt : r * columnmax + c < columnmax * rowmax := by
    rcases Nat.lt_or_ge c columnmax with hcc | hcc
    · exact place_lt hcc (lt_of_lt_of_le hr hfits.1)
    · have hlast := (hfits.2 (by omega)).1
      have : r * columnmax ≤ (max m.nbrow rows - 1) * columnmax := Nat.mul_le_mul_right _ (by omega)
      omega
  exact ⟨position_eq (by omega), hlt⟩

/-- When the old area fits, `reserve` keeps the cells that the rows of the new buffer have. -/
theorem reserve_of_fits {m : Matrix α} (h : m.WellFormed) {memory columns rows columnmax rowmax : ℕ}
    (hmoves : m.Moves memory columnmax rowmax) (hwrap : columnmax * rowmax < sizeT)
    (hfits : m.OldFits columns rows columnmax rowmax) :
    ∃ tmp, m.reserve memory columnmax rowmax =
        .ok { m with matrix := tmp, nbcolmax := columnmax, nbrowmax := rowmax } ∧
      tmp.length = columnmax * rowmax ∧
      ∀ c r, c < columnmax → c < m.nbcol → r < m.nbrow → tmp[r * columnmax + c]? = m.cell c r := by
  have hmod : columnmax * rowmax % sizeT = columnmax * rowmax := Nat.mod_eq_of_lt hwrap
  have hsmall : columnmax * rowmax ≤ maxSize := by
    have := hmoves.2.1
    rw [hmod] at this
    exact this.trans (min_le_right _ _)
  have hinside : ∀ w ∈ m.moved columnmax,
      w.1 < (List.replicate (columnmax * rowmax) (none : Option α)).length := fun w hw => by
    obtain ⟨w', hw', rfl⟩ := List.mem_map.mp hw
    obtain ⟨c, r, hc, hr, rfl⟩ := mem_moves.mp hw'
    obtain ⟨heq, hlt⟩ := position_of_fits hsmall hfits hc hr
    rw [List.length_replicate]
    exact heq ▸ hlt
  obtain ⟨tmp, htmp⟩ := exists_writeAll Fault.outOfRange hinside
  have hlen := length_of_writeAll htmp
  rw [List.length_replicate] at hlen
  refine ⟨tmp, ?_, hlen, fun c r hcc hc hr => ?_⟩
  · rw [reserve_of_moves h hmoves, hmod, htmp]
    rfl
  · -- the moves after that of the cell are to other places: they come from later cells
    obtain ⟨before, after, hsplit⟩ := List.append_of_mem (a := (c, r))
      (mem_cells.mpr ⟨mem_span.mpr ⟨Nat.zero_le r, hr⟩, mem_span.mpr ⟨Nat.zero_le c, hc⟩⟩)
    have hlater := (List.pairwise_append.mp (hsplit ▸ cells_ordered 0 m.nbrow 0 m.nbcol)).2.1
    rw [List.pairwise_cons] at hlater
    have hmem : ∀ q ∈ after, q.1 < m.nbcol ∧ q.2 < m.nbrow := fun q hq => by
      have hcells : (q.1, q.2) ∈ cells (span 0 m.nbrow) (span 0 m.nbcol) := by
        rw [hsplit]
        exact List.mem_append_right _ (List.mem_cons_of_mem _ hq)
      simp only [mem_cells, mem_span] at hcells
      exact ⟨hcells.2.2, hcells.1.2⟩
    rw [moved, moves, hsplit, List.map_append, List.map_append, List.map_cons, List.map_cons] at htmp
    have hplace := (position_of_fits hsmall hfits hc hr).1
    have hcell := writeAll_last htmp fun v hv => ?_
    · obtain ⟨p, hp⟩ := h.exists_cell hc hr
      rw [hplace] at hcell
      rw [hcell, hp]
      rw [cell] at hp
      rw [hp, Option.getD_some]
    · obtain ⟨w, hw, rfl⟩ := List.mem_map.mp hv
      obtain ⟨q, hq, rfl⟩ := List.mem_map.mp hw
      obtain ⟨hqc, hqr⟩ := hmem q hq
      dsimp only
      rw [hplace, (position_of_fits hsmall hfits hqc hqr).1]
      intro heq
      have := row_le_of_place hcc heq
      rcases hlater.1 q hq with hlt | ⟨hrow, hlt⟩
      · omega
      · dsimp only at hrow hlt
        rw [← hrow] at heq
        omega

/-! ## `resize` -/

/-- Writing to the cells that a loop meets. -/
theorem writeCells_spec {m m' : Matrix α} {ps : List (ℕ × ℕ)} {p : Option α}
    (h : m.writeCells ps p = .ok m') : ∃ s, m' = { m with matrix := s } ∧
      s.length = m.matrix.length ∧
      (∀ c r, (c, r) ∈ ps → Matrix.position m.nbcolmax c r < m.matrix.length ∧
        s[Matrix.position m.nbcolmax c r]? = some p) ∧
      ∀ k, (∀ c r, (c, r) ∈ ps → Matrix.position m.nbcolmax c r ≠ k) → s[k]? = m.matrix[k]? := by
  obtain ⟨s, hs, hm'⟩ := Except.bind_eq_ok.mp h
  cases hm'
  refine ⟨s, rfl, length_of_writeAll hs, fun c r hp => ⟨?_, ?_⟩, fun k hk => ?_⟩
  · exact inside_of_writeAll hs _ (List.mem_map.mpr ⟨(c, r), hp, rfl⟩)
  · refine writeAll_const hs (fun w hw _ => ?_) ⟨_, List.mem_map.mpr ⟨(c, r), hp, rfl⟩, rfl⟩
    obtain ⟨q, -, rfl⟩ := List.mem_map.mp hw
    rfl
  · refine writeAll_apart hs fun w hw => ?_
    obtain ⟨q, hq, rfl⟩ := List.mem_map.mp hw
    exact hk q.1 q.2 hq

/-- Writing to cells goes wrong in one way only. -/
theorem writeCells_error {m : Matrix α} {ps : List (ℕ × ℕ)} {p : Option α} {e : Fault}
    (h : m.writeCells ps p = .error e) : e = .outOfRange := by
  unfold writeCells at h
  cases hs : writeAll Fault.outOfRange (ps.map fun q => (Matrix.position m.nbcolmax q.1 q.2, p))
      m.matrix with
  | ok s =>
    rw [hs] at h
    cases h
  | error e' =>
    rw [hs] at h
    cases h
    exact (writeAll_eq_error hs).1

theorem mem_resetCells {m : Matrix α} {columns rows c r : ℕ} : (c, r) ∈ m.resetCells columns rows ↔
    c < max m.nbcol columns ∧ r < max m.nbrow rows ∧
      (min m.nbrow rows ≤ r ∨ min m.nbcol columns ≤ c) := by
  simp only [resetCells, List.mem_append, mem_cells, mem_span]
  omega

section Reset

variable {m : Matrix α} {columns rows : ℕ} (hsmall : m.matrix.length ≤ maxSize)
  (hlast : (max m.nbrow rows - 1) * m.nbcolmax + max m.nbcol columns ≤ m.matrix.length)

include hsmall hlast

/-- The places that the loops of `resize` clear, when the last one is inside the buffer. -/
theorem position_of_reset {c r : ℕ} (hc : c < max m.nbcol columns) (hr : r < max m.nbrow rows) :
    Matrix.position m.nbcolmax c r = r * m.nbcolmax + c ∧
      r * m.nbcolmax + c < m.matrix.length := by
  have : r * m.nbcolmax ≤ (max m.nbrow rows - 1) * m.nbcolmax :=
    Nat.mul_le_mul_right _ (by omega)
  exact ⟨position_eq (by omega), by omega⟩

/-- The loops of `resize` end when the last place is inside the buffer. -/
theorem exists_reset : ∃ m', m.writeCells (m.resetCells columns rows) none = .ok m' := by
  have hinside : ∀ w ∈ (m.resetCells columns rows).map fun q =>
      (Matrix.position m.nbcolmax q.1 q.2, (none : Option α)), w.1 < m.matrix.length := fun w hw => by
    obtain ⟨⟨c, r⟩, hq, rfl⟩ := List.mem_map.mp hw
    rw [mem_resetCells] at hq
    obtain ⟨heq, hlt⟩ := position_of_reset hsmall hlast hq.1 hq.2.1
    dsimp only
    rwa [heq]
  obtain ⟨s, hs⟩ := exists_writeAll Fault.outOfRange hinside
  exact ⟨_, Except.bind_eq_ok.mpr ⟨s, hs, rfl⟩⟩

/-- A cell of the new area after the loops of `resize`: it is cleared when it is not in the old area, and
also when a row of the old area reaches it that is longer than those of the buffer. -/
theorem cell_of_reset {m' : Matrix α} (hrun : m.writeCells (m.resetCells columns rows) none = .ok m')
    (hcolumns : columns ≤ m.nbcolmax) {c r : ℕ} (hc : c < columns) (hr : r < rows) :
    m'.cell c r = if (c < m.nbcol ∧ r < m.nbrow) ∧ ¬ (0 < r ∧ c + m.nbcolmax < m.nbcol) then m.cell c r
      else some none := by
  obtain ⟨s, rfl, -, hhit, hmiss⟩ := writeCells_spec hrun
  have hplace := (position_of_reset hsmall hlast (c := c) (r := r) (by omega) (by omega)).1
  unfold cell
  dsimp only
  split_ifs with hkept
  · refine hmiss _ fun c' r' hreset heq => ?_
    rw [mem_resetCells] at hreset
    rw [(position_of_reset hsmall hlast hreset.1 hreset.2.1).1, hplace] at heq
    have hle := row_le_of_place (lt_of_lt_of_le hc hcolumns) heq
    rcases Nat.lt_or_eq_of_le hle with hlt | rfl
    · -- the cell of an earlier row is past the end of the row
      obtain ⟨d, rfl⟩ : ∃ d, r = r' + 1 + d := ⟨r - (r' + 1), by omega⟩
      have : (r' + 1 + d) * m.nbcolmax = r' * m.nbcolmax + m.nbcolmax + d * m.nbcolmax := by ring
      omega
    · omega
  · by_cases hold : c < m.nbcol ∧ r < m.nbrow
    · -- the row before reaches it
      have hover : 0 < r ∧ c + m.nbcolmax < m.nbcol := by
        by_contra h
        exact hkept ⟨hold, h⟩
      obtain ⟨r, rfl⟩ : ∃ r', r = r' + 1 := ⟨r - 1, by omega⟩
      have hreset : (c + m.nbcolmax, r) ∈ m.resetCells columns rows := by
        rw [mem_resetCells]
        omega
      have hcell := (hhit _ _ hreset).2
      rw [mem_resetCells] at hreset
      rw [(position_of_reset hsmall hlast hreset.1 hreset.2.1).1] at hcell
      rw [hplace, ← hcell]
      congr 1
      ring
    · exact (hhit c r (mem_resetCells.mpr (by omega))).2

end Reset

/-- The capacities that `resize` asks for, when they wrap around or are too large, are more than the
memory. -/
theorem lt_of_wrapped {memory a b : ℕ} (hpos : 0 < a * b)
    (h : (a % sizeT) * (b % sizeT) % sizeT = 0 ∨
      min memory maxSize < (a % sizeT) * (b % sizeT) % sizeT) : min memory maxSize < a * b := by
  rw [← Nat.mul_mod] at h
  rcases h with h | h
  · have hle := Nat.le_of_dvd hpos (Nat.dvd_of_mod_eq_zero h)
    exact lt_of_le_of_lt (min_le_right _ _) (lt_of_lt_of_le maxSize_lt hle)
  · exact lt_of_lt_of_le h (Nat.mod_le _ _)

/-- `resize` with a null product. -/
theorem keeps_of_null {m : Matrix α} (h : m.WellFormed) {memory columns rows : ℕ}
    (hnull : columns * rows % sizeT = 0) :
    m.Keeps memory columns rows ↔ columns ≤ m.nbcolmax ∧ rows ≤ m.nbrowmax := by
  unfold Keeps resize
  rw [if_pos hnull]
  constructor
  · rintro ⟨-, -, hwell, -⟩
    exact ⟨hwell.columns, hwell.rows⟩
  · rintro ⟨hc, hr⟩
    refine ⟨rfl, rfl, ⟨hc, hr, h.length, h.small⟩, fun c r hcc hrr => ?_⟩
    -- there is no cell: the product is that of sizes within the capacities, so it does not wrap
    have hle : columns * rows ≤ maxSize := by
      have := Nat.mul_le_mul hc hr
      rw [← h.length] at this
      exact this.trans h.small
    rw [Nat.mod_eq_of_lt (lt_of_le_of_lt hle maxSize_lt)] at hnull
    have := Nat.mul_pos (lt_of_le_of_lt (Nat.zero_le _) hcc) (lt_of_le_of_lt (Nat.zero_le _) hrr)
    omega

/-- `resize` after it has found a buffer. -/
theorem keeps_of_room {m m₁ : Matrix α} {memory columns rows : ℕ}
    (hpos : columns * rows % sizeT ≠ 0) (hroom : m.makeRoom memory columns rows = .ok m₁) :
    m.Keeps memory columns rows ↔ ∃ m₂, m₁.writeCells (m₁.resetCells columns rows) none = .ok m₂ ∧
      m.Resized { m₂ with nbcol := columns, nbrow := rows } columns rows := by
  unfold Keeps resize
  rw [if_neg hpos, hroom, Except.ok_bind]
  cases hrun : m₁.writeCells (m₁.resetCells columns rows) none with
  | ok m₂ => simp
  | error e =>
    rw [writeCells_error hrun]
    simp

/-- `resize` when no buffer is allocated. -/
theorem keeps_of_refused {m : Matrix α} {memory columns rows : ℕ} {e : Fault}
    (hpos : columns * rows % sizeT ≠ 0) (hroom : m.makeRoom memory columns rows = .error e) :
    m.Keeps memory columns rows ↔ (∃ what, e = .thrown what) ∧
      min memory maxSize < (columns + m.stepcol) * (rows + m.steprow) := by
  unfold Keeps resize
  rw [if_neg hpos, hroom, Except.error_bind]

/-- `resize` in the same buffer. -/
theorem keeps_of_same {m : Matrix α} (h : m.WellFormed) {memory columns rows : ℕ}
    (hpos : columns * rows % sizeT ≠ 0) (hroom : m.makeRoom memory columns rows = .ok m) :
    m.Keeps memory columns rows ↔ columns ≤ m.nbcolmax ∧ rows ≤ m.nbrowmax := by
  rw [keeps_of_room hpos hroom]
  constructor
  · rintro ⟨m₂, hrun, -, -, hwell, -⟩
    obtain ⟨s, rfl, -⟩ := writeCells_spec hrun
    exact ⟨hwell.columns, hwell.rows⟩
  · rintro ⟨hc, hr⟩
    have hpos' : 0 < rows := Nat.pos_of_ne_zero fun h0 => hpos (by rw [h0, Nat.mul_zero]; rfl)
    have hlast : (max m.nbrow rows - 1) * m.nbcolmax + max m.nbcol columns ≤ m.matrix.length := by
      have hcols := h.columns
      have hrows := h.rows
      rw [h.length, Nat.mul_comm m.nbcolmax]
      calc (max m.nbrow rows - 1) * m.nbcolmax + max m.nbcol columns
          ≤ (max m.nbrow rows - 1) * m.nbcolmax + m.nbcolmax := by omega
        _ = (max m.nbrow rows - 1 + 1) * m.nbcolmax := by ring
        _ ≤ m.nbrowmax * m.nbcolmax := Nat.mul_le_mul_right _ (by omega)
    obtain ⟨m₂, hrun⟩ := exists_reset h.small hlast
    refine ⟨m₂, hrun, ?_⟩
    have hcell := fun c r => cell_of_reset (c := c) (r := r) h.small hlast hrun hc
    obtain ⟨s, rfl, hlen, -⟩ := writeCells_spec hrun
    refine ⟨rfl, rfl, ⟨hc, hr, hlen.trans h.length, hlen.symm ▸ h.small⟩, fun c r hcc hrr => ?_⟩
    refine (hcell c r hcc hrr).trans ?_
    have : ¬ (0 < r ∧ c + m.nbcolmax < m.nbcol) := by
      have := h.columns
      omega
    simp only [this, not_false_eq_true, and_true]

/-- `resize` in a new buffer. -/
theorem keeps_of_moves {m : Matrix α} (h : m.WellFormed) {memory columns rows columnmax rowmax : ℕ}
    (hpos : columns * rows % sizeT ≠ 0)
    (hroom : m.makeRoom memory columns rows = m.reserve memory columnmax rowmax)
    (hmoves : m.Moves memory columnmax rowmax) :
    m.Keeps memory columns rows ↔ columns ≤ columnmax ∧ rows ≤ rowmax ∧
      columnmax * rowmax < sizeT ∧ m.OldFits columns rows columnmax rowmax := by
  have hcpos : 0 < columns := Nat.pos_of_ne_zero fun h0 => hpos (by rw [h0, Nat.zero_mul]; rfl)
  have hrpos : 0 < rows := Nat.pos_of_ne_zero fun h0 => hpos (by rw [h0, Nat.mul_zero]; rfl)
  constructor
  · intro hkeeps
    -- the moves succeed: otherwise it goes wrong in a way that is not an exception
    have hreserve := reserve_of_moves h hmoves
    cases hrun : writeAll Fault.outOfRange (m.moved columnmax)
        (List.replicate (columnmax * rowmax % sizeT) none) with
    | error e =>
      rw [hrun] at hreserve
      rw [keeps_of_refused hpos (hroom.trans hreserve), (writeAll_eq_error hrun).1] at hkeeps
      obtain ⟨⟨what, hwhat⟩, -⟩ := hkeeps
      cases hwhat
    | ok tmp =>
      rw [hrun] at hreserve
      have htmp := length_of_writeAll hrun
      rw [List.length_replicate] at htmp
      obtain ⟨m₂, hreset, -, -, hwell, hcells⟩ :=
        (keeps_of_room hpos (hroom.trans hreserve)).mp hkeeps
      obtain ⟨s, rfl, hlen, hhit, -⟩ := writeCells_spec hreset
      have hc : columns ≤ columnmax := hwell.columns
      have hr : rows ≤ rowmax := hwell.rows
      have hmod : columnmax * rowmax % sizeT = columnmax * rowmax := by
        rw [← htmp]
        exact hlen.symm.trans hwell.length
      have hwrap : columnmax * rowmax < sizeT := by
        rw [← hmod]
        exact Nat.mod_lt _ (by decide)
      have hplace : ∀ c r, c < max m.nbcol columns → r < max m.nbrow rows →
          (min m.nbrow rows ≤ r ∨ min m.nbcol columns ≤ c) →
          r * columnmax + c ≠ columnmax * rowmax := fun c r hcc hrr hor heq => by
        have hlt := (hhit c r (mem_resetCells.mpr ⟨hcc, hrr, hor⟩)).1
        dsimp only at hlt
        rw [Matrix.position, heq, hmod, htmp, hmod] at hlt
        exact lt_irrefl _ hlt
      have hrows : m.nbrow ≤ rowmax := by
        by_contra hlt
        refine hplace 0 rowmax (by omega) (by omega) (by omega) ?_
        rw [Nat.add_zero, Nat.mul_comm]
      refine ⟨hc, hr, hwrap, hrows, fun hlong => ⟨?_, fun c r hrr hcc hover => ?_⟩⟩
      · -- otherwise the second loop meets the end of the buffer in its last row
        by_contra hlast
        obtain ⟨d, hd⟩ : ∃ d, rowmax = max m.nbrow rows + d := ⟨rowmax - max m.nbrow rows, by omega⟩
        have hsum : columnmax * rowmax =
            (max m.nbrow rows - 1) * columnmax + (columnmax + columnmax * d) := by
          obtain ⟨k, hk⟩ : ∃ k, max m.nbrow rows = k + 1 := ⟨max m.nbrow rows - 1, by omega⟩
          rw [hd, hk, Nat.add_sub_cancel]
          ring
        have hd0 : 0 ≤ columnmax * d := Nat.zero_le _
        exact hplace (columnmax + columnmax * d) (max m.nbrow rows - 1) (by omega) (by omega)
          (by omega) hsum.symm
      · -- the second loop clears the cells that a row has past the end of a row of the buffer
        have hkept := hcells c (r + 1) hcc (by omega)
        rw [if_pos ⟨by omega, by omega⟩] at hkept
        rw [← hkept]
        have hcleared := (hhit (c + columnmax) r (mem_resetCells.mpr (by
          dsimp only
          omega))).2
        dsimp only at hcleared
        rw [cell, ← hcleared]
        unfold Matrix.position
        dsimp only
        congr 2
        ring
  · rintro ⟨hc, hr, hwrap, hfits⟩
    obtain ⟨tmp, hreserve, htmp, hkept⟩ := reserve_of_fits h hmoves hwrap hfits
    have hmod : columnmax * rowmax % sizeT = columnmax * rowmax := Nat.mod_eq_of_lt hwrap
    have hsmall : tmp.length ≤ maxSize := by
      have := hmoves.2.1
      rw [hmod, ← htmp] at this
      exact this.trans (min_le_right _ _)
    rw [keeps_of_room hpos (hroom.trans hreserve)]
    have hrows := hfits.1
    have hlast : (max m.nbrow rows - 1) * columnmax + max m.nbcol columns ≤ tmp.length := by
      rw [htmp]
      rcases Nat.lt_or_ge columnmax m.nbcol with hlong | hshort
      · have := (hfits.2 hlong).1
        omega
      · have : (max m.nbrow rows - 1) * columnmax + (columnmax - 1) < columnmax * rowmax :=
          place_lt (by omega) (by omega)
        omega
    obtain ⟨m₂, hreset⟩ := exists_reset
      (m := { m with matrix := tmp, nbcolmax := columnmax, nbrowmax := rowmax }) hsmall hlast
    refine ⟨m₂, hreset, ?_⟩
    have hcell := fun c r => cell_of_reset (c := c) (r := r)
      (m := { m with matrix := tmp, nbcolmax := columnmax, nbrowmax := rowmax }) hsmall hlast hreset hc
    obtain ⟨s, rfl, hlen, -⟩ := writeCells_spec hreset
    refine ⟨rfl, rfl, ⟨hc, hr, hlen.trans htmp, hlen.symm ▸ hsmall⟩, fun c r hcc hrr => ?_⟩
    refine (hcell c r hcc hrr).trans ?_
    dsimp only
    by_cases hold : c < m.nbcol ∧ r < m.nbrow
    · have hplace : (Matrix.cell { m with matrix := tmp, nbcolmax := columnmax, nbrowmax := rowmax } c r)
          = m.cell c r := by
        rw [← hkept c r (by omega) hold.1 hold.2, cell]
        dsimp only
        rw [position_eq]
        have : r * columnmax + c < columnmax * rowmax := place_lt (by omega) (by omega)
        omega
      rw [hplace, if_pos hold]
      split_ifs with hover
      · rfl
      · obtain ⟨hr0, hlong⟩ : 0 < r ∧ c + columnmax < m.nbcol := by
          by_contra hno
          exact hover ⟨hold, hno⟩
        obtain ⟨r, rfl⟩ : ∃ r', r = r' + 1 := ⟨r - 1, by omega⟩
        exact ((hfits.2 (by omega)).2 c r (by omega) hcc hlong).symm
    · rw [if_neg hold, if_neg fun hboth => hold hboth.1]

/-- What `resize` promises holds exactly when the sizes fit. -/
theorem keeps_iff {m : Matrix α} (h : m.WellFormed) {memory columns rows : ℕ} :
    m.Keeps memory columns rows ↔ m.ResizeFits memory columns rows := by
  unfold ResizeFits
  by_cases hpos : columns * rows % sizeT = 0
  · rw [if_pos hpos]
    exact keeps_of_null h hpos
  rw [if_neg hpos]
  set columnmax := (columns + m.stepcol) % sizeT with hcolumnmax
  set rowmax := (rows + m.steprow) % sizeT with hrowmax
  by_cases hgrow : m.nbcolmax ≤ columns ∨ m.nbrowmax ≤ rows
  · have hroom : m.makeRoom memory columns rows = m.reserve memory columnmax rowmax := if_pos hgrow
    have hcpos : 0 < columns := Nat.pos_of_ne_zero fun h0 => hpos (by rw [h0, Nat.zero_mul]; rfl)
    have hrpos : 0 < rows := Nat.pos_of_ne_zero fun h0 => hpos (by rw [h0, Nat.mul_zero]; rfl)
    have hsteps : 0 < (columns + m.stepcol) * (rows + m.steprow) := Nat.mul_pos (by omega) (by omega)
    rw [forall_prop_of_true hgrow]
    by_cases hnull : columnmax * rowmax % sizeT = 0
    · have hreserve : m.reserve memory columnmax rowmax = .error _ := if_pos hnull
      rw [keeps_of_refused hpos (hroom.trans hreserve)]
      exact iff_of_true ⟨⟨_, rfl⟩, lt_of_wrapped hsteps (.inl hnull)⟩
        ⟨fun hne => absurd hnull hne, fun hmoves => absurd hnull hmoves.1⟩
    by_cases hsame : columnmax ≤ m.nbcolmax ∧ rowmax ≤ m.nbrowmax
    · have hreserve : m.reserve memory columnmax rowmax = .ok m := by
        rw [reserve, if_neg hnull, if_pos hsame]
      rw [keeps_of_same h hpos (hroom.trans hreserve)]
      exact ⟨fun hfits => ⟨fun _ _ => hfits, fun hmoves => absurd hsame hmoves.2.2⟩,
        fun hfits => hfits.1 hnull hsame⟩
    by_cases hsize : columnmax * rowmax % sizeT ≤ min memory maxSize
    · have hmoves : m.Moves memory columnmax rowmax := ⟨hnull, hsize, hsame⟩
      rw [keeps_of_moves h hpos hroom hmoves, forall_prop_of_true hmoves]
      exact (and_iff_right fun _ h' => absurd h' hsame).symm
    · cases hvector : allocate (α := α) memory (columnmax * rowmax % sizeT) with
      | ok tmp => exact absurd (allocate_eq_ok.mp hvector).1 hsize
      | error e =>
        have hreserve : m.reserve memory columnmax rowmax = .error e := by
          rw [reserve, if_neg hnull, if_neg hsame, hvector]
          rfl
        obtain ⟨hwhat, hlt⟩ := allocate_eq_error hvector
        rw [keeps_of_refused hpos (hroom.trans hreserve)]
        exact iff_of_true ⟨hwhat, lt_of_wrapped hsteps (.inr hlt)⟩
          ⟨fun _ h' => absurd h' hsame, fun hmoves => absurd hmoves.2.1 hsize⟩
  · have hroom : m.makeRoom memory columns rows = .ok m := if_neg hgrow
    rw [keeps_of_same h hpos hroom]
    exact iff_of_true ⟨by omega, by omega⟩ fun h' => absurd h' hgrow

/-! ## Runs -/

/-- How a matrix is built. -/
inductive Construction where
  | empty
  | ofSizes (columns rows resizeColumns resizeRows : ℕ)
  | ofCapacities (columns rows columnmax rowmax resizeColumns resizeRows : ℕ)
  deriving DecidableEq, Repr

/-- The constructors. -/
def Construction.build (memory : ℕ) : Construction → Except Fault (Matrix α)
  | .empty => Matrix.empty memory
  | .ofSizes columns rows resizeColumns resizeRows =>
    Matrix.ofSizes memory columns rows resizeColumns resizeRows
  | .ofCapacities columns rows columnmax rowmax resizeColumns resizeRows =>
    Matrix.ofCapacities memory columns rows columnmax rowmax resizeColumns resizeRows

/-- The capacities that a constructor asks for do not wrap around. -/
def Construction.Fits : Construction → Prop
  | .empty => True
  | .ofSizes columns rows _ _ => columns * rows < sizeT
  | .ofCapacities _ _ columnmax rowmax _ _ => columnmax * rowmax < sizeT

/-- What is done with a matrix. -/
inductive Event (α : Type) where
  | resize (columns rows : ℕ)
  | increaseAllocation (columns rows : ℕ)
  | addColumn
  | addRow
  | reserve (columnmax rowmax : ℕ)
  | add (column row : ℕ) (val : Option α)
  | set (column row : ℕ) (val : Option α)
  | give (column row : ℕ)
  | addToLastCell (val : Option α)
  | moveLastCell
  | clear
  | clone
  deriving DecidableEq, Repr

/-- The operations. -/
def Event.run (memory : ℕ) (m : Matrix α) : Event α → Except Fault (Matrix α)
  | .resize columns rows => m.resize memory columns rows
  | .increaseAllocation columns rows => m.increaseAllocation memory columns rows
  | .addColumn => m.addColumn memory
  | .addRow => m.addRow memory
  | .reserve columnmax rowmax => m.reserve memory columnmax rowmax
  | .add column row val => m.add column row val
  | .set column row val => m.set column row val
  | .give column row => Prod.snd <$> m.give column row
  | .addToLastCell val => m.addToLastCell val
  | .moveLastCell => .ok m.moveLastCell
  | .clear => .ok m.clear
  | .clone => m.clone memory

/-- The matrix after an operation. One that throws leaves the matrix as it is, and there is none after an
access outside of the buffer. -/
def next (memory : ℕ) (m : Matrix α) (e : Event α) : Option (Matrix α) :=
  match e.run memory m with
  | .ok m' => some m'
  | .error (.thrown _) => some m
  | .error _ => none

/-- The sizes that an operation gives to `resize`. -/
def Event.sizes (m : Matrix α) : Event α → Option (ℕ × ℕ)
  | .resize columns rows => some (columns, rows)
  | .increaseAllocation columns rows => some (max m.nbcol columns, max m.nbrow rows)
  | .addColumn => some ((m.nbcol + 1) % sizeT, m.nbrow)
  | .addRow => some (m.nbcol, (m.nbrow + 1) % sizeT)
  | _ => none

/-- Something is true of the sizes that an operation gives to `resize`, if it does. -/
def OfSizes (p : Matrix α → ℕ → ℕ → Prop) (m : Matrix α) (e : Event α) : Prop :=
  ∀ columns rows, e.sizes m = some (columns, rows) → p m columns rows

/-- A `reserve` of the run fits. -/
def ReserveEventFits (memory : ℕ) (m : Matrix α) (e : Event α) : Prop :=
  ∀ columnmax rowmax, e = .reserve columnmax rowmax → m.ReserveFits memory columnmax rowmax

/-- An operation that resizes is `resize` with its sizes. -/
theorem run_of_sizes {memory : ℕ} {m : Matrix α} {e : Event α} {columns rows : ℕ}
    (h : e.sizes m = some (columns, rows)) : e.run memory m = m.resize memory columns rows := by
  cases e <;> cases h <;> rfl

/-- A matrix that is built is well formed, when its capacities do not wrap around. -/
theorem wellFormed_of_build {memory : ℕ} {k : Construction} {m : Matrix α}
    (hbuild : k.build memory = .ok m) (hfits : k.Fits) : m.WellFormed := by
  cases k with
  | empty =>
    obtain ⟨s, hs, hm⟩ := Except.bind_eq_ok.mp hbuild
    obtain ⟨hsize, rfl⟩ := allocate_eq_ok.mp hs
    cases hm
    refine ⟨Nat.zero_le _, Nat.zero_le _, List.length_replicate, ?_⟩
    rw [List.length_replicate]
    exact hsize.trans (min_le_right _ _)
  | ofSizes columns rows resizeColumns resizeRows =>
    obtain ⟨s, hs, hm⟩ := Except.bind_eq_ok.mp hbuild
    obtain ⟨hsize, rfl⟩ := allocate_eq_ok.mp hs
    cases hm
    have hmod : columns * rows % sizeT = columns * rows := Nat.mod_eq_of_lt hfits
    refine ⟨le_rfl, le_rfl, by rw [List.length_replicate, hmod], ?_⟩
    rw [List.length_replicate]
    exact hsize.trans (min_le_right _ _)
  | ofCapacities columns rows columnmax rowmax resizeColumns resizeRows =>
    obtain ⟨s, hs, hm⟩ := Except.bind_eq_ok.mp hbuild
    obtain ⟨hsize, rfl⟩ := allocate_eq_ok.mp hs
    have hmod : columnmax * rowmax % sizeT = columnmax * rowmax := Nat.mod_eq_of_lt hfits
    split_ifs at hm with h₁ h₂ h₃
    · cases hm
      refine ⟨not_lt.mp h₂, not_lt.mp h₃, by rw [List.length_replicate, hmod], ?_⟩
      rw [List.length_replicate]
      exact hsize.trans (min_le_right _ _)

/-- An assignment of a cell keeps a matrix well formed. -/
theorem WellFormed.assign {m m' : Matrix α} (h : m.WellFormed) {column row : ℕ} {p : Option α}
    (hrun : m.assign column row p = .ok m') : m'.WellFormed := by
  obtain ⟨s, hs, hm'⟩ := Except.bind_eq_ok.mp hrun
  obtain ⟨-, rfl⟩ := write_eq_ok.mp hs
  cases hm'
  exact ⟨h.columns, h.rows, by rw [List.length_set, h.length], by rw [List.length_set]; exact h.small⟩

/-- A `reserve` that fits keeps a matrix well formed. -/
theorem WellFormed.reserve {m m' : Matrix α} (h : m.WellFormed) {memory columnmax rowmax : ℕ}
    (hfits : m.ReserveFits memory columnmax rowmax)
    (hrun : m.reserve memory columnmax rowmax = .ok m') : m'.WellFormed := by
  by_cases hmoves : m.Moves memory columnmax rowmax
  · obtain ⟨hwrap, hc, hr⟩ := hfits hmoves
    rw [reserve_of_moves h hmoves] at hrun
    obtain ⟨s, hs, hm'⟩ := Except.bind_eq_ok.mp hrun
    have hlen := length_of_writeAll hs
    rw [List.length_replicate] at hlen
    cases hm'
    refine ⟨hc, hr, ?_, ?_⟩
    · exact hlen.trans (Nat.mod_eq_of_lt hwrap)
    · exact hlen ▸ hmoves.2.1.trans (min_le_right _ _)
  · unfold Matrix.reserve at hrun
    split_ifs at hrun with hnull hsame
    · cases hrun
      exact h
    · obtain ⟨s, hs, -⟩ := Except.bind_eq_ok.mp hrun
      exact absurd ⟨hnull, (allocate_eq_ok.mp hs).1, hsame⟩ hmoves

/-- Every operation keeps a matrix well formed when its sizes fit. -/
theorem WellFormed.next {m m' : Matrix α} (h : m.WellFormed) {memory : ℕ} {e : Event α}
    (hreserve : m.ReserveEventFits memory e) (hresize : OfSizes (Matrix.ResizeFits memory) m e)
    (hnext : m.next memory e = some m') : m'.WellFormed := by
  have hok : ∀ m₁, e.run memory m = .ok m₁ → m₁.WellFormed := fun m₁ hrun => by
    have hresized : ∀ columns rows, e.sizes m = some (columns, rows) → m₁.WellFormed :=
      fun columns rows hsizes => by
        have hkeeps := (keeps_iff h).mpr (hresize columns rows hsizes)
        rw [run_of_sizes hsizes] at hrun
        rw [Keeps, hrun] at hkeeps
        exact hkeeps.2.2.1
    cases e with
    | resize columns rows => exact hresized _ _ rfl
    | increaseAllocation columns rows => exact hresized _ _ rfl
    | addColumn => exact hresized _ _ rfl
    | addRow => exact hresized _ _ rfl
    | reserve columnmax rowmax => exact h.reserve (hreserve _ _ rfl) hrun
    | add column row val =>
      obtain ⟨_, -, hrun⟩ := Except.bind_eq_ok.mp hrun
      exact h.assign hrun
    | set column row val =>
      obtain ⟨_, -, hrun⟩ := Except.bind_eq_ok.mp hrun
      exact h.assign hrun
    | give column row =>
      cases hgive : m.give column row with
      | error f =>
        rw [Event.run, hgive] at hrun
        cases hrun
      | ok s =>
        rw [Event.run, hgive] at hrun
        cases hrun
        obtain ⟨_, -, hgive⟩ := Except.bind_eq_ok.mp hgive
        obtain ⟨_, -, hgive⟩ := Except.bind_eq_ok.mp hgive
        obtain ⟨m₂, hassign, hs⟩ := Except.bind_eq_ok.mp hgive
        cases hs
        exact h.assign hassign
    | addToLastCell val => exact h.assign hrun
    | moveLastCell =>
      cases hrun
      unfold moveLastCell
      dsimp only
      split_ifs <;> exact ⟨h.columns, h.rows, h.length, h.small⟩
    | clear =>
      cases hrun
      exact ⟨h.columns, h.rows, by rw [Matrix.clear, List.length_map, h.length],
        by rw [Matrix.clear, List.length_map]; exact h.small⟩
    | clone =>
      obtain ⟨_, -, hm₁⟩ := Except.bind_eq_ok.mp hrun
      cases hm₁
      exact ⟨h.columns, h.rows, h.length, h.small⟩
  unfold Matrix.next at hnext
  split at hnext
  · next m₁ hrun =>
    cases hnext
    exact hok _ hrun
  · cases hnext
    exact h
  · cases hnext

/-- Along a run every `resize` does what it promises exactly when the sizes of each fit, if the
constructor and each `reserve` fit. -/
theorem keeps_along_iff {memory : ℕ} {k : Construction} {m : Matrix α} (hbuild : k.build memory = .ok m)
    (hfits : k.Fits) {es : List (Event α)}
    (hreserve : Along (Matrix.next memory) (Matrix.ReserveEventFits memory) m es) :
    Along (Matrix.next memory) (OfSizes (Matrix.Keeps memory)) m es ↔
      Along (Matrix.next memory) (OfSizes (Matrix.ResizeFits memory)) m es :=
  along_iff (fun _ _ (h : WellFormed _) _ => forall₃_congr fun _ _ _ => keeps_iff h)
    (fun _ _ _ h hreserve hresize hnext => h.next hreserve hresize hnext)
    (wellFormed_of_build hbuild hfits) hreserve

theorem keeps_along_iff_sample : ∃ m : Matrix ℕ,
    (Construction.ofSizes 2 2 1 1).build 100 = .ok m ∧ (Construction.ofSizes 2 2 1 1).Fits ∧
      Along (Matrix.next 100) (Matrix.ReserveEventFits 100) m [.set 0 0 (some 7), .resize 3 4] ∧
      (Along (Matrix.next 100) (OfSizes (Matrix.Keeps 100)) m [.set 0 0 (some 7), .resize 3 4] ↔
        Along (Matrix.next 100) (OfSizes (Matrix.ResizeFits 100)) m
          [.set 0 0 (some 7), .resize 3 4]) := by
  have hbuild : (Construction.ofSizes 2 2 1 1).build (α := ℕ) 100 =
      .ok ⟨List.replicate 4 none, 2, 2, 2, 2, 1, 1, 0, 0⟩ := rfl
  have hreserve : ∀ m : Matrix ℕ, Along (Matrix.next 100) (Matrix.ReserveEventFits 100) m
      [.set 0 0 (some 7), .resize 3 4] := fun m =>
    ⟨fun _ _ h => (by cases h), fun _ _ => ⟨fun _ _ h => (by cases h), fun _ _ => trivial⟩⟩
  have hfits : (Construction.ofSizes 2 2 1 1).Fits := by
    unfold Construction.Fits sizeT
    decide
  exact ⟨_, hbuild, hfits, hreserve _, keeps_along_iff hbuild hfits (hreserve _)⟩

/-- A resize of a 3 × 3 matrix to 4 columns and 1 row moves its cells to a buffer of 2 rows, past the
end of it. -/
theorem not_keeps_along : ∃ m : Matrix ℕ, (Construction.ofSizes 3 3 1 1).build 100 = .ok m ∧
    ¬ Along (Matrix.next 100) (OfSizes (Matrix.Keeps 100)) m [.resize 4 1] := by
  refine ⟨⟨List.replicate 9 none, 3, 3, 3, 3, 1, 1, 0, 0⟩, rfl, fun halong => ?_⟩
  have hkeeps := halong.1 4 1 rfl
  have hrun : Matrix.resize (α := ℕ) 100 ⟨List.replicate 9 none, 3, 3, 3, 3, 1, 1, 0, 0⟩ 4 1 =
      .error .outOfRange := rfl
  rw [Keeps, hrun] at hkeeps
  obtain ⟨⟨what, hwhat⟩, -⟩ := hkeeps
  cases hwhat

/-! ## `resize` with a value -/

/-- The loops of `resize` with a value come to a cell: all those before it are inside the buffer. -/
def FillWrites (memory : ℕ) (m : Matrix α) (columns rows : ℕ) (p : ℕ × ℕ) : Prop :=
  columns * rows % sizeT ≠ 0 ∧ ∃ m₁, m.makeRoom memory columns rows = .ok m₁ ∧
    ∃ before after, m₁.fillCells columns rows = before ++ p :: after ∧
      ∀ q ∈ before, position m₁.nbcolmax q.1 q.2 < m₁.matrix.length

/-- What `resize` with a value is to do: to give the matrix its sizes, to keep the old cells, and to
write the value in the cells of the new area that are not in the old one and in no other. -/
def Fills (memory : ℕ) (m : Matrix α) (columns rows : ℕ) (v : α) : Prop :=
  ∃ m', m.resizeFill memory columns rows (some v) = .ok m' ∧ m'.nbcol = columns ∧ m'.nbrow = rows ∧
    (∀ c r, c < columns → r < rows →
      m'.cell c r = if c < m.nbcol ∧ r < m.nbrow then m.cell c r else some (some v)) ∧
    ∀ c r, m.FillWrites memory columns rows (c, r) ↔
      (c < columns ∧ r < rows) ∧ ¬ (c < m.nbcol ∧ r < m.nbrow)

/-- When `resize` with a value returns, its loops came to the cell below the first column. -/
theorem fillWrites_below {m m' : Matrix α} {memory columns rows : ℕ} {v : α}
    (hpos : columns * rows % sizeT ≠ 0)
    (hrun : m.resizeFill memory columns rows (some v) = .ok m') :
    m.FillWrites memory columns rows (0, rows) := by
  rw [resizeFill, if_neg hpos] at hrun
  obtain ⟨m₁, hroom, hrun⟩ := Except.bind_eq_ok.mp hrun
  rw [cloneOf, Except.ok_bind] at hrun
  obtain ⟨m₂, hwrite, -⟩ := Except.bind_eq_ok.mp hrun
  obtain ⟨s, -, -, hhit, -⟩ := writeCells_spec hwrite
  have hmem : (0, rows) ∈ m₁.fillCells columns rows := by
    simp only [fillCells, List.mem_append, mem_cells, mem_span]
    omega
  obtain ⟨before, after, hsplit⟩ := List.append_of_mem hmem
  refine ⟨hpos, m₁, hroom, before, after, hsplit, fun q hq => ?_⟩
  refine (hhit q.1 q.2 ?_).1
  rw [hsplit]
  exact List.mem_append_left _ hq

/-- `resize` with a value never does what it is to do: its bounds take it out of the new area. -/
theorem not_fills {m : Matrix α} (h : m.WellFormed) (memory : ℕ) {columns rows : ℕ}
    (hcpos : 0 < columns) (hrpos : 0 < rows) (hc : m.nbcol ≤ columns) (hr : m.nbrow ≤ rows) (v : α) :
    ¬ m.Fills memory columns rows v := by
  rintro ⟨m', hrun, -, -, -, hwrites⟩
  by_cases hnull : columns * rows % sizeT = 0
  · -- the product wraps around, so the sizes are other ones, and nothing is written
    have hnew : ¬ (columns - 1 < m.nbcol ∧ rows - 1 < m.nbrow) := fun hold => by
      have hle : columns * rows ≤ maxSize := by
        have hcols := h.columns
        have hrows := h.rows
        have := Nat.mul_le_mul (show columns ≤ m.nbcolmax by omega) (show rows ≤ m.nbrowmax by omega)
        rw [← h.length] at this
        exact this.trans h.small
      rw [Nat.mod_eq_of_lt (lt_of_le_of_lt hle maxSize_lt)] at hnull
      have := Nat.mul_pos hcpos hrpos
      omega
    exact ((hwrites (columns - 1) (rows - 1)).mpr ⟨⟨by omega, by omega⟩, hnew⟩).1 hnull
  · exact lt_irrefl rows ((hwrites 0 rows).mp (fillWrites_below hnull hrun)).1.2

theorem not_fills_sample : ∃ m : Matrix ℕ, m.WellFormed ∧ 0 < 2 ∧ 0 < 3 ∧ m.nbcol ≤ 2 ∧ m.nbrow ≤ 3 ∧
    ¬ m.Fills 100 2 3 9 := by
  have hwell : (⟨[some 1], 1, 1, 1, 1, 1, 1, 0, 0⟩ : Matrix ℕ).WellFormed :=
    ⟨by decide, by decide, rfl, by decide⟩
  exact ⟨_, hwell, by decide, by decide, by decide, by decide,
    not_fills hwell 100 (by decide) (by decide) (by decide) (by decide) 9⟩

/-- A column more for a 1 × 2 matrix, in a buffer whose rows have just that: the value goes past the end
of the first row, over the second cell of the matrix. -/
theorem resizeFill_loses_cell : ∃ m m' : Matrix ℕ, m.WellFormed ∧ m.nbcol = 1 ∧ m.nbrow = 2 ∧
    m.resizeFill 100 2 2 (some 9) = .ok m' ∧ m.cell 0 1 = some (some 2) ∧ m'.cell 0 1 = some (some 9) ∧
    ¬ m.Fills 100 2 2 9 := by
  have hrun : Matrix.resizeFill 100 ⟨[some 1, some 2], 1, 2, 1, 2, 0, 2, 0, 0⟩ 2 2 (some 9) =
      .ok ⟨[some 1, some 9, some 9, some 9, some 9, some 9, some 9, none], 2, 2, 2, 4, 0, 2, 0, 0⟩ := rfl
  refine ⟨_, _, ⟨by decide, by decide, rfl, by decide⟩, rfl, rfl, hrun, rfl, rfl, ?_⟩
  rintro ⟨m', hrun', -, -, hcells, -⟩
  rw [hrun] at hrun'
  cases hrun'
  have hcell := hcells 0 1 (by decide) (by decide)
  revert hcell
  decide

end Matrix

end Vle
