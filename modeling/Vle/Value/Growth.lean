import Vle.Value.Matrix

/-!
# Matrices that grow

A matrix to which columns and rows are only added keeps its cells (`grow_run`): a buffer that is allocated
is larger than the one before, by the steps. As long as there is no row the columns may be more than the
buffer has place for, and the first row then finds a new buffer.
-/

namespace Vle.Matrix

open Lib Lib.Storage

variable {α : Type} {m m' : Matrix α} {memory columns rows : ℕ}

/-- What is true of a matrix that only grows. -/
structure Growing (m : Matrix α) : Prop where
  length : m.matrix.length = m.nbcolmax * m.nbrowmax
  small : m.matrix.length ≤ maxSize
  columns : m.nbcol ≤ m.nbcolmax ∨ m.nbrow = 0
  rows : m.nbrow ≤ m.nbrowmax
  wide : 0 < m.nbcol
  stepcol : 0 < m.stepcol
  steprow : 0 < m.steprow
  colmax : m.nbcolmax ≤ m.nbcol + m.stepcol
  rowmax : m.nbrowmax ≤ m.nbrow + m.steprow

/-- The capacities that the sizes ask for, when the buffer is too small for them, do not wrap around. -/
def Room (m : Matrix α) (columns rows : ℕ) : Prop :=
  columns < sizeT ∧ (0 < rows → m.nbcolmax ≤ columns ∨ m.nbrowmax ≤ rows →
    (columns + m.stepcol) * (rows + m.steprow) < sizeT)

/-- A matrix has grown: the cells that it had are kept, and the others are null. -/
structure Grown (m m' : Matrix α) (columns rows : ℕ) : Prop where
  growing : m'.Growing
  nbcol : m'.nbcol = columns
  nbrow : m'.nbrow = rows
  stepcol : m'.stepcol = m.stepcol
  steprow : m'.steprow = m.steprow
  cell : ∀ c r, c < columns → r < rows →
    m'.cell c r = if c < m.nbcol ∧ r < m.nbrow then m.cell c r else some none

theorem Growing.wellFormed (h : m.Growing) (hcolumns : m.nbcol ≤ m.nbcolmax) : m.WellFormed :=
  ⟨hcolumns, h.rows, h.length, h.small⟩

/-- The capacities that `reserve` leaves. -/
theorem capacities_of_reserve {columnmax rowmax : ℕ} (h : m.reserve memory columnmax rowmax = .ok m') :
    m' = m ∨ ∃ s, m' = { m with matrix := s, nbcolmax := columnmax, nbrowmax := rowmax } := by
  unfold reserve at h
  split_ifs at h
  · cases h
    exact .inl rfl
  · obtain ⟨tmp, -, h⟩ := Except.bind_eq_ok.mp h
    obtain ⟨moved, -, h⟩ := Except.bind_eq_ok.mp h
    cases h
    exact .inr ⟨_, rfl⟩

/-- The steps and the capacities that `resize` leaves. -/
theorem capacities_of_resize (h : m.resize memory columns rows = .ok m') :
    m'.stepcol = m.stepcol ∧ m'.steprow = m.steprow ∧
      ((m'.nbcolmax = m.nbcolmax ∧ m'.nbrowmax = m.nbrowmax) ∨
        (m.nbcolmax ≤ columns ∨ m.nbrowmax ≤ rows) ∧ m'.nbcolmax = (columns + m.stepcol) % sizeT ∧
          m'.nbrowmax = (rows + m.steprow) % sizeT) := by
  unfold resize at h
  split_ifs at h
  · cases h
    exact ⟨rfl, rfl, .inl ⟨rfl, rfl⟩⟩
  · obtain ⟨m₁, hroom, h⟩ := Except.bind_eq_ok.mp h
    obtain ⟨m₂, hcells, h⟩ := Except.bind_eq_ok.mp h
    obtain ⟨s, rfl, -⟩ := writeCells_spec hcells
    cases h
    unfold makeRoom at hroom
    split_ifs at hroom with hgrow
    · rcases capacities_of_reserve hroom with rfl | ⟨s', rfl⟩
      · exact ⟨rfl, rfl, .inl ⟨rfl, rfl⟩⟩
      · exact ⟨rfl, rfl, .inr ⟨hgrow, rfl, rfl⟩⟩
    · cases hroom
      exact ⟨rfl, rfl, .inl ⟨rfl, rfl⟩⟩

/-- The sizes with the steps do not wrap around either. -/
theorem Room.steps (h : m.Growing) (hroom : m.Room columns rows) (hrows : 0 < rows)
    (hgrow : m.nbcolmax ≤ columns ∨ m.nbrowmax ≤ rows) :
    (columns + m.stepcol) % sizeT = columns + m.stepcol ∧ (rows + m.steprow) % sizeT = rows + m.steprow := by
  have hlt := hroom.2 hrows hgrow
  have hc : columns + m.stepcol ≤ (columns + m.stepcol) * (rows + m.steprow) :=
    Nat.le_mul_of_pos_right _ (by omega)
  have hstep := h.stepcol
  have hr : rows + m.steprow ≤ (columns + m.stepcol) * (rows + m.steprow) :=
    Nat.le_mul_of_pos_left _ (by omega)
  exact ⟨Nat.mod_eq_of_lt (hc.trans_lt hlt), Nat.mod_eq_of_lt (hr.trans_lt hlt)⟩

/-- A resized matrix has grown. -/
theorem grown_of_resized (h : m.Growing) (hcolumns : m.nbcol ≤ columns) (hrows : m.nbrow ≤ rows)
    (hpos : 0 < rows) (hroom : m.Room columns rows) (hrun : m.resize memory columns rows = .ok m')
    (hwell : m'.WellFormed) (hsizes : m'.nbcol = columns ∧ m'.nbrow = rows)
    (hcell : ∀ c r, c < columns → r < rows →
      m'.cell c r = if c < m.nbcol ∧ r < m.nbrow then m.cell c r else some none) :
    m.Grown m' columns rows := by
  obtain ⟨hstepcol, hsteprow, hcapacities⟩ := capacities_of_resize hrun
  have hcolmax := h.colmax
  have hrowmax := h.rowmax
  refine ⟨⟨hwell.length, hwell.small, .inl hwell.columns, hwell.rows, ?_, ?_, ?_, ?_, ?_⟩, hsizes.1,
    hsizes.2, hstepcol, hsteprow, hcell⟩
  · rw [hsizes.1]
    exact h.wide.trans_le hcolumns
  · rw [hstepcol]
    exact h.stepcol
  · rw [hsteprow]
    exact h.steprow
  · rw [hsizes.1, hstepcol]
    rcases hcapacities with ⟨hsame, -⟩ | ⟨hgrow, hnew, -⟩
    · omega
    · exact (hnew.trans (hroom.steps h hpos hgrow).1).le
  · rw [hsizes.2, hsteprow]
    rcases hcapacities with ⟨-, hsame⟩ | ⟨hgrow, -, hnew⟩
    · omega
    · exact (hnew.trans (hroom.steps h hpos hgrow).2).le

/-- A matrix with a row, or with place for its columns, grows or lacks memory. -/
theorem grow_of_wellFormed (h : m.Growing) (hwell : m.WellFormed) (hcolumns : m.nbcol ≤ columns)
    (hrows : m.nbrow ≤ rows) (hpos : 0 < rows) (hproduct : columns * rows < sizeT)
    (hroom : m.Room columns rows) :
    (∃ what, m.resize memory columns rows = .error (.thrown what) ∧
      min memory maxSize < (columns + m.stepcol) * (rows + m.steprow)) ∨
    ∃ m', m.resize memory columns rows = .ok m' ∧ m.Grown m' columns rows := by
  have hwide := h.wide
  have hne : columns * rows % sizeT ≠ 0 := by
    rw [Nat.mod_eq_of_lt hproduct]
    exact (Nat.mul_pos (by omega) hpos).ne'
  have hkeeps : m.Keeps memory columns rows := by
    rw [keeps_iff hwell]
    unfold ResizeFits
    rw [if_neg hne]
    intro hgrow
    have hstepcol := h.stepcol
    have hsteprow := h.steprow
    have hcolmax := h.colmax
    have hrowmax := h.rowmax
    obtain ⟨hc, hr⟩ := hroom.steps h hpos hgrow
    rw [hc, hr]
    refine ⟨fun _ hle => ⟨by omega, by omega⟩, fun _ => ⟨by omega, by omega, hroom.2 hpos hgrow, ?_⟩⟩
    exact ⟨by omega, fun hlt => absurd hlt (by omega)⟩
  unfold Keeps at hkeeps
  cases hrun : m.resize memory columns rows with
  | error e =>
    rw [hrun] at hkeeps
    obtain ⟨⟨what, rfl⟩, hlt⟩ := hkeeps
    exact .inl ⟨what, rfl, hlt⟩
  | ok m' =>
    rw [hrun] at hkeeps
    obtain ⟨hc, hr, hwell', hcell⟩ := hkeeps
    exact .inr ⟨m', rfl, grown_of_resized h hcolumns hrows hpos hroom hrun hwell' ⟨hc, hr⟩ hcell⟩

/-- The buffer of a matrix without rows is replaced. -/
theorem reserve_of_null (memory : ℕ) {columnmax rowmax : ℕ} (hnull : m.nbrow = 0)
    (hgrow : ¬ (columnmax ≤ m.nbcolmax ∧ rowmax ≤ m.nbrowmax)) (hpos : 0 < columnmax * rowmax)
    (hlt : columnmax * rowmax < sizeT) :
    (∃ what, m.reserve memory columnmax rowmax = .error (.thrown what) ∧
      min memory maxSize < columnmax * rowmax) ∨
    (columnmax * rowmax ≤ maxSize ∧ m.reserve memory columnmax rowmax =
      .ok { m with
        matrix := List.replicate (columnmax * rowmax) none
        nbcolmax := columnmax
        nbrowmax := rowmax }) := by
  have hmoves : m.moves columnmax = [] := by
    unfold moves
    rw [hnull]
    rfl
  unfold reserve
  rw [Nat.mod_eq_of_lt hlt]
  rw [if_neg hpos.ne', if_neg hgrow]
  cases hvector : allocate (α := α) memory (columnmax * rowmax) with
  | error e =>
    obtain ⟨⟨what, rfl⟩, hlt⟩ := allocate_eq_error hvector
    exact .inl ⟨what, rfl, hlt⟩
  | ok tmp =>
    obtain ⟨hsize, rfl⟩ := allocate_eq_ok.mp hvector
    refine .inr ⟨hsize.trans (min_le_right _ _), ?_⟩
    rw [hmoves]
    rfl

/-- The first row of a matrix. -/
theorem grow_of_null (h : m.Growing) (hnull : m.nbrow = 0) (hcolumns : m.nbcol ≤ columns)
    (hpos : 0 < rows) (hproduct : columns * rows < sizeT) (hroom : m.Room columns rows) :
    (∃ what, m.resize memory columns rows = .error (.thrown what) ∧
      min memory maxSize < (columns + m.stepcol) * (rows + m.steprow)) ∨
    ∃ m', m.resize memory columns rows = .ok m' ∧ m.Grown m' columns rows := by
  have hwide := h.wide
  by_cases hgrow : m.nbcolmax ≤ columns ∨ m.nbrowmax ≤ rows
  · have hne : columns * rows % sizeT ≠ 0 := by
      rw [Nat.mod_eq_of_lt hproduct]
      exact (Nat.mul_pos (by omega) hpos).ne'
    have hstepcol := h.stepcol
    have hsteprow := h.steprow
    obtain ⟨hc, hr⟩ := hroom.steps h hpos hgrow
    have hmake : m.makeRoom memory columns rows = m.reserve memory (columns + m.stepcol) (rows + m.steprow) := by
      rw [makeRoom, if_pos hgrow, hc, hr]
    have hcapacities : 0 < (columns + m.stepcol) * (rows + m.steprow) := Nat.mul_pos (by omega) (by omega)
    rcases reserve_of_null memory hnull (by omega) hcapacities (hroom.2 hpos hgrow) with
      ⟨what, herror, hlt⟩ | ⟨hsize, hreserve⟩
    · refine .inl ⟨what, ?_, hlt⟩
      rw [resize, if_neg hne, hmake, herror]
      rfl
    · -- the new buffer has place for the sizes
      have hreserved := hmake.trans hreserve
      generalize hm₁ : ({ m with
        matrix := List.replicate ((columns + m.stepcol) * (rows + m.steprow)) none
        nbcolmax := columns + m.stepcol
        nbrowmax := rows + m.steprow } : Matrix α) = m₁ at hreserved
      have hwell : m₁.WellFormed := by
        subst hm₁
        exact ⟨by simp only; omega, by simp only; omega, by simp, by simpa using hsize⟩
      have hsame : m₁.makeRoom memory columns rows = .ok m₁ := by
        subst hm₁
        rw [makeRoom, if_neg (by simp only; omega)]
      have hrun : m.resize memory columns rows = m₁.resize memory columns rows := by
        rw [resize, if_neg hne, hreserved, resize, if_neg hne, hsame]
      have hkeeps := (keeps_of_same hwell hne hsame).mpr (by subst hm₁; exact ⟨by simp, by simp⟩)
      unfold Keeps at hkeeps
      cases hrun₁ : m₁.resize memory columns rows with
      | error e =>
        rw [hrun₁] at hkeeps
        obtain ⟨⟨what, rfl⟩, hlt⟩ := hkeeps
        refine .inl ⟨what, hrun.trans hrun₁, hlt.trans_le ?_⟩
        rw [← hm₁]
      | ok m' =>
        rw [hrun₁] at hkeeps
        obtain ⟨hcol, hrow, hwell', hcell⟩ := hkeeps
        have hrun' := hrun.trans hrun₁
        refine .inr ⟨m', hrun', grown_of_resized h hcolumns (by omega) hpos hroom hrun' hwell' ⟨hcol, hrow⟩ ?_⟩
        intro c r hcc hrr
        have hrow₁ : m₁.nbrow = 0 := by rw [← hm₁]; exact hnull
        rw [hcell c r hcc hrr, hrow₁, hnull]
        simp
  · refine grow_of_wellFormed h (h.wellFormed (by omega)) hcolumns (by omega) hpos hproduct hroom

/-- A matrix that only grows keeps its cells, unless there is no memory. -/
theorem grow_run (h : m.Growing) (hcolumns : m.nbcol ≤ columns) (hrows : m.nbrow ≤ rows)
    (hproduct : columns * rows < sizeT) (hroom : m.Room columns rows) :
    (∃ what, m.resize memory columns rows = .error (.thrown what) ∧
      min memory maxSize < (columns + m.stepcol) * (rows + m.steprow)) ∨
    ∃ m', m.resize memory columns rows = .ok m' ∧ m.Grown m' columns rows := by
  rcases Nat.eq_zero_or_pos rows with rfl | hpos
  · have hnull : m.nbrow = 0 := by omega
    refine .inr ⟨{ m with nbcol := columns, nbrow := 0 }, ?_, ⟨h.length, h.small, .inr rfl, Nat.zero_le _, ?_,
      h.stepcol, h.steprow, ?_, ?_⟩, rfl, rfl, rfl, rfl, fun c r _ hr => absurd hr (Nat.not_lt_zero _)⟩
    · rw [resize, if_pos (by rw [Nat.mul_zero]; rfl)]
    · exact h.wide.trans_le hcolumns
    · exact h.colmax.trans (Nat.add_le_add_right hcolumns _)
    · have := h.rowmax
      rw [hnull] at this
      exact this
  · rcases h.columns with hfits | hnull
    · exact grow_of_wellFormed h (h.wellFormed hfits) hcolumns hrows hpos hproduct hroom
    · exact grow_of_null h hnull hcolumns hpos hproduct hroom

/-- Rows and columns that are added one at a time do not make the product wrap around. -/
theorem product_lt (h : m.Growing) (hpos : 0 < m.nbrow) :
    (m.nbcol + 1) * m.nbrow < sizeT ∧ m.nbcol * (m.nbrow + 1) < sizeT := by
  have hwide := h.wide
  have hsmall : m.nbcol * m.nbrow ≤ maxSize := by
    have hcolumns := h.columns.resolve_right hpos.ne'
    exact (Nat.mul_le_mul hcolumns h.rows).trans (h.length ▸ h.small)
  have hmax : 2 * maxSize < sizeT := by decide
  have hr : m.nbrow ≤ m.nbcol * m.nbrow := Nat.le_mul_of_pos_left _ hwide
  have hc : m.nbcol ≤ m.nbcol * m.nbrow := Nat.le_mul_of_pos_right _ hpos
  rw [Nat.add_mul, Nat.mul_add]
  omega

/-- A column is added. -/
theorem addColumn_run (memory : ℕ) (h : m.Growing) (hroom : m.Room (m.nbcol + 1) m.nbrow) :
    (∃ what, m.addColumn memory = .error (.thrown what) ∧
      min memory maxSize < (m.nbcol + 1 + m.stepcol) * (m.nbrow + m.steprow)) ∨
    ∃ m', m.addColumn memory = .ok m' ∧ m.Grown m' (m.nbcol + 1) m.nbrow := by
  unfold addColumn
  rw [Nat.mod_eq_of_lt hroom.1]
  refine grow_run h (by omega) le_rfl ?_ hroom
  rcases Nat.eq_zero_or_pos m.nbrow with hnull | hpos
  · rw [hnull, Nat.mul_zero]
    decide
  · exact (product_lt h hpos).1

/-- A row is added. -/
theorem addRow_run (memory : ℕ) (h : m.Growing) (hroom : m.Room m.nbcol (m.nbrow + 1)) :
    (∃ what, m.addRow memory = .error (.thrown what) ∧
      min memory maxSize < (m.nbcol + m.stepcol) * (m.nbrow + 1 + m.steprow)) ∨
    ∃ m', m.addRow memory = .ok m' ∧ m.Grown m' m.nbcol (m.nbrow + 1) := by
  have hproduct : m.nbcol * (m.nbrow + 1) < sizeT := by
    rcases Nat.eq_zero_or_pos m.nbrow with hnull | hpos
    · rw [hnull, Nat.zero_add, Nat.mul_one]
      exact hroom.1
    · exact (product_lt h hpos).2
  have hlt : m.nbrow + 1 < sizeT := (Nat.le_mul_of_pos_left _ h.wide).trans_lt hproduct
  unfold addRow
  rw [Nat.mod_eq_of_lt hlt]
  exact grow_run h le_rfl (by omega) hproduct hroom

/-- A value is put in a cell, and the others are kept. -/
structure Put (m m' : Matrix α) (column row : ℕ) (val : Option α) : Prop where
  growing : m'.Growing
  nbcol : m'.nbcol = m.nbcol
  nbrow : m'.nbrow = m.nbrow
  stepcol : m'.stepcol = m.stepcol
  steprow : m'.steprow = m.steprow
  cell : m'.cell column row = some val
  apart : ∀ c r, c < m.nbcol → r < m.nbrow → ¬ (c = column ∧ r = row) → m'.cell c r = m.cell c r

/-- A value is put in a cell of the matrix. -/
theorem add_run (h : m.Growing) {column row : ℕ} (hcolumn : column < m.nbcol) (hrow : row < m.nbrow)
    (val : Option α) : ∃ m', m.add column row val = .ok m' ∧ m.Put m' column row val := by
  have hwell := h.wellFormed (h.columns.resolve_right (by omega))
  have hplace : ∀ {c r}, c < m.nbcol → r < m.nbrow →
      position m.nbcolmax c r = r * m.nbcolmax + c ∧ r * m.nbcolmax + c < m.matrix.length :=
    fun hc hr => hwell.position (hc.trans_le hwell.columns) (hr.trans_le hwell.rows)
  obtain ⟨heq, hlt⟩ := hplace hcolumn hrow
  have hrun : m.add column row val =
      .ok { m with matrix := m.matrix.set (position m.nbcolmax column row) val } := by
    rw [add, checkIndex, if_pos ⟨hcolumn, hrow.le⟩, Except.ok_bind, assign,
      write_eq_ok.mpr ⟨heq ▸ hlt, rfl⟩]
    rfl
  refine ⟨_, hrun, ⟨⟨?_, ?_, h.columns, h.rows, h.wide, h.stepcol, h.steprow, h.colmax, h.rowmax⟩, rfl, rfl, rfl, rfl, ?_,
    fun c r hc hr hne => ?_⟩⟩
  · rw [List.length_set]
    exact h.length
  · rw [List.length_set]
    exact h.small
  · exact List.getElem?_set_self (heq ▸ hlt)
  · refine List.getElem?_set_ne fun hsame => hne ?_
    rw [heq, (hplace hc hr).1] at hsame
    have hle := row_le_of_place (hcolumn.trans_le hwell.columns) hsame.symm
    have hge := row_le_of_place (hc.trans_le hwell.columns) hsame
    obtain rfl : r = row := by omega
    exact ⟨by omega, rfl⟩

/-- The matrix with which the growth starts. -/
theorem ofCapacities_run (memory : ℕ) {columnmax rowmax : ℕ} (hwide : 0 < columns)
    (hcolumns : columns ≤ columnmax) (hrows : rows ≤ rowmax) (hpos : 0 < rowmax)
    (hfits : columnmax * rowmax < sizeT) :
    (∃ what, ofCapacities (α := α) memory columns rows columnmax rowmax columnmax rowmax =
      .error (.thrown what) ∧ min memory maxSize < columnmax * rowmax) ∨
    ∃ m : Matrix α, ofCapacities memory columns rows columnmax rowmax columnmax rowmax = .ok m ∧ m.Growing ∧
      m.nbcol = columns ∧ m.nbrow = rows ∧ m.stepcol = columnmax ∧ m.steprow = rowmax := by
  have hne : columnmax * rowmax ≠ 0 := (Nat.mul_pos (by omega) hpos).ne'
  unfold ofCapacities
  rw [Nat.mod_eq_of_lt hfits]
  cases hvector : allocate (α := α) memory (columnmax * rowmax) with
  | error e =>
    obtain ⟨⟨what, rfl⟩, hlt⟩ := allocate_eq_error hvector
    exact .inl ⟨what, rfl, hlt⟩
  | ok tmp =>
    obtain ⟨hsize, rfl⟩ := allocate_eq_ok.mp hvector
    rw [Except.ok_bind, if_neg hne, if_neg (by omega), if_neg (by omega)]
    refine .inr ⟨_, rfl, ⟨List.length_replicate, ?_, .inl hcolumns, hrows, hwide, ?_, hpos,
      Nat.le_add_left _ _, Nat.le_add_left _ _⟩, rfl, rfl, rfl, rfl⟩
    · rw [List.length_replicate]
      exact hsize.trans (min_le_right _ _)
    · exact hwide.trans_le hcolumns

end Vle.Matrix
