import Mathlib.Tactic

/-!
# Grids in a flat storage

A grid whose rows start `stride` places apart in a storage of `size` places. The index of a place is
computed modulo `modulus`, which a storage is far from. `housed_iff` says which grids are in their
storage: the last place is, and a row does not reach into the next one.
-/

namespace Vle.Lib.Grid

/-- The place of a pair of indices. -/
def place (modulus stride column row : ℕ) : ℕ := (row * stride + column) % modulus

/-- Each pair of indices of a grid has a place of its own in the storage. -/
structure Housed (modulus stride size columns rows : ℕ) : Prop where
  inside : ∀ c r, c < columns → r < rows → place modulus stride c r < size
  distinct : ∀ c r c' r', c < columns → r < rows → c' < columns → r' < rows →
    place modulus stride c r = place modulus stride c' r' → c = c' ∧ r = r'

/-- The storage has the last place of a grid, and a row ends before the next one starts. -/
def Packed (stride size columns rows : ℕ) : Prop :=
  columns = 0 ∨ rows = 0 ∨
    (rows - 1) * stride + columns ≤ size ∧ (columns ≤ stride ∨ rows = 1)

theorem place_mod (modulus stride column row : ℕ) :
    place modulus (stride % modulus) column row = place modulus stride column row := by
  simp only [place, Nat.add_mod, Nat.mul_mod, Nat.mod_mod]

variable {modulus stride size columns rows : ℕ}

/-- Rows that are as long as the stride do not share a place. -/
theorem flat_inj {c r c' r' : ℕ} (hc : c < stride) (hc' : c' < stride)
    (h : r * stride + c = r' * stride + c') : c = c' ∧ r = r' := by
  have hmod : (r * stride + c) % stride = (r' * stride + c') % stride := by rw [h]
  rw [Nat.mul_add_mod_of_lt hc, Nat.mul_add_mod_of_lt hc'] at hmod
  subst hmod
  exact ⟨rfl, Nat.eq_of_mul_eq_mul_right (by omega) (Nat.add_right_cancel h)⟩

/-- The places of the rows are below the product. -/
theorem flat_lt {c r : ℕ} (hc : c < columns) (hr : r < rows) : r * columns + c < rows * columns := by
  have : (r + 1) * columns ≤ rows * columns := Nat.mul_le_mul_right _ hr
  rw [Nat.add_mul, Nat.one_mul] at this
  omega

/-- The places of the rows, one row after the other, are all the places below the product. -/
theorem flat_range (columns rows : ℕ) :
    ((List.range rows).flatMap fun r => (List.range columns).map fun c => r * columns + c) =
      List.range (rows * columns) := by
  induction rows with
  | zero => simp
  | succ rows ih =>
    rw [List.range_succ, List.flatMap_append, ih, List.flatMap_singleton, Nat.add_mul, Nat.one_mul,
      List.range_add]

/-- A place that does not wrap around. -/
theorem place_of_lt {c r : ℕ} (h : r * stride + c < modulus) :
    place modulus stride c r = r * stride + c :=
  Nat.mod_eq_of_lt h

/-- In a packed grid a pair of indices has the place that it should have. -/
theorem Packed.place_lt (h : Packed stride size columns rows) {c r : ℕ} (hc : c < columns)
    (hr : r < rows) : r * stride + c < size := by
  rcases h with h | h | ⟨hlast, -⟩
  · omega
  · omega
  · have : r * stride ≤ (rows - 1) * stride := Nat.mul_le_mul_right _ (by omega)
    omega

/-- In a packed grid a row ends before the next one starts. -/
theorem Packed.row_lt (h : Packed stride size columns rows) {c r c' r' : ℕ} (hc : c < columns)
    (hr' : r' < rows) (hlt : r < r') : r * stride + c < r' * stride + c' := by
  have hstride : columns ≤ stride := by
    rcases h with h | h | ⟨-, h | h⟩
    · omega
    · omega
    · exact h
    · omega
  have : (r + 1) * stride ≤ r' * stride := Nat.mul_le_mul_right _ hlt
  rw [Nat.add_mul, Nat.one_mul] at this
  omega

/-- The rows of a grid that is in its storage start inside of it, one stride after the other. -/
theorem Housed.row_start (h : Housed modulus stride size columns rows) (hstride : stride < modulus)
    (hsize : 2 * size ≤ modulus) (hcolumns : 0 < columns) {r : ℕ} (hr : r < rows) :
    r * stride < size := by
  have hfirst : place modulus stride 0 0 < size := h.inside 0 0 hcolumns (by omega)
  induction r with
  | zero => exact (Nat.zero_mul _).symm ▸ (Nat.zero_le _).trans_lt hfirst
  | succ r ih =>
    have hr₁ := ih (by omega)
    -- the second row starts one stride in, so the stride is small
    have hsecond := h.inside 0 1 hcolumns (by omega)
    rw [place_of_lt (by omega)] at hsecond
    have hnext := h.inside 0 (r + 1) hcolumns hr
    have heq : (r + 1) * stride = r * stride + stride := by ring
    rw [place_of_lt (by omega)] at hnext
    omega

/-- A grid is in its storage exactly when it is packed there. -/
theorem housed_iff (hstride : stride < modulus) (hsize : 2 * size ≤ modulus) :
    Housed modulus stride size columns rows ↔ Packed stride size columns rows := by
  constructor
  · intro h
    rcases Nat.eq_zero_or_pos columns with hc | hc
    · exact .inl hc
    rcases Nat.eq_zero_or_pos rows with hr | hr
    · exact .inr (.inl hr)
    have hlast := h.row_start hstride hsize hc (r := rows - 1) (by omega)
    -- the columns of the first row, whose places are their own numbers until they wrap around
    have hwidth : columns ≤ size := by
      by_contra hlt
      have hin := h.inside size 0 (by omega) hr
      rw [place_of_lt (by omega)] at hin
      omega
    have hend := h.inside (columns - 1) (rows - 1) (by omega) (by omega)
    rw [place_of_lt (by omega)] at hend
    refine .inr (.inr ⟨by omega, ?_⟩)
    by_contra hout
    have hsame := h.distinct stride 0 0 1 (by omega) hr hc (by omega)
    rw [place_of_lt (by omega), place_of_lt (by omega)] at hsame
    have := hsame (by omega)
    omega
  · intro h
    have hplace : ∀ c r, c < columns → r < rows →
        place modulus stride c r = r * stride + c ∧ r * stride + c < size := fun c r hc hr => by
      have := h.place_lt hc hr
      exact ⟨place_of_lt (by omega), this⟩
    refine ⟨fun c r hc hr => ?_, fun c r c' r' hc hr hc' hr' heq => ?_⟩
    · rw [(hplace c r hc hr).1]
      exact (hplace c r hc hr).2
    · rw [(hplace c r hc hr).1, (hplace c' r' hc' hr').1] at heq
      rcases Nat.lt_trichotomy r r' with hlt | rfl | hlt
      · exact absurd heq (h.row_lt hc hr' hlt).ne
      · exact ⟨by omega, rfl⟩
      · exact absurd heq.symm (h.row_lt hc' hr hlt).ne

/-- The same for a stride that is not yet reduced. -/
theorem housed_iff_mod (hmodulus : 0 < modulus) (hsize : 2 * size ≤ modulus) :
    Housed modulus stride size columns rows ↔ Packed (stride % modulus) size columns rows := by
  rw [← housed_iff (Nat.mod_lt _ hmodulus) hsize]
  constructor
  · rintro ⟨hin, hdistinct⟩
    exact ⟨by simpa only [place_mod] using hin, by simpa only [place_mod] using hdistinct⟩
  · rintro ⟨hin, hdistinct⟩
    exact ⟨by simpa only [place_mod] using hin, by simpa only [place_mod] using hdistinct⟩

end Vle.Lib.Grid
