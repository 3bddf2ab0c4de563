import Vle.Translator.Line

/-!
# Grids of models

What `make_2d` connects a grid with. A mask is applied to a position as on two lines when both axes wrap
or none does. When one axis only wraps, the loops skip each row or each column, and nothing is connected
(`connects_applyWrapMask_mixed`), which is right only where no cell of the mask meets the grid.
`make_iff` says for lines and grids when the connections are those of the mask.
-/

namespace Vle.Translator

open Lib Lib.EState Lib.Loops Devs

variable {V : Type} {E : Failure → Prop}

/-- The name of the model at a position of a grid. -/
def name2d (params : Parameter) (c r : ℤ) : String := (params.make_model ⟨c, r, -1⟩).1

/-- A cell of a mask. -/
def TwoDim.cell (mask : TwoDim String) (m n : ℕ) : String := mask.m_c.getD (n * mask.m_columns + m) ""

/-- What a cell of the mask connects the model at a position of a grid to. -/
def neighbour2d (params : Parameter) (length : ℤ × ℤ) (wrap : Bool × Bool) (mask : TwoDim String)
    (x_mask y_mask : ℤ) (c r m n : ℕ) : List (String × String × String × String) :=
  if mask.cell m n = "" then []
  else
    (target wrap.2 length.2 r (n - y_mask)).toList.flatMap fun p =>
      (target wrap.1 length.1 c (m - x_mask)).toList.map fun q =>
        connection params.type (name2d params c r) (name2d params q p) (mask.cell m n)

/-- The connections of a grid. -/
def graph2d (params : Parameter) (length : ℤ × ℤ) (wrap : Bool × Bool) (mask : TwoDim String)
    (x_mask y_mask : ℤ) : List (String × String × String × String) :=
  (List.range length.1.toNat).flatMap fun c => (List.range length.2.toNat).flatMap fun r =>
    (List.range mask.m_rows).flatMap fun n => (List.range mask.m_columns).flatMap fun m =>
      neighbour2d params length wrap mask x_mask y_mask c r m n

/-- The generator ends, and its connections are those of the grid. -/
def Builds2d (conditions : Conditions V) (params : Parameter) (length : ℤ × ℤ) (wrap : Bool × Bool)
    (mask : TwoDim String) (x_mask y_mask : ℤ) : Prop :=
  ∃ w, make2d conditions params length wrap mask x_mask y_mask
      ⟨[], TwoDim.ofSizes 0 0 "", -1⟩ = .ok ⟨⟩ w ∧
    (connections w.commands).Perm (graph2d params length wrap mask x_mask y_mask)

/-- The sizes are `int`s that can be multiplied and added, and the origin is that of a cell of the mask. -/
structure Sizes2d (length : ℤ × ℤ) (mask : TwoDim String) (x_mask y_mask : ℤ) : Prop where
  columns_pos : 0 < length.1
  rows_pos : 0 < length.2
  product : length.1 * length.2 ≤ intMax
  columns : length.1 - 1 + mask.m_columns ≤ intMax
  rows : length.2 - 1 + mask.m_rows ≤ intMax
  x_origin : 0 ≤ x_mask ∧ x_mask < mask.m_columns
  y_origin : 0 ≤ y_mask ∧ y_mask < mask.m_rows

/-- The sizes fit, and both axes wrap or none does, or the cells that connect are all too far from the
origin of the mask, along the axis that does not wrap, to meet the grid. -/
def Fits2d (length : ℤ × ℤ) (wrap : Bool × Bool) (mask : TwoDim String) (x_mask y_mask : ℤ) : Prop :=
  Sizes2d length mask x_mask y_mask ∧ (wrap.1 = wrap.2 ∨ ∀ m < mask.m_columns, ∀ n < mask.m_rows,
    mask.cell m n ≠ "" → if wrap.1 then length.2 ≤ |n - y_mask| else length.1 ≤ |m - x_mask|)

/-- The failures that the arguments are refused with. -/
def Refused (e : Failure) : Prop := ∃ what, e = .argError what

namespace TwoDim

variable {α : Type} {a : TwoDim α}

/-- The elements of an array that is not too large have places of their own. -/
theorem housed (hsize : 2 * (a.m_rows * a.m_columns) ≤ sizeType) (hrows : 0 < a.m_rows) :
    Grid.Housed sizeType a.m_columns a.m_c.length a.m_columns a.m_rows := by
  have hstride : a.m_columns ≤ a.m_rows * a.m_columns := Nat.le_mul_of_pos_left _ hrows
  have hpos : 0 < sizeType := by decide
  have hlength : a.m_c.length = a.m_rows * a.m_columns := by
    rw [a.size, Nat.mod_eq_of_lt (by omega)]
  rw [Grid.housed_iff (by omega) (by omega), hlength]
  refine .inr (.inr ⟨le_of_eq ?_, .inl le_rfl⟩)
  rw [← Nat.succ_mul, Nat.succ_eq_add_one, Nat.sub_add_cancel hrows]

/-- An element that there is. -/
theorem get_eq {c r : ℕ} (hc : c < a.m_columns) (hr : r < a.m_rows) :
    a.get c r = Storage.read .outOfRange a.m_c (a.place c r) :=
  if_neg (by omega)

/-- The elements of an array that is not too large are in its container. -/
theorem get_cell {a : TwoDim String} (hsize : 2 * (a.m_rows * a.m_columns) ≤ sizeType) {c r : ℕ}
    (hc : c < a.m_columns) (hr : r < a.m_rows) : a.get c r = .ok (a.cell c r) := by
  have hlt : r * a.m_columns + c < sizeType := by
    have := Nat.mul_le_mul_right a.m_columns (show r + 1 ≤ a.m_rows from hr)
    rw [Nat.add_mul, Nat.one_mul] at this
    omega
  have hin := (housed hsize (by omega)).inside c r hc hr
  rw [get_eq hc hr, Storage.read_eq_ok]
  unfold place cell
  rw [Grid.place_of_lt hlt] at hin ⊢
  rw [List.getElem?_eq_getElem hin, List.getD_eq_getElem _ _ hin]

/-- An assignment changes one element. -/
theorem assign_run (hsize : 2 * (a.m_rows * a.m_columns) ≤ sizeType) {c r : ℕ} (hc : c < a.m_columns)
    (hr : r < a.m_rows) (x : α) : ∃ a', a.assign c r x = .ok a' ∧ a'.m_columns = a.m_columns ∧
      a'.m_rows = a.m_rows ∧ a'.get c r = .ok x ∧
      ∀ c' < a.m_columns, ∀ r' < a.m_rows, (c' ≠ c ∨ r' ≠ r) → a'.get c' r' = a.get c' r' := by
  have hhoused := housed hsize (by omega)
  have hlt : a.place c r < a.m_c.length := hhoused.inside c r hc hr
  refine ⟨{ a with
      m_c := a.m_c.set (a.place c r) x
      size := by rw [List.length_set]; exact a.size }, ?_, rfl, rfl, ?_, ?_⟩
  · rw [assign, if_neg (by omega), if_pos hlt]
  · rw [get_eq (by exact hc) (by exact hr), Storage.read_eq_ok]
    exact List.getElem?_set_self hlt
  · intro c' hc' r' hr' hne
    rw [get_eq (by exact hc') (by exact hr'), get_eq hc' hr']
    have hdistinct : a.place c r ≠ a.place c' r' := fun heq => by
      have := hhoused.distinct c r c' r' hc hr hc' hr' heq
      omega
    change Storage.read Failure.outOfRange (a.m_c.set (a.place c r) x) (a.place c' r') = _
    unfold Storage.read
    rw [List.getElem?_set_ne hdistinct]

end TwoDim

/-- The models of a grid are under their names. -/
structure Named (params : Parameter) (length : ℤ × ℤ) (p : ℕ → ℕ → Prop) (N : TwoDim String) : Prop where
  columns : N.m_columns = length.1.toNat
  rows : N.m_rows = length.2.toNat
  get : ∀ c r : ℕ, (c : ℤ) < length.1 → (r : ℤ) < length.2 → p c r →
    N.get c r = .ok (name2d params c r)

section Grid

variable (params : Parameter) {length : ℤ × ℤ} {mask : TwoDim String} {x_mask y_mask : ℤ}
  {N : TwoDim String}

/-- A length is an `int`. -/
theorem length_le_of_product {a b : ℤ} (ha : 0 < a) (hb : 0 < b) (h : a * b ≤ intMax) : a ≤ intMax :=
  (le_mul_of_one_le_right ha.le hb).trans h

/-- A name in a grid. -/
theorem Named.read (h : Named params length (fun _ _ => True) N) (h1 : length.1 ≤ intMax)
    (h2 : length.2 ≤ intMax) {x y : ℤ} (hx0 : 0 ≤ x) (hx : x < length.1) (hy0 : 0 ≤ y)
    (hy : y < length.2) : N.get (toSize x) (toSize y) = .ok (name2d params x y) := by
  have := h.get x.toNat y.toNat (by omega) (by omega) trivial
  rw [toSize_of_nonneg hx0 (by omega), toSize_of_nonneg hy0 (by omega), this,
    Int.toNat_of_nonneg hx0, Int.toNat_of_nonneg hy0]

/-- A position outside of a grid is refused. -/
theorem Named.refused (h : Named params length (fun _ _ => True) N) (h1 : length.1 ≤ intMax)
    (h2 : length.2 ≤ intMax) {x y : ℤ} (hx : intMin ≤ x) (hy : intMin ≤ y) (hout : x < 0 ∨ y < 0) :
    N.get (toSize x) (toSize y) = .error (.argError "Array: bad access") := by
  refine if_pos ?_
  rw [h.columns, h.rows]
  rcases hout with hneg | hneg
  · have := toSize_of_neg hneg hx
    exact .inl (by omega)
  · have := toSize_of_neg hneg hy
    exact .inr (by omega)

/-- The masks are not too large for their container. -/
theorem Sizes2d.mask_size (h : Sizes2d length mask x_mask y_mask) :
    2 * (mask.m_rows * mask.m_columns) ≤ sizeType := by
  have hcolumns : mask.m_columns ≤ 2 ^ 31 := by
    have := h.columns
    have := h.columns_pos
    unfold intMax at *
    omega
  have hrows : mask.m_rows ≤ 2 ^ 31 := by
    have := h.rows
    have := h.rows_pos
    unfold intMax at *
    omega
  calc 2 * (mask.m_rows * mask.m_columns)
      ≤ 2 * (2 ^ 31 * 2 ^ 31) := Nat.mul_le_mul_left 2 (Nat.mul_le_mul hrows hcolumns)
    _ ≤ sizeType := by decide

/-- The cells of a mask are read at their places. -/
theorem Sizes2d.get_mask (h : Sizes2d length mask x_mask y_mask) {m n : ℕ} (hm : m < mask.m_columns)
    (hn : n < mask.m_rows) : mask.get (toSize m) (toSize n) = .ok (mask.cell m n) := by
  have := h.columns
  have := h.columns_pos
  have := h.rows
  have := h.rows_pos
  rw [toSize_of_nonneg (by omega) (by omega), toSize_of_nonneg (by omega) (by omega),
    Int.toNat_natCast, Int.toNat_natCast]
  exact TwoDim.get_cell h.mask_size hm hn

/-- A model is connected to the one at the position that it should, unless the position is refused. -/
theorem connects_connect2d (hN : Named params length (fun _ _ => True) N)
    (hsizes : Sizes2d length mask x_mask y_mask) {c r m n : ℕ} (hc : (c : ℤ) < length.1)
    (hr : (r : ℤ) < length.2) (hm : m < mask.m_columns) (hn : n < mask.m_rows) {x y t u : ℤ}
    (hx : intMin ≤ x ∧ x < length.1) (hy : intMin ≤ y ∧ y < length.2) (ht : 0 ≤ x → x = t)
    (hu : 0 ≤ y → y = u) :
    Connects (V := V) Refused N (connect2d params.type mask c r x y m n)
      (if mask.cell m n = "" then []
        else [connection params.type (name2d params c r) (name2d params t u) (mask.cell m n)]) := by
  have h1 := length_le_of_product hsizes.columns_pos hsizes.rows_pos hsizes.product
  have h2 := length_le_of_product hsizes.rows_pos hsizes.columns_pos
    ((mul_comm _ _).trans_le hsizes.product)
  intro w hw
  have hcell : (inspect fun _ => mask.get (toSize m) (toSize n) : GenM V (TwoDim String) String) w =
      .ok (mask.cell m n) w := inspect_eq_ok.mpr ⟨hsizes.get_mask hm hn, rfl⟩
  unfold connect2d
  rw [bind_run hcell]
  by_cases hempty : mask.cell m n = ""
  · rw [if_pos hempty, if_pos hempty]
    exact .inl ⟨w, rfl, hw, (List.append_nil _).symm⟩
  rw [if_neg hempty, if_neg hempty]
  have hsrc := hN.read params h1 h2 (Int.natCast_nonneg c) hc (Int.natCast_nonneg r) hr
  have hsrc' : (inspect fun w => w.modelnames.get (toSize c) (toSize r) :
      GenM V (TwoDim String) String) w = .ok (name2d params c r) w :=
    inspect_eq_ok.mpr ⟨by rw [hw, hsrc], rfl⟩
  rw [bind_run hsrc']
  by_cases hin : 0 ≤ x ∧ 0 ≤ y
  · have hdst := hN.read params h1 h2 hin.1 hx.2 hin.2 hy.2
    have hdst' : (inspect fun w => w.modelnames.get (toSize x) (toSize y) :
        GenM V (TwoDim String) String) w = .ok (name2d params x y) w :=
      inspect_eq_ok.mpr ⟨by rw [hw, hdst], rfl⟩
    rw [bind_run hdst', ht hin.1, hu hin.2]
    refine .inl ⟨_, rfl, hw, ?_⟩
    rw [connections_append, connections_link]
  · have hdst := hN.refused params h1 h2 hx.1 hy.1 (by omega)
    have hdst' : (inspect fun w => w.modelnames.get (toSize x) (toSize y) :
        GenM V (TwoDim String) String) w = .error (.argError "Array: bad access") w := by
      rw [inspect, hw, hdst]
    exact .inr ⟨_, w, bind_run_error hdst', _, rfl⟩

/-- A mask that does not wrap makes the connections of a position. -/
theorem connects_applyMask (hN : Named params length (fun _ _ => True) N)
    (hsizes : Sizes2d length mask x_mask y_mask) {c r : ℕ} (hc : (c : ℤ) < length.1)
    (hr : (r : ℤ) < length.2) :
    Connects (V := V) Refused N (applyMask params c r length mask x_mask y_mask)
      ((List.range mask.m_rows).flatMap fun n => (List.range mask.m_columns).flatMap fun m =>
        neighbour2d params length (false, false) mask x_mask y_mask c r m n) := by
  have hmax : intMin = -intMax - 1 := by decide
  obtain ⟨hcpos, hrpos, hproduct, hcolumns, hrows, hx, hy⟩ := hsizes
  have hsizes : Sizes2d length mask x_mask y_mask := ⟨hcpos, hrpos, hproduct, hcolumns, hrows, hx, hy⟩
  have htarget : ∀ {l i o t : ℤ}, target false l i o = some t → 0 ≤ t ∧ t < l := fun ht => by
    unfold target at ht
    rw [if_neg Bool.false_ne_true] at ht
    split_ifs at ht with h
    cases ht
    exact h
  unfold applyMask
  rw [numericCast_of_le (by omega), pure_bind, numericCast_of_le (by omega), pure_bind,
    int_of_bounds (by omega), pure_bind, int_of_bounds (by omega), pure_bind,
    int_of_bounds (by omega), pure_bind, int_of_bounds (by omega), pure_bind,
    int_of_bounds (by omega), pure_bind, int_of_bounds (by omega), pure_bind,
    int_of_bounds (by omega), pure_bind, int_of_bounds (by omega), pure_bind]
  refine connects_clipped (by omega) hy.2 (Int.natCast_nonneg r) hr hrows (by omega)
    (fun n hn u hu => ?_) fun n hn hu => ?_
  · refine connects_clipped (by omega) hx.2 (Int.natCast_nonneg c) hc hcolumns (by omega)
      (fun m hm t ht => ?_) fun m hm ht => ?_
    · have ht' := htarget ht
      have hu' := htarget hu
      have hconnect := connects_connect2d (V := V) params hN hsizes hc hr hm hn
        (x := t) (y := u) (t := t) (u := u) ⟨by omega, ht'.2⟩ ⟨by omega, hu'.2⟩ (fun _ => rfl)
        fun _ => rfl
      simpa only [neighbour2d, ht, hu, Option.toList_some, List.flatMap_singleton,
        List.map_singleton] using hconnect
    · simp only [neighbour2d, ht, hu, Option.toList_some, List.flatMap_singleton, Option.toList_none,
        List.map_nil, ite_self]
  · simp only [neighbour2d, hu, Option.toList_none, List.flatMap_nil, ite_self,
      List.flatMap_eq_nil_iff, implies_true]

/-- A mask that wraps along both axes makes the connections of a position. -/
theorem connects_applyWrapMask (hN : Named params length (fun _ _ => True) N)
    (hsizes : Sizes2d length mask x_mask y_mask) {c r : ℕ} (hc : (c : ℤ) < length.1)
    (hr : (r : ℤ) < length.2) :
    Connects (V := V) Refused N (applyWrapMask (true, true) params c r length mask x_mask y_mask)
      ((List.range mask.m_rows).flatMap fun n => (List.range mask.m_columns).flatMap fun m =>
        neighbour2d params length (true, true) mask x_mask y_mask c r m n) := by
  have hmax : intMin = -intMax - 1 := by decide
  obtain ⟨hcpos, hrpos, hproduct, hcolumns, hrows, hx, hy⟩ := hsizes
  have hsizes : Sizes2d length mask x_mask y_mask := ⟨hcpos, hrpos, hproduct, hcolumns, hrows, hx, hy⟩
  unfold applyWrapMask
  rw [numericCast_of_le (by omega), pure_bind, numericCast_of_le (by omega), pure_bind,
    int_of_bounds (by omega), pure_bind, int_of_bounds (by omega), pure_bind,
    int_of_bounds (by omega), pure_bind, int_of_bounds (by omega), pure_bind,
    int_of_bounds (by omega), pure_bind, int_of_bounds (by omega), pure_bind]
  simp only [if_true]
  refine connects_loop (by omega) (by omega) (by omega) fun n hn => ?_
  obtain ⟨p, hp, hpb, hpt⟩ := wrapTo_eq (V := V) (ν := TwoDim String) (x := r - y_mask + n) hrpos
    (by omega) (by omega)
  rw [hp, pure_bind]
  refine connects_loop (by omega) (by omega) (by omega) fun m hm => ?_
  obtain ⟨q, hq, hqb, hqt⟩ := wrapTo_eq (V := V) (ν := TwoDim String) (x := c - x_mask + m) hcpos
    (by omega) (by omega)
  rw [hq, pure_bind, zero_add, zero_add]
  have hconnect := connects_connect2d (V := V) params hN hsizes hc hr (m := m) (n := n) (by omega)
    (by omega) hqb hpb hqt hpt
  have hxm : (c : ℤ) + (m - x_mask) = c - x_mask + m := by ring
  have hyn : (r : ℤ) + (n - y_mask) = r - y_mask + n := by ring
  simpa only [neighbour2d, target, if_true, hxm, hyn, Option.toList_some, List.flatMap_singleton,
    List.map_singleton] using hconnect

/-- A mask that wraps along one axis only makes no connection. -/
theorem connects_applyWrapMask_mixed {wrap : Bool × Bool} (hwrap : wrap.1 ≠ wrap.2)
    (hsizes : Sizes2d length mask x_mask y_mask) {c r : ℕ} (hc : (c : ℤ) < length.1)
    (hr : (r : ℤ) < length.2) :
    Connects (V := V) E N (applyWrapMask wrap params c r length mask x_mask y_mask) [] := by
  have hmax : intMin = -intMax - 1 := by decide
  obtain ⟨hcpos, hrpos, hproduct, hcolumns, hrows, hx, hy⟩ := hsizes
  have hnil : ∀ k : ℕ, ((List.range k).flatMap fun _ => ([] : List (String × String × String × String))) = [] :=
    fun k => List.flatMap_eq_nil_iff.mpr fun _ _ => rfl
  unfold applyWrapMask
  rw [numericCast_of_le (by omega), pure_bind, numericCast_of_le (by omega), pure_bind,
    int_of_bounds (by omega), pure_bind, int_of_bounds (by omega), pure_bind,
    int_of_bounds (by omega), pure_bind, int_of_bounds (by omega), pure_bind,
    int_of_bounds (by omega), pure_bind, int_of_bounds (by omega), pure_bind]
  rw [← hnil mask.m_rows]
  refine connects_loop (by omega) (by omega) (by omega) fun n hn => ?_
  cases h2 : wrap.2 with
  | false => exact connects_pure
  | true =>
    have h1 : wrap.1 = false := by
      rw [h2] at hwrap
      exact Bool.eq_false_iff.mpr hwrap
    obtain ⟨p, hp, -, -⟩ := wrapTo_eq (V := V) (ν := TwoDim String) (x := r - y_mask + n) hrpos
      (by omega) (by omega)
    rw [if_pos rfl, hp, pure_bind, ← hnil mask.m_columns]
    refine connects_loop (by omega) (by omega) (by omega) fun m hm => ?_
    rw [h1, if_neg Bool.false_ne_true]
    exact connects_pure

end Grid

section Grid

variable {conditions : Conditions V} {params : Parameter} {length : ℤ × ℤ} {wrap : Bool × Bool}
  {mask : TwoDim String} {x_mask y_mask : ℤ} {N : TwoDim String} {p q : ℕ → ℕ → Prop}

theorem Named.mono (h : Named params length p N)
    (hpq : ∀ c r : ℕ, (c : ℤ) < length.1 → (r : ℤ) < length.2 → q c r → p c r) :
    Named params length q N :=
  ⟨h.columns, h.rows, fun c r hc hr hq => h.get c r hc hr (hpq c r hc hr hq)⟩

/-- The model of a position is created under its name. -/
theorem create_cell_run (conditions : Conditions V) (h1 : 0 < length.1) (h2 : 0 < length.2)
    (hproduct : length.1 * length.2 ≤ intMax) {c r : ℕ} (hc : (c : ℤ) < length.1)
    (hr : (r : ℤ) < length.2) {s : Work V (TwoDim String)} (hs : Named params length p s.modelnames) :
    ∃ s', (do
        let made := params.make_model ⟨c, r, -1⟩
        command [.createModelFromClass made.2 made.1 [] [] conditions]
        let w ← get
        let modelnames ← inspect fun _ => w.modelnames.assign (toSize c) (toSize r) made.1
        modify fun w => { w with modelnames := modelnames } : GenM V (TwoDim String) PUnit) s = .ok ⟨⟩ s' ∧
      Named params length (fun c' r' => p c' r' ∨ c' = c ∧ r' = r) s'.modelnames ∧
      connections s'.commands = connections s.commands := by
  have hL1 := length_le_of_product h1 h2 hproduct
  have hL2 := length_le_of_product h2 h1 ((mul_comm _ _).trans_le hproduct)
  have hsize : 2 * (s.modelnames.m_rows * s.modelnames.m_columns) ≤ sizeType := by
    have hcast : ((length.2.toNat * length.1.toNat : ℕ) : ℤ) = length.1 * length.2 := by
      rw [Nat.cast_mul, Int.toNat_of_nonneg h1.le, Int.toNat_of_nonneg h2.le, mul_comm]
    rw [hs.rows, hs.columns]
    unfold sizeType
    unfold intMax at hproduct
    omega
  have hcolumn : c < s.modelnames.m_columns := by
    rw [hs.columns]
    omega
  have hrow : r < s.modelnames.m_rows := by
    rw [hs.rows]
    omega
  obtain ⟨N, hassign, hcolumns, hrows, hsame, hother⟩ :=
    TwoDim.assign_run hsize hcolumn hrow (name2d params c r)
  have hread : ∀ u : Work V (TwoDim String), inspect (fun _ => s.modelnames.assign (toSize c) (toSize r)
      (params.make_model ⟨c, r, -1⟩).1) u = .ok N u := fun u => by
    rw [inspect_eq_ok, toSize_of_nonneg (by omega) (by omega), toSize_of_nonneg (by omega) (by omega),
      Int.toNat_natCast, Int.toNat_natCast]
    exact ⟨hassign, rfl⟩
  refine ⟨_, (bind_run (modify_run _ s)).trans ((bind_run (get_run _)).trans
    ((bind_run (hread _)).trans (modify_run _ _))), ⟨hcolumns.trans hs.columns, hrows.trans hs.rows, ?_⟩, ?_⟩
  · intro c' r' hc' hr' hp
    by_cases hcell : c' = c ∧ r' = r
    · rw [hcell.1, hcell.2]
      exact hsame
    · have hne : c' ≠ c ∨ r' ≠ r := by omega
      refine (hother c' ?_ r' ?_ hne).trans (hs.get c' r' hc' hr' (hp.resolve_right hcell))
      · rw [hs.columns]
        omega
      · rw [hs.rows]
        omega
  · rw [connections_append]
    exact List.append_nil _

/-- The models of a column are created under their names. -/
theorem create_column_run (conditions : Conditions V) (h1 : 0 < length.1) (h2 : 0 < length.2)
    (hproduct : length.1 * length.2 ≤ intMax) {c : ℕ} (hc : (c : ℤ) < length.1)
    {s : Work V (TwoDim String)} (hs : Named params length (fun c' _ => c' < c) s.modelnames) :
    ∃ s', ((List.range length.2.toNat).forM fun r : ℕ => (do
        let made := params.make_model ⟨c, r, -1⟩
        command [.createModelFromClass made.2 made.1 [] [] conditions]
        let w ← get
        let modelnames ← inspect fun _ => w.modelnames.assign (toSize c) (toSize r) made.1
        modify fun w => { w with modelnames := modelnames } : GenM V (TwoDim String) PUnit)) s =
          .ok ⟨⟩ s' ∧
      Named params length (fun c' _ => c' < c + 1) s'.modelnames ∧
      connections s'.commands = connections s.commands := by
  -- the rows before the next one are done
  let I : List ℕ → Work V (TwoDim String) → Prop := fun done t =>
    Named params length (fun c' r' => c' < c ∨ c' = c ∧ r' < done.length) t.modelnames ∧
      connections t.commands = connections s.commands
  have hround : ∀ (done : List ℕ) (r : ℕ) (todo : List ℕ) (t : Work V (TwoDim String)),
      List.range length.2.toNat = done ++ r :: todo → I done t → ∃ t', (do
        let made := params.make_model ⟨c, r, -1⟩
        command [.createModelFromClass made.2 made.1 [] [] conditions]
        let w ← get
        let modelnames ← inspect fun _ => w.modelnames.assign (toSize c) (toSize r) made.1
        modify fun w => { w with modelnames := modelnames } : GenM V (TwoDim String) PUnit) t = .ok ⟨⟩ t' ∧
      I (done ++ [r]) t' := by
    rintro done r todo t hlist ⟨hnamed, hcommands⟩
    obtain ⟨hr, hlt⟩ := eq_length_of_range hlist
    obtain ⟨t', hrun, hnamed', hcommands'⟩ := create_cell_run conditions h1 h2 hproduct (c := c) (r := r)
      hc (by omega) hnamed
    refine ⟨t', hrun, hnamed'.mono fun c' r' _ _ h => ?_, hcommands'.trans hcommands⟩
    rw [List.length_append, List.length_singleton] at h
    omega
  have hstart : I [] s := ⟨hs.mono fun c' r' _ _ h => by rw [List.length_nil] at h; omega, rfl⟩
  obtain ⟨s', hrun, hnamed, hcommands⟩ := forM_total _ hround hstart
  refine ⟨s', hrun, hnamed.mono fun c' r' _ hr' h => ?_, hcommands⟩
  rw [List.length_range]
  omega

/-- The models of a grid are created under their names. -/
theorem create2d_run (conditions : Conditions V) (params : Parameter) (h1 : 0 < length.1) (h2 : 0 < length.2)
    (hproduct : length.1 * length.2 ≤ intMax) (w : Work V (TwoDim String)) :
    ∃ w', create2d conditions params length w = .ok ⟨⟩ w' ∧
      Named params length (fun _ _ => True) w'.modelnames ∧
      connections w'.commands = connections w.commands := by
  have hL1 := length_le_of_product h1 h2 hproduct
  have hL2 := length_le_of_product h2 h1 ((mul_comm _ _).trans_le hproduct)
  -- the columns before the next one are done
  let I : List ℕ → Work V (TwoDim String) → Prop := fun done t =>
    Named params length (fun c' _ => c' < done.length) t.modelnames ∧
      connections t.commands = connections w.commands
  have hround : ∀ (done : List ℕ) (c : ℕ) (todo : List ℕ) (t : Work V (TwoDim String)),
      List.range length.1.toNat = done ++ c :: todo → I done t → ∃ t',
      ((List.range length.2.toNat).forM fun r : ℕ => (do
        let made := params.make_model ⟨c, r, -1⟩
        command [.createModelFromClass made.2 made.1 [] [] conditions]
        let w ← get
        let modelnames ← inspect fun _ => w.modelnames.assign (toSize c) (toSize r) made.1
        modify fun w => { w with modelnames := modelnames } : GenM V (TwoDim String) PUnit)) t = .ok ⟨⟩ t' ∧
      I (done ++ [c]) t' := by
    rintro done c todo t hlist ⟨hnamed, hcommands⟩
    obtain ⟨hc, hlt⟩ := eq_length_of_range hlist
    obtain ⟨t', hrun, hnamed', hcommands'⟩ := create_column_run conditions h1 h2 hproduct (c := c)
      (by omega) (hnamed.mono fun c' _ _ _ h => by omega)
    refine ⟨t', hrun, hnamed'.mono fun c' _ _ _ h => ?_, hcommands'.trans hcommands⟩
    rw [List.length_append, List.length_singleton] at h
    omega
  have hstart : I [] { w with modelnames := TwoDim.ofSizes (toSize length.1) (toSize length.2) "" } :=
    ⟨⟨toSize_of_nonneg h1.le hL1, toSize_of_nonneg h2.le hL2,
      fun c _ _ _ h => absurd h (Nat.not_lt_zero c)⟩, rfl⟩
  obtain ⟨w', hrun, hnamed, hcommands⟩ := forM_total _ hround hstart
  unfold create2d
  rw [bind_run (modify_run _ w), loop_zero_eq h1.le hL1]
  simp only [loop_zero_eq h2.le hL2]
  refine ⟨w', hrun, hnamed.mono fun c r hc hr _ => ?_, hcommands⟩
  rw [List.length_range]
  omega

/-- The loops over the positions of a grid make the connections of the positions. -/
theorem connects_positions (hsizes : Sizes2d length mask x_mask y_mask)
    {f : ℤ → ℤ → GenM V (TwoDim String) PUnit} {g : ℕ → ℕ → List (String × String × String × String)}
    (h : ∀ c r : ℕ, (c : ℤ) < length.1 → (r : ℤ) < length.2 → Connects E N (f c r) (g c r)) :
    Connects E N (loop 0 0 length.1 fun c _ => loop 0 0 length.2 fun r _ => f c r)
      ((List.range length.1.toNat).flatMap fun c => (List.range length.2.toNat).flatMap fun r =>
        g c r) :=
  have hL1 := length_le_of_product hsizes.columns_pos hsizes.rows_pos hsizes.product
  have hL2 := length_le_of_product hsizes.rows_pos hsizes.columns_pos
    ((mul_comm _ _).trans_le hsizes.product)
  connects_loop_zero hsizes.columns_pos.le hL1 fun c hc =>
    connects_loop_zero hsizes.rows_pos.le hL2 fun r hr => h c r hc hr

/-- A grid that wraps along both axes or along none is connected as it should. -/
theorem connects_apply2d (hN : Named params length (fun _ _ => True) N)
    (hsizes : Sizes2d length mask x_mask y_mask) (hwrap : wrap.1 = wrap.2) :
    Connects (V := V) Refused N (apply2d params length wrap mask x_mask y_mask)
      (graph2d params length wrap mask x_mask y_mask) := by
  obtain ⟨wrap1, wrap2⟩ := wrap
  obtain rfl : wrap1 = wrap2 := hwrap
  unfold apply2d
  cases wrap1 with
  | false =>
    rw [if_pos ⟨rfl, rfl⟩]
    exact connects_positions hsizes fun c r hc hr => connects_applyMask params hN hsizes hc hr
  | true =>
    rw [if_neg (by decide)]
    exact connects_positions hsizes fun c r hc hr => connects_applyWrapMask params hN hsizes hc hr

/-- A grid that wraps along one axis only is not connected. -/
theorem connects_apply2d_mixed (params : Parameter) (hsizes : Sizes2d length mask x_mask y_mask)
    (hwrap : wrap.1 ≠ wrap.2) :
    Connects (V := V) E N (apply2d params length wrap mask x_mask y_mask) [] := by
  have hnil := connects_positions (E := E) (N := N) hsizes
    (f := fun c r => applyWrapMask wrap params c r length mask x_mask y_mask) (g := fun _ _ => [])
    fun c r hc hr => connects_applyWrapMask_mixed (V := V) params hwrap hsizes hc hr
  rw [List.flatMap_eq_nil_iff.mpr fun c _ => List.flatMap_eq_nil_iff.mpr fun r _ => rfl] at hnil
  unfold apply2d
  rwa [if_neg fun h => hwrap (h.1.trans h.2.symm)]

/-- An offset leads nowhere on an axis that does not wrap when it is as long as the axis. -/
theorem target_eq_none_iff {length o : ℤ} :
    (∀ i : ℕ, (i : ℤ) < length → target false length i o = none) ↔ length ≤ |o| ∨ length ≤ 0 := by
  have htarget : ∀ i : ℕ, target false length i o = none ↔ ¬ (0 ≤ i + o ∧ i + o < length) := fun i => by
    unfold target
    rw [if_neg Bool.false_ne_true]
    split_ifs with h <;> simp [h]
  simp only [htarget]
  constructor
  · intro h
    by_contra hnear
    rcases abs_cases o with ⟨habs, ho⟩ | ⟨habs, ho⟩
    · exact h 0 (by omega) (by omega)
    · exact h (-o).toNat (by omega) (by omega)
  · intro h i hi
    rcases abs_cases o with ⟨habs, -⟩ | ⟨habs, -⟩ <;> omega

/-- The grid that should wrap along one axis only has no connection when the cells are all too far. -/
theorem graph2d_mixed (hsizes : Sizes2d length mask x_mask y_mask) (hwrap : wrap.1 ≠ wrap.2) :
    graph2d params length wrap mask x_mask y_mask = [] ↔
      ∀ m < mask.m_columns, ∀ n < mask.m_rows, mask.cell m n ≠ "" →
        if wrap.1 then length.2 ≤ |n - y_mask| else length.1 ≤ |m - x_mask| := by
  have h1 := hsizes.columns_pos
  have h2 := hsizes.rows_pos
  obtain ⟨wrap1, wrap2⟩ := wrap
  have hiff : graph2d params length (wrap1, wrap2) mask x_mask y_mask = [] ↔
      ∀ c : ℕ, (c : ℤ) < length.1 → ∀ r : ℕ, (r : ℤ) < length.2 → ∀ n < mask.m_rows,
        ∀ m < mask.m_columns, mask.cell m n ≠ "" → target wrap2 length.2 r (n - y_mask) = none ∨
          target wrap1 length.1 c (m - x_mask) = none := by
    unfold graph2d neighbour2d
    simp only [List.flatMap_eq_nil_iff, List.mem_range, Int.lt_toNat]
    refine forall₂_congr fun c hc => forall₂_congr fun r hr => forall₂_congr fun n hn =>
      forall₂_congr fun m hm => ?_
    by_cases hcell : mask.cell m n = ""
    · simp [hcell]
    · cases htr : target wrap2 length.2 r (n - y_mask) <;>
        cases htc : target wrap1 length.1 c (m - x_mask) <;> simp [hcell]
  rw [hiff]
  cases wrap1 with
  | true =>
    have : wrap2 = false := by simpa using hwrap.symm
    subst this
    simp only [if_true]
    constructor
    · intro h m hm n hn hcell
      have hnone : ∀ r : ℕ, (r : ℤ) < length.2 → target false length.2 r (n - y_mask) = none :=
        fun r hr => (h 0 (by omega) r hr n hn m hm hcell).resolve_right (by simp [target])
      exact (target_eq_none_iff.mp hnone).resolve_right (by omega)
    · intro h c hc r hr n hn m hm hcell
      exact .inl (target_eq_none_iff.mpr (.inl (h m hm n hn hcell)) r hr)
  | false =>
    have : wrap2 = true := by simpa using hwrap.symm
    subst this
    simp only [Bool.false_eq_true, if_false]
    constructor
    · intro h m hm n hn hcell
      have hnone : ∀ c : ℕ, (c : ℤ) < length.1 → target false length.1 c (m - x_mask) = none :=
        fun c hc => (h c hc 0 (by omega) n hn m hm hcell).resolve_left (by simp [target])
      exact (target_eq_none_iff.mp hnone).resolve_right (by omega)
    · intro h c hc r hr n hn m hm hcell
      exact .inr (target_eq_none_iff.mpr (.inl (h m hm n hn hcell)) c hc)

end Grid

section Grid

variable {conditions : Conditions V} {params : Parameter} {length : ℤ × ℤ} {wrap : Bool × Bool}
  {mask : TwoDim String} {x_mask y_mask : ℤ}

/-- The arguments are refused, or the product of the lengths overflows, or the models are created and
connected. -/
theorem make2d_run (conditions : Conditions V) (params : Parameter) (length : ℤ × ℤ)
    (wrap : Bool × Bool) (mask : TwoDim String) (x_mask y_mask : ℤ) (w : Work V (TwoDim String)) :
    make2d conditions params length wrap mask x_mask y_mask w = .error badParameters w ∨
    (¬ (intMin ≤ length.1 * length.2 ∧ length.1 * length.2 ≤ intMax) ∧
      make2d conditions params length wrap mask x_mask y_mask w = .error .overflow w) ∨
    (0 < length.1 * length.2 ∧ length.1 * length.2 ≤ intMax) ∧ (0 ≤ x_mask ∧ 0 ≤ y_mask) ∧
      (toSize x_mask < mask.m_columns ∧ toSize y_mask < mask.m_rows) ∧
      make2d conditions params length wrap mask x_mask y_mask w =
        (create2d conditions params length >>= fun _ =>
          apply2d params length wrap mask x_mask y_mask)
          { w with vertices := length.1 * length.2 } := by
  unfold make2d
  by_cases hint : intMin ≤ length.1 * length.2 ∧ length.1 * length.2 ≤ intMax
  · rw [int_of_bounds hint, pure_bind]
    by_cases hbad : length.1 * length.2 ≤ 0 ∨ x_mask < 0 ∨ y_mask < 0 ∨
        mask.m_columns ≤ toSize x_mask ∨ mask.m_rows ≤ toSize y_mask
    · exact .inl (by rw [if_pos hbad]; rfl)
    · push Not at hbad
      obtain ⟨hproduct, hx, hy, hcolumns, hrows⟩ := hbad
      refine .inr (.inr ⟨⟨hproduct, hint.2⟩, ⟨hx, hy⟩, ⟨hcolumns, hrows⟩, ?_⟩)
      rw [if_neg (by omega), bind_run (modify_run _ w)]
  · refine .inr (.inl ⟨hint, ?_⟩)
    rw [int, if_neg hint]
    rfl

/-- An origin that is in a mask. -/
theorem lt_of_toSize_lt {x c : ℤ} {n : ℕ} (hx : 0 ≤ x) (hlt : toSize x < n) (hmin : intMin ≤ c - x)
    (hc : c ≤ intMax) : x < n := by
  unfold toSize sizeType at hlt
  unfold intMin at hmin
  unfold intMax at hc
  omega

/-- A mask is applied to a position when its sizes are `int`s. -/
theorem sums_of_apply {α : Type} {c r : ℤ} {w w' : Work V (TwoDim String)} {u : α}
    {f : ℤ → ℤ → ℤ → ℤ → ℤ → ℤ → GenM V (TwoDim String) α}
    (h : (do
      let mask_columns ← numericCast mask.m_columns
      let mask_rows ← numericCast mask.m_rows
      let x_min ← int (c - x_mask)
      let x_max ← int (c + mask_columns)
      let x_max ← int (x_max - x_mask)
      let y_min ← int (r - y_mask)
      let y_max ← int (r + mask_rows)
      f mask_columns mask_rows x_min x_max y_min y_max : GenM V (TwoDim String) α) w = .ok u w') :
    intMin ≤ c - x_mask ∧ intMin ≤ r - y_mask ∧ c + mask.m_columns ≤ intMax ∧
      r + mask.m_rows ≤ intMax := by
  obtain ⟨-, h⟩ := numericCast_bind_ok h
  obtain ⟨-, h⟩ := numericCast_bind_ok h
  obtain ⟨hx, h⟩ := int_bind_ok h
  obtain ⟨hcolumns, h⟩ := int_bind_ok h
  obtain ⟨-, h⟩ := int_bind_ok h
  obtain ⟨hy, h⟩ := int_bind_ok h
  obtain ⟨hrows, -⟩ := int_bind_ok h
  exact ⟨hx.1, hy.1, hcolumns.2, hrows.2⟩

/-- The sizes are as they should when the masks are applied. -/
theorem sizes_of_apply2d (h1 : 0 < length.1) (h2 : 0 < length.2) (hproduct : length.1 * length.2 ≤ intMax)
    (hx : 0 ≤ x_mask) (hy : 0 ≤ y_mask) (hcolumns : toSize x_mask < mask.m_columns)
    (hrows : toSize y_mask < mask.m_rows) {w w' : Work V (TwoDim String)}
    (h : apply2d params length wrap mask x_mask y_mask w = .ok ⟨⟩ w') :
    Sizes2d length mask x_mask y_mask := by
  have hL1 := length_le_of_product h1 h2 hproduct
  have hL2 := length_le_of_product h2 h1 ((mul_comm _ _).trans_le hproduct)
  -- the last position is the one that asks for the most
  have hlast : ∀ {f : ℤ → ℤ → GenM V (TwoDim String) PUnit},
      (loop 0 0 length.1 fun c _ => loop 0 0 length.2 fun r _ => f c r) w = .ok ⟨⟩ w' →
      ∃ s s', f (length.1 - 1) (length.2 - 1) s = .ok ⟨⟩ s' := by
    intro f hloop
    rw [loop_zero_eq h1.le hL1] at hloop
    obtain ⟨s₁, s₂, -, hinner⟩ := forM_round (I := fun _ => True) (fun _ _ _ _ _ _ => trivial) trivial
      hloop (a := (length.1 - 1).toNat) (List.mem_range.mpr (by omega))
    rw [loop_zero_eq h2.le hL2] at hinner
    obtain ⟨t₁, t₂, -, hround⟩ := forM_round (I := fun _ => True) (fun _ _ _ _ _ _ => trivial) trivial
      hinner (a := (length.2 - 1).toNat) (List.mem_range.mpr (by omega))
    rw [Int.toNat_of_nonneg (by omega), Int.toNat_of_nonneg (by omega)] at hround
    exact ⟨t₁, t₂, hround⟩
  have hsums : intMin ≤ length.1 - 1 - x_mask ∧ intMin ≤ length.2 - 1 - y_mask ∧
      length.1 - 1 + mask.m_columns ≤ intMax ∧ length.2 - 1 + mask.m_rows ≤ intMax := by
    unfold apply2d at h
    split_ifs at h
    · obtain ⟨s, s', hround⟩ := hlast h
      exact sums_of_apply hround
    · obtain ⟨s, s', hround⟩ := hlast h
      exact sums_of_apply hround
  obtain ⟨hxmin, hymin, hxsum, hysum⟩ := hsums
  exact ⟨h1, h2, hproduct, hxsum, hysum, ⟨hx, lt_of_toSize_lt hx hcolumns hxmin (by omega)⟩,
    ⟨hy, lt_of_toSize_lt hy hrows hymin (by omega)⟩⟩

/-- The lengths are positive when the models are created. -/
theorem lengths_of_create2d (hproduct : 0 < length.1 * length.2) {w w' : Work V (TwoDim String)}
    (h : create2d conditions params length w = .ok ⟨⟩ w') : 0 < length.1 ∧ 0 < length.2 := by
  unfold create2d at h
  rw [bind_run (modify_run _ w)] at h
  obtain ⟨h1, -, hforM⟩ := forNe_of_ok h
  have h1 : 0 < length.1 := h1.lt_of_ne fun heq => by
    rw [← heq, zero_mul] at hproduct
    exact hproduct.false
  exact ⟨h1, pos_of_mul_pos_right hproduct h1.le⟩

/-- A grid that wraps along one axis only is created, and not connected. -/
theorem make2d_mixed (conditions : Conditions V) (params : Parameter)
    (hsizes : Sizes2d length mask x_mask y_mask) (hwrap : wrap.1 ≠ wrap.2) :
    ∃ w, make2d conditions params length wrap mask x_mask y_mask ⟨[], TwoDim.ofSizes 0 0 "", -1⟩ =
      .ok ⟨⟩ w ∧ connections w.commands = [] := by
  have hmin : intMin < 0 := by decide
  have hpos := mul_pos hsizes.columns_pos hsizes.rows_pos
  have hx := hsizes.x_origin
  have hy := hsizes.y_origin
  have hx' := toSize_of_nonneg hx.1 (by have := hsizes.columns; have := hsizes.columns_pos; omega)
  have hy' := toSize_of_nonneg hy.1 (by have := hsizes.rows; have := hsizes.rows_pos; omega)
  obtain ⟨w₁, hcreated, -, hcommands⟩ := create2d_run conditions params
    hsizes.columns_pos hsizes.rows_pos hsizes.product
    ⟨[], TwoDim.ofSizes 0 0 "", length.1 * length.2⟩
  rcases connects_apply2d_mixed (V := V) (E := fun _ => False) params hsizes hwrap w₁ rfl with
    ⟨w₂, happly, -, hnone⟩ | ⟨_, _, _, ⟨⟩⟩
  refine ⟨w₂, ?_, by rw [hnone, hcommands]; rfl⟩
  unfold make2d
  rw [int_of_bounds ⟨by omega, hsizes.product⟩, pure_bind, if_neg (by omega), bind_run (modify_run _ _),
    bind_run hcreated, happly]

/-- The grid is connected as it should exactly when its sizes fit and no axis wraps alone, unless the
arguments are refused. -/
theorem make_2d_iff (hargs : ∀ what w, make2d conditions params length wrap mask x_mask y_mask
    ⟨[], TwoDim.ofSizes 0 0 "", -1⟩ ≠ .error (.argError what) w) :
    Builds2d conditions params length wrap mask x_mask y_mask ↔
      Fits2d length wrap mask x_mask y_mask := by
  rcases make2d_run conditions params length wrap mask x_mask y_mask ⟨[], TwoDim.ofSizes 0 0 "", -1⟩ with
    hrun | ⟨hlarge, hrun⟩ | ⟨⟨hpos, hproduct⟩, ⟨hx, hy⟩, ⟨hcolumns, hrows⟩, hrun⟩
  · exact absurd hrun (hargs _ _)
  · refine iff_of_false (fun h => ?_) fun h => ?_
    · obtain ⟨w, hok, -⟩ := h
      rw [hrun] at hok
      cases hok
    · have hmin : intMin < 0 := by decide
      have := mul_pos h.1.columns_pos h.1.rows_pos
      exact hlarge ⟨by omega, h.1.product⟩
  constructor
  · rintro ⟨w, hok, hperm⟩
    have happly := hok
    rw [hrun] at happly
    obtain ⟨_, w₁, hcreate, happly⟩ := bind_eq_ok.mp happly
    obtain ⟨h1, h2⟩ := lengths_of_create2d hpos hcreate
    have hsizes := sizes_of_apply2d h1 h2 hproduct hx hy hcolumns hrows happly
    refine ⟨hsizes, ?_⟩
    by_cases hwrap : wrap.1 = wrap.2
    · exact .inl hwrap
    -- nothing is connected, so nothing should be
    obtain ⟨w', hmixed, hnone⟩ := make2d_mixed conditions params hsizes hwrap
    rw [hmixed] at hok
    cases hok
    rw [hnone] at hperm
    exact .inr ((graph2d_mixed hsizes hwrap).mp (List.nil_perm.mp hperm))
  · rintro ⟨hsizes, hcells⟩
    by_cases hwrap : wrap.1 = wrap.2
    · obtain ⟨w₁, hcreated, hnamed, hcommands⟩ := create2d_run conditions params
        hsizes.columns_pos hsizes.rows_pos hproduct ⟨[], TwoDim.ofSizes 0 0 "", length.1 * length.2⟩
      rw [bind_run hcreated] at hrun
      rcases connects_apply2d (V := V) hnamed hsizes hwrap w₁ rfl with
        ⟨w₂, happly, -, hcommands₂⟩ | ⟨_, w₂, happly, what, rfl⟩
      · refine ⟨w₂, hrun.trans happly, ?_⟩
        rw [hcommands₂, hcommands]
        exact List.Perm.refl _
      · exact absurd (hrun.trans happly) (hargs what w₂)
    · obtain ⟨w', hmixed, hnone⟩ := make2d_mixed conditions params hsizes hwrap
      refine ⟨w', hmixed, ?_⟩
      rw [hnone, (graph2d_mixed hsizes hwrap).mpr (hcells.resolve_left hwrap)]

end Grid

/-- The connections of a line or a grid are those of its mask exactly when the sizes fit, unless the
arguments are refused. -/
theorem make_iff (conditions : Conditions V) (params : Parameter) :
    (∀ (length : ℤ) (wrap : Bool) (mask : List String) (x_mask : ℤ),
      (∀ what w, make1d conditions params length wrap mask x_mask ⟨[], [], -1⟩ ≠
        .error (.argError what) w) →
      (Builds1d conditions params length wrap mask x_mask ↔ Fits1d length wrap mask x_mask)) ∧
    ∀ (length : ℤ × ℤ) (wrap : Bool × Bool) (mask : TwoDim String) (x_mask y_mask : ℤ),
      (∀ what w, make2d conditions params length wrap mask x_mask y_mask
        ⟨[], TwoDim.ofSizes 0 0 "", -1⟩ ≠ .error (.argError what) w) →
      (Builds2d conditions params length wrap mask x_mask y_mask ↔
        Fits2d length wrap mask x_mask y_mask) :=
  ⟨fun _ _ _ _ => make_1d_iff, fun _ _ _ _ _ => make_2d_iff⟩

/-- Models that are named after their columns. -/
def columns : Parameter := ⟨fun metrics => (toString metrics.x, "Cell"), .IN_OUT⟩

/-- Models without parameters. -/
def noConditions : Conditions ℕ := fun _ => .ok []

/-- A line of one model, and a grid of one model whose mask has no cell that connects. -/
theorem make_iff_one : Builds1d (V := ℕ) noConditions columns 1 false ["in"] 0 ∧
    Builds2d (V := ℕ) noConditions columns (1, 1) (true, false) (TwoDim.ofSizes 1 1 "") 0 0 := by
  refine ⟨((make_iff noConditions columns).1 _ _ _ _ ?_).mpr ?_, ((make_iff noConditions columns).2 _ _ _ _ _ ?_).mpr ?_⟩
  · have hfits : Fits1d 1 false ["in"] 0 := by unfold Fits1d; decide
    obtain ⟨w, hrun, -⟩ := builds_of_fits1d noConditions columns (by decide) (by decide) (by decide) hfits
    intro what w' h
    rw [hrun] at h
    cases h
  · unfold Fits1d
    decide
  · have hsizes : Sizes2d (1, 1) (TwoDim.ofSizes 1 1 "") 0 0 := by constructor <;> decide
    have hwrap : (true, false).1 ≠ (true, false).2 := by decide
    obtain ⟨w, hrun, -⟩ := make2d_mixed noConditions columns hsizes hwrap
    intro what w' h
    rw [hrun] at h
    cases h
  · exact ⟨by constructor <;> decide, .inr (by decide)⟩

/-- A grid of one model that wraps along one axis: the centre of the mask does not connect the model to
itself, and nothing is refused. -/
theorem not_connected_mixed : (∀ what w, make2d (V := ℕ) noConditions columns (1, 1) (true, false)
      (TwoDim.ofSizes 1 1 "in") 0 0 ⟨[], TwoDim.ofSizes 0 0 "", -1⟩ ≠ .error (.argError what) w) ∧
    graph2d columns (1, 1) (true, false) (TwoDim.ofSizes 1 1 "in") 0 0 = [("0", "out", "0", "in")] ∧
    ¬ Builds2d (V := ℕ) noConditions columns (1, 1) (true, false) (TwoDim.ofSizes 1 1 "in") 0 0 := by
  have hsizes : Sizes2d (1, 1) (TwoDim.ofSizes 1 1 "in") 0 0 := by constructor <;> decide
  have hwrap : (true, false).1 ≠ (true, false).2 := by decide
  obtain ⟨w, hrun, hnone⟩ := make2d_mixed noConditions columns hsizes hwrap
  have hgraph : graph2d columns (1, 1) (true, false) (TwoDim.ofSizes 1 1 "in") 0 0 =
      [("0", "out", "0", "in")] := by decide
  refine ⟨fun what w' h => ?_, hgraph, ?_⟩
  · rw [hrun] at h
    cases h
  · rintro ⟨w', hrun', hperm⟩
    rw [hrun] at hrun'
    cases hrun'
    rw [hnone, hgraph] at hperm
    cases List.nil_perm.mp hperm

end Vle.Translator
