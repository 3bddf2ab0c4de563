import Vle.Value.Table

/-!
# The accessors that check

The accessors of `value::Matrix` go through `pp_check_index`, which lets the number of rows through, so
the row below the last one is taken for one of the matrix. `safe_along_iff` says when the accesses of a
run are what they are to be: when the sizes of the matrix have room in its buffer, and no access is to
that row. The sizes have room along a run whose constructor, `reserve` and `resize` fit
(`roomFor_along`).

`checked_accesses` puts it together with the tables and the tuples.
-/

namespace Vle

open Lib Lib.Storage

namespace Matrix

variable {α : Type}

/-- What `pp_get_value` throws for a null pointer. -/
def nullCell (m : Matrix α) (column row : ℕ) : Fault :=
  .thrown s!"Matrix: empty or null value at {column % 2 ^ 32} {row % 2 ^ 32} for {m.nbcol % 2 ^ 32} x {m.nbrow % 2 ^ 32} "

/-- The accessors. A typed one that adds a cell has built its value, and one that reads a cell takes the
values of its type, and throws `what` for those of another. -/
inductive Access (α : Type) where
  | get
  | call
  | add (val : Option α)
  | set (val : Option α)
  | give
  | addValue (v : α)
  | getValue (what : String) (is : α → Bool)

/-- `get` and `operator()`. -/
def get (m : Matrix α) (column row : ℕ) : Except Fault (Option α) := do
  m.checkIndex column row
  read .outOfRange m.matrix (position m.nbcolmax column row)

/-- `pp_get_value`. -/
def ppGetValue (m : Matrix α) (column row : ℕ) : Except Fault α := do
  m.checkIndex column row
  let p ← read .outOfRange m.matrix (position m.nbcolmax column row)
  match p with
  | some v => return v
  | none => .error (m.nullCell column row)

/-- `pp_add`. -/
def ppAdd (m : Matrix α) (column row : ℕ) (v : α) : Except Fault (Matrix α) := do
  m.checkIndex column row
  m.assign column row (some v)

/-- The run of an accessor: the pointer that comes back, and the matrix after it. -/
def Access.run (m : Matrix α) (column row : ℕ) : Access α → Except Fault (Option α × Matrix α)
  | .get => do
    let p ← m.get column row
    return (p, m)
  | .call => do
    let p ← m.get column row
    return (p, m)
  | .add val => do
    let m ← m.add column row val
    return (none, m)
  | .set val => do
    let m ← m.set column row val
    return (none, m)
  | .give => m.give column row
  | .addValue v => do
    let m ← m.ppAdd column row v
    return (some v, m)
  | .getValue what is => do
    let v ← m.ppGetValue column row
    if is v then return (some v, m) else .error (.thrown what)

/-- What an accessor does with the pointer in a cell. -/
def Access.through (m : Matrix α) (column row : ℕ) (p : Option α) :
    Access α → Except Fault (Option α × Matrix α)
  | .get => .ok (p, m)
  | .call => .ok (p, m)
  | .add val => .ok (none, { m with matrix := m.matrix.set (position m.nbcolmax column row) val })
  | .set val => .ok (none, { m with matrix := m.matrix.set (position m.nbcolmax column row) val })
  | .give => .ok (p, { m with matrix := m.matrix.set (position m.nbcolmax column row) none })
  | .addValue v =>
    .ok (some v, { m with matrix := m.matrix.set (position m.nbcolmax column row) (some v) })
  | .getValue what is =>
    match p with
    | none => .error (m.nullCell column row)
    | some v => if is v then .ok (some v, m) else .error (.thrown what)

/-- An access is what it is to be. -/
def Checked (m : Matrix α) (column row : ℕ) (a : Access α) : Prop :=
  Checks (column < m.nbcol ∧ row < m.nbrow) (m.cell column row) (a.run m column row)
    (fun p => a.through m column row p)

/-- Each pair of indices has a cell of its own in the buffer. -/
def Housed (m : Matrix α) : Prop :=
  Grid.Housed sizeT m.nbcolmax m.matrix.length m.nbcol m.nbrow

/-- The sizes have room: the last cell is in the buffer, and no row reaches into the next one. -/
def RoomFor (m : Matrix α) : Prop :=
  Grid.Packed (m.nbcolmax % sizeT) m.matrix.length m.nbcol m.nbrow

/-- What is done with a matrix, with `resize` with a value and the accessors. -/
inductive Use (α : Type) where
  | event (e : Event α)
  | resizeFill (columns rows : ℕ) (value : Option α)
  | access (column row : ℕ) (a : Access α)

/-- The operations. -/
def Use.run (memory : ℕ) (m : Matrix α) : Use α → Except Fault (Matrix α)
  | .event e => e.run memory m
  | .resizeFill columns rows value => m.resizeFill memory columns rows value
  | .access column row a => Prod.snd <$> a.run m column row

/-- The matrix after an operation. One that throws leaves the matrix as it is, and there is none after
what the language leaves undefined. -/
def use (memory : ℕ) (m : Matrix α) (u : Use α) : Option (Matrix α) :=
  match u.run memory m with
  | .ok m' => some m'
  | .error (.thrown _) => some m
  | .error _ => none

/-- The accesses of a run are what they are to be, and the pairs of indices have cells of their own. -/
def Safe (m : Matrix α) (u : Use α) : Prop :=
  m.Housed ∧ ∀ column row a, u = .access column row a → m.Checked column row a

/-- A typed accessor does not take what a pointer points to. -/
def Access.Refuses (p : Option α) : Access α → Prop
  | .getValue _ is => ∀ v, p = some v → is v = false
  | _ => False

/-- The sizes have room, and no access is to the row below the last one, except by a typed accessor
that does not take what the spare cell there holds. -/
def Avoids (m : Matrix α) (u : Use α) : Prop :=
  m.RoomFor ∧ ∀ column row a, u = .access column row a → column < m.nbcol → row = m.nbrow →
    ∃ p, m.cell column row = some p ∧ a.Refuses p

/-- The sizes of an operation fit. -/
def UseFits (memory : ℕ) (m : Matrix α) (u : Use α) : Prop :=
  (∀ e, u = .event e → m.ReserveEventFits memory e ∧ OfSizes (Matrix.ResizeFits memory) m e) ∧
    ∀ columns rows value, u = .resizeFill columns rows value → m.ResizeFits memory columns rows

/-! ## Which accesses are checked -/

/-- What an accessor does for indices that the check lets through. -/
theorem run_of_check {m : Matrix α} {column row : ℕ} (h : column < m.nbcol ∧ row ≤ m.nbrow)
    (a : Access α) : a.run m column row =
      match m.cell column row with
      | some p => a.through m column row p
      | none => .error .outOfRange := by
  have hcheck : m.checkIndex column row = .ok () := if_pos h
  rcases Nat.lt_or_ge (position m.nbcolmax column row) m.matrix.length with hlt | hge
  · have hcell : m.matrix[position m.nbcolmax column row]? =
        some m.matrix[position m.nbcolmax column row] := List.getElem?_eq_getElem hlt
    have hassign : ∀ p, m.assign column row p =
        .ok { m with matrix := m.matrix.set (position m.nbcolmax column row) p } := fun p => by
      rw [assign, Storage.write, if_pos hlt, Except.ok_bind, Except.pure_eq]
    have hread : read Fault.outOfRange m.matrix (position m.nbcolmax column row) =
        .ok m.matrix[position m.nbcolmax column row] := read_eq_ok.mpr hcell
    rw [cell, hcell]
    cases a with
    | getValue what is =>
      simp only [Access.run, Access.through, ppGetValue, hcheck, hread, Except.ok_bind]
      cases m.matrix[position m.nbcolmax column row] <;> rfl
    | _ =>
      simp only [Access.run, Access.through, get, add, set, give, ppAdd, hcheck, hread, hassign,
        Except.ok_bind, Except.pure_eq]
  · have hcell : m.matrix[position m.nbcolmax column row]? = none := List.getElem?_eq_none hge
    have hassign : ∀ p, m.assign column row p = .error .outOfRange := fun p => by
      rw [assign, Storage.write, if_neg (by omega), Except.error_bind]
    have hread : read Fault.outOfRange m.matrix (position m.nbcolmax column row) =
        .error .outOfRange := by rw [Storage.read, hcell]
    rw [cell, hcell]
    cases a <;> simp only [Access.run, get, add, set, give, ppAdd, ppGetValue, hcheck, hread, hassign,
      Except.ok_bind, Except.error_bind]

/-- What an accessor does for indices that the check refuses. -/
theorem run_of_not_check {m : Matrix α} {column row : ℕ}
    (h : ¬ (column < m.nbcol ∧ row ≤ m.nbrow)) (a : Access α) :
    ∃ what, a.run m column row = .error (.thrown what) := by
  have hcheck : ∃ what, m.checkIndex column row = .error (.thrown what) := ⟨_, if_neg h⟩
  obtain ⟨what, hwhat⟩ := hcheck
  refine ⟨what, ?_⟩
  cases a <;> simp only [Access.run, get, add, set, give, ppAdd, ppGetValue, hwhat, Except.error_bind]

/-- An accessor throws at a cell exactly when it does not take what the cell holds. -/
theorem through_thrown_iff (m : Matrix α) (column row : ℕ) (p : Option α) (a : Access α) :
    (∃ what, a.through m column row p = .error (.thrown what)) ↔ a.Refuses p := by
  cases a with
  | getValue what is =>
    unfold Access.through Access.Refuses
    cases p with
    | none =>
      refine iff_of_true ⟨_, rfl⟩ fun v hv => ?_
      cases hv
    | some v =>
      dsimp only
      cases his : is v with
      | true => simp [his]
      | false => simp [his]
  | _ =>
    refine iff_of_false ?_ id
    rintro ⟨what, h⟩
    cases h

/-- An access is what it is to be exactly when it is not to the row below the last one, or is refused
there. -/
theorem checked_iff {m : Matrix α} (h : m.Housed) (column row : ℕ) (a : Access α) :
    m.Checked column row a ↔ (column < m.nbcol → row = m.nbrow →
      ∃ p, m.cell column row = some p ∧ a.Refuses p) := by
  unfold Checked Checks
  by_cases hcheck : column < m.nbcol ∧ row ≤ m.nbrow
  · rw [run_of_check hcheck]
    rcases Nat.lt_or_eq_of_le hcheck.2 with hlt | heq
    · have hin : position m.nbcolmax column row < m.matrix.length := h.inside _ _ hcheck.1 hlt
      have hcell : m.cell column row = some m.matrix[position m.nbcolmax column row] :=
        List.getElem?_eq_getElem hin
      refine iff_of_true ⟨fun _ => ⟨_, hcell, ?_⟩, fun hn => absurd ⟨hcheck.1, hlt⟩ hn⟩
        fun _ heq => absurd heq hlt.ne
      rw [hcell]
    · have hout : ¬ (column < m.nbcol ∧ row < m.nbrow) := fun hin => absurd hin.2 heq.not_lt
      cases m.cell column row with
      | none =>
        refine iff_of_false (fun hall => ?_) fun hall => ?_
        · obtain ⟨what, hrun⟩ := hall.2 hout
          cases hrun
        · obtain ⟨p, hp, -⟩ := hall hcheck.1 heq
          cases hp
      | some p =>
        dsimp only
        constructor
        · intro hall _ _
          exact ⟨p, rfl, (through_thrown_iff m column row p a).mp (hall.2 hout)⟩
        · intro hall
          obtain ⟨p', hp', hrefuses⟩ := hall hcheck.1 heq
          cases hp'
          exact ⟨fun hin => absurd hin hout,
            fun _ => (through_thrown_iff m column row p a).mpr hrefuses⟩
  · obtain ⟨what, hwhat⟩ := run_of_not_check hcheck a
    refine iff_of_true ⟨fun hin => absurd ⟨hin.1, hin.2.le⟩ hcheck, fun _ => ⟨what, hwhat⟩⟩
      fun hc heq => absurd ⟨hc, heq.le⟩ hcheck

/-- The buffer is small, and the sizes have room in it exactly when the cells are in it. -/
theorem housed_iff {m : Matrix α} (h : m.matrix.length ≤ maxSize) : m.Housed ↔ m.RoomFor :=
  Grid.housed_iff_mod sizeT_pos (two_mul_le_sizeT h)

/-! ## What the operations keep -/

/-- A constructor allocates a buffer. -/
theorem small_of_build {memory : ℕ} {k : Construction} {m : Matrix α}
    (hbuild : k.build memory = .ok m) : m.matrix.length ≤ maxSize := by
  have hsmall : ∀ {size : ℕ} {s : List (Option α)}, allocate memory size = .ok s →
      s.length ≤ maxSize := fun hs => by
    obtain ⟨hsize, rfl⟩ := allocate_eq_ok.mp hs
    rw [List.length_replicate]
    exact hsize.trans (min_le_right _ _)
  cases k with
  | empty =>
    obtain ⟨s, hs, hm⟩ := Except.bind_eq_ok.mp hbuild
    cases hm
    exact hsmall hs
  | ofSizes columns rows resizeColumns resizeRows =>
    obtain ⟨s, hs, hm⟩ := Except.bind_eq_ok.mp hbuild
    cases hm
    exact hsmall hs
  | ofCapacities columns rows columnmax rowmax resizeColumns resizeRows =>
    obtain ⟨s, hs, hm⟩ := Except.bind_eq_ok.mp hbuild
    split_ifs at hm
    cases hm
    exact hsmall hs

/-- What `reserve` leaves when it succeeds. -/
theorem reserve_spec {m m' : Matrix α} {memory columnmax rowmax : ℕ}
    (hrun : m.reserve memory columnmax rowmax = .ok m') :
    (m' = m ∧ columnmax * rowmax % sizeT ≠ 0 ∧ columnmax ≤ m.nbcolmax ∧ rowmax ≤ m.nbrowmax) ∨
      m.Moves memory columnmax rowmax ∧ ∃ s, s.length = columnmax * rowmax % sizeT ∧
        m' = { m with matrix := s, nbcolmax := columnmax, nbrowmax := rowmax } := by
  unfold Matrix.reserve at hrun
  split_ifs at hrun with hnull hsame
  · cases hrun
    exact .inl ⟨rfl, hnull, hsame⟩
  · obtain ⟨tmp, htmp, hrun⟩ := Except.bind_eq_ok.mp hrun
    obtain ⟨hsize, rfl⟩ := allocate_eq_ok.mp htmp
    obtain ⟨r, hr, hm'⟩ := Except.bind_eq_ok.mp hrun
    have hlen := length_of_moveAll hr
    rw [List.length_replicate] at hlen
    cases hm'
    exact .inr ⟨⟨hnull, hsize, hsame⟩, r.2, hlen, rfl⟩

/-- A buffer that `reserve` leaves was allocated. -/
theorem small_of_reserve {m m' : Matrix α} (h : m.matrix.length ≤ maxSize)
    {memory columnmax rowmax : ℕ} (hrun : m.reserve memory columnmax rowmax = .ok m') :
    m'.matrix.length ≤ maxSize := by
  rcases reserve_spec hrun with ⟨rfl, -⟩ | ⟨hmoves, s, hlen, rfl⟩
  · exact h
  · exact hlen.trans_le (hmoves.2.1.trans (min_le_right _ _))

/-- A buffer from which `resize` goes on was allocated. -/
theorem small_of_makeRoom {m m' : Matrix α} (h : m.matrix.length ≤ maxSize)
    {memory columns rows : ℕ} (hrun : m.makeRoom memory columns rows = .ok m') :
    m'.matrix.length ≤ maxSize := by
  unfold makeRoom at hrun
  split_ifs at hrun
  · exact small_of_reserve h hrun
  · cases hrun
    exact h

/-- A `resize` leaves a buffer that was allocated. -/
theorem small_of_resize {m m' : Matrix α} (h : m.matrix.length ≤ maxSize) {memory columns rows : ℕ}
    (hrun : m.resize memory columns rows = .ok m') : m'.matrix.length ≤ maxSize := by
  unfold resize at hrun
  split_ifs at hrun
  · cases hrun
    exact h
  · obtain ⟨m₁, hroom, hrun⟩ := Except.bind_eq_ok.mp hrun
    obtain ⟨m₂, hwrite, hm'⟩ := Except.bind_eq_ok.mp hrun
    obtain ⟨s, rfl, hlen, -⟩ := writeCells_spec hwrite
    cases hm'
    exact hlen.trans_le (small_of_makeRoom h hroom)

/-- An assignment leaves the length of the buffer. -/
theorem small_of_assign {m m' : Matrix α} (h : m.matrix.length ≤ maxSize) {column row : ℕ}
    {p : Option α} (hrun : m.assign column row p = .ok m') : m'.matrix.length ≤ maxSize := by
  obtain ⟨s, hs, hm'⟩ := Except.bind_eq_ok.mp hrun
  obtain ⟨-, rfl⟩ := write_eq_ok.mp hs
  cases hm'
  rwa [List.length_set]

/-- An access leaves the sizes, the capacities and the length of the buffer. -/
theorem length_of_access {m : Matrix α} {column row : ℕ} {a : Access α} {r : Option α × Matrix α}
    (hrun : a.run m column row = .ok r) : ∃ s : List (Option α),
      s.length = m.matrix.length ∧ r.2 = { m with matrix := s } := by
  by_cases hcheck : column < m.nbcol ∧ row ≤ m.nbrow
  · rw [run_of_check hcheck] at hrun
    cases hcell : m.cell column row with
    | none =>
      rw [hcell] at hrun
      cases hrun
    | some p =>
      rw [hcell] at hrun
      cases a with
      | getValue what is =>
        unfold Access.through at hrun
        cases p with
        | none => cases hrun
        | some v =>
          dsimp only at hrun
          split_ifs at hrun
          cases hrun
          exact ⟨m.matrix, rfl, rfl⟩
      | get =>
        cases hrun
        exact ⟨m.matrix, rfl, rfl⟩
      | call =>
        cases hrun
        exact ⟨m.matrix, rfl, rfl⟩
      | add val | set val | give | addValue v =>
        cases hrun
        exact ⟨_, List.length_set, rfl⟩
  · obtain ⟨what, hwhat⟩ := run_of_not_check hcheck a
    rw [hwhat] at hrun
    cases hrun

/-- Every operation leaves a buffer that was allocated. -/
theorem small_of_use {memory : ℕ} {m m' : Matrix α} {u : Use α} (h : m.matrix.length ≤ maxSize)
    (huse : m.use memory u = some m') : m'.matrix.length ≤ maxSize := by
  have hok : ∀ m₁, u.run memory m = .ok m₁ → m₁.matrix.length ≤ maxSize := fun m₁ hrun => by
    cases u with
    | resizeFill columns rows value =>
      change m.resizeFill memory columns rows value = _ at hrun
      unfold resizeFill at hrun
      split_ifs at hrun
      · cases hrun
        exact h
      · obtain ⟨m₂, hroom, hrun⟩ := Except.bind_eq_ok.mp hrun
        obtain ⟨v, -, hrun⟩ := Except.bind_eq_ok.mp hrun
        obtain ⟨m₃, hwrite, hm₁⟩ := Except.bind_eq_ok.mp hrun
        obtain ⟨s, rfl, hlen, -⟩ := writeCells_spec hwrite
        cases hm₁
        exact hlen.trans_le (small_of_makeRoom h hroom)
    | access column row a =>
      cases haccess : a.run m column row with
      | error f =>
        rw [Use.run, haccess] at hrun
        cases hrun
      | ok r =>
        rw [Use.run, haccess] at hrun
        cases hrun
        obtain ⟨s, hs, hr⟩ := length_of_access haccess
        rw [hr]
        exact hs.trans_le h
    | event e =>
      cases e with
      | resize columns rows => exact small_of_resize h hrun
      | increaseAllocation columns rows => exact small_of_resize h hrun
      | addColumn => exact small_of_resize h hrun
      | addRow => exact small_of_resize h hrun
      | reserve columnmax rowmax => exact small_of_reserve h hrun
      | add column row val =>
        obtain ⟨_, -, hrun⟩ := Except.bind_eq_ok.mp hrun
        exact small_of_assign h hrun
      | set column row val =>
        obtain ⟨_, -, hrun⟩ := Except.bind_eq_ok.mp hrun
        exact small_of_assign h hrun
      | give column row =>
        cases haccess : (Access.give : Access α).run m column row with
        | error f =>
          rw [Use.run, Event.run, show m.give column row = _ from haccess] at hrun
          cases hrun
        | ok r =>
          rw [Use.run, Event.run, show m.give column row = _ from haccess] at hrun
          cases hrun
          obtain ⟨s, hs, hr⟩ := length_of_access haccess
          rw [hr]
          exact hs.trans_le h
      | addToLastCell val => exact small_of_assign h hrun
      | moveLastCell =>
        cases hrun
        unfold moveLastCell
        dsimp only
        split_ifs <;> exact h
      | clear =>
        cases hrun
        rwa [Matrix.clear, List.length_map]
      | clone =>
        obtain ⟨_, -, hm₁⟩ := Except.bind_eq_ok.mp hrun
        cases hm₁
        exact h
  unfold use at huse
  cases hrun : u.run memory m with
  | ok m₁ =>
    rw [hrun] at huse
    cases huse
    exact hok _ hrun
  | error f =>
    rw [hrun] at huse
    cases f with
    | thrown what =>
      cases huse
      exact h
    | outOfRange => cases huse
    | null => cases huse

/-- Along a run the accesses are what they are to be exactly when the sizes have room and no access is
let through to the row below the last one. -/
theorem safe_along_iff {memory : ℕ} {k : Construction} {m : Matrix α}
    (hbuild : k.build memory = .ok m) (us : List (Use α)) :
    Along (Matrix.use memory) Matrix.Safe m us ↔ Along (Matrix.use memory) Matrix.Avoids m us := by
  refine along_iff (I := fun m => m.matrix.length ≤ maxSize) (E := fun _ _ => True)
    (fun m u h _ => ?_) (fun _ _ _ h _ _ huse => small_of_use h huse) (small_of_build hbuild)
    (along_true _ _)
  unfold Safe Avoids
  rw [housed_iff h]
  refine and_congr_right fun hroom => forall₄_congr fun column row a _ => ?_
  exact checked_iff ((housed_iff h).mpr hroom) column row a

/-! ## When the sizes have room -/

/-- A well-formed matrix has room for its sizes. -/
theorem WellFormed.roomFor {m : Matrix α} (h : m.WellFormed) : m.RoomFor := by
  rcases Nat.eq_zero_or_pos m.nbcol with hc | hc
  · exact .inl hc
  rcases Nat.eq_zero_or_pos m.nbrow with hr | hr
  · exact .inr (.inl hr)
  have hcolumns := h.columns
  have hrows := h.rows
  have hlast : (m.nbrow - 1) * m.nbcolmax + (m.nbcol - 1) < m.nbcolmax * m.nbrowmax :=
    place_lt (by omega) (by omega)
  have hstride : m.nbcolmax ≤ m.matrix.length := by
    rw [h.length]
    exact Nat.le_mul_of_pos_right _ (by omega)
  have hmod : m.nbcolmax % sizeT = m.nbcolmax :=
    Nat.mod_eq_of_lt (lt_of_le_of_lt (hstride.trans h.small) maxSize_lt)
  unfold RoomFor
  rw [hmod]
  refine .inr (.inr ⟨?_, .inl hcolumns⟩)
  rw [h.length]
  omega

/-- From a well-formed matrix `resize` goes on in a buffer with room for sizes that fit. -/
theorem WellFormed.makeRoom {m m' : Matrix α} (h : m.WellFormed) {memory columns rows : ℕ}
    (hpos : columns * rows % sizeT ≠ 0) (hfits : m.ResizeFits memory columns rows)
    (hrun : m.makeRoom memory columns rows = .ok m') :
    WellFormed { m' with nbcol := columns, nbrow := rows } := by
  unfold ResizeFits at hfits
  rw [if_neg hpos] at hfits
  unfold Matrix.makeRoom at hrun
  split_ifs at hrun with hgrow
  · obtain ⟨hsame, hmoves⟩ := hfits hgrow
    rcases reserve_spec hrun with ⟨rfl, hnull, hcap⟩ | ⟨hmove, s, hlen, rfl⟩
    · obtain ⟨hc, hr⟩ := hsame hnull hcap
      exact ⟨hc, hr, h.length, h.small⟩
    · obtain ⟨hc, hr, hwrap, -⟩ := hmoves hmove
      refine ⟨hc, hr, ?_, ?_⟩
      · exact hlen.trans (Nat.mod_eq_of_lt hwrap)
      · exact hlen.trans_le (hmove.2.1.trans (min_le_right _ _))
  · rw [not_or, not_le, not_le] at hgrow
    cases hrun
    exact ⟨hgrow.1.le, hgrow.2.le, h.length, h.small⟩

/-- `resize` with a value keeps a matrix well formed when the sizes fit. -/
theorem WellFormed.resizeFill {m m' : Matrix α} (h : m.WellFormed) {memory columns rows : ℕ}
    {value : Option α} (hfits : m.ResizeFits memory columns rows)
    (hrun : m.resizeFill memory columns rows value = .ok m') : m'.WellFormed := by
  unfold Matrix.resizeFill at hrun
  by_cases hpos : columns * rows % sizeT = 0
  · rw [if_pos hpos] at hrun
    unfold ResizeFits at hfits
    rw [if_pos hpos] at hfits
    cases hrun
    exact ⟨hfits.1, hfits.2, h.length, h.small⟩
  · rw [if_neg hpos] at hrun
    obtain ⟨m₁, hroom, hrun⟩ := Except.bind_eq_ok.mp hrun
    obtain ⟨v, -, hrun⟩ := Except.bind_eq_ok.mp hrun
    obtain ⟨m₂, hwrite, hm'⟩ := Except.bind_eq_ok.mp hrun
    obtain ⟨s, rfl, hlen, -⟩ := writeCells_spec hwrite
    have h₁ := h.makeRoom hpos hfits hroom
    cases hm'
    exact ⟨h₁.columns, h₁.rows, hlen.trans h₁.length, hlen.trans_le h₁.small⟩

/-- Every operation whose sizes fit keeps a matrix well formed. -/
theorem WellFormed.use {m m' : Matrix α} (h : m.WellFormed) {memory : ℕ} {u : Use α}
    (hfits : m.UseFits memory u) (huse : m.use memory u = some m') : m'.WellFormed := by
  cases u with
  | event e =>
    obtain ⟨hreserve, hresize⟩ := hfits.1 e rfl
    exact h.next hreserve hresize huse
  | resizeFill columns rows value =>
    cases hrun : m.resizeFill memory columns rows value with
    | ok m₁ =>
      rw [Matrix.use, Use.run, hrun] at huse
      cases huse
      exact h.resizeFill (hfits.2 columns rows value rfl) hrun
    | error f =>
      rw [Matrix.use, Use.run, hrun] at huse
      cases f with
      | thrown what =>
        cases huse
        exact h
      | outOfRange => cases huse
      | null => cases huse
  | access column row a =>
    cases hrun : a.run m column row with
    | ok r =>
      rw [Matrix.use, Use.run, hrun] at huse
      obtain ⟨s, hs, hr⟩ := length_of_access hrun
      cases huse
      rw [hr]
      exact ⟨h.columns, h.rows, hs.trans h.length, hs.trans_le h.small⟩
    | error f =>
      rw [Matrix.use, Use.run, hrun] at huse
      cases f with
      | thrown what =>
        cases huse
        exact h
      | outOfRange => cases huse
      | null => cases huse

/-- The sizes have room along a run whose constructor and operations fit. -/
theorem roomFor_along {memory : ℕ} {k : Construction} {m : Matrix α}
    (hbuild : k.build memory = .ok m) (hfits : k.Fits) {us : List (Use α)}
    (huses : Along (Matrix.use memory) (Matrix.UseFits memory) m us) :
    Along (Matrix.use memory) (fun m _ => m.RoomFor) m us :=
  along_of_inv (fun _ _ (h : WellFormed _) _ => h.roomFor) (fun _ _ _ h hu huse => h.use hu huse)
    (wellFormed_of_build hbuild hfits) huses

end Matrix

/-- In every run of a matrix, a table or a tuple the accesses throw outside of the dimensions and go to
a cell of their own inside, exactly when the sizes have room and no access is to what the checks let
through: the row below the last one of a matrix, a place of a table up to the size of its vector, and
the size of a tuple. The sizes of a matrix have room when they fit in the constructor and in each
operation that changes them. -/
theorem checked_accesses {α D : Type} [Zero D] (memory : ℕ) (number : List Char → Option D) :
    (∀ (k : Matrix.Construction) (m : Matrix α), k.build memory = .ok m →
      ∀ us : List (Matrix.Use α),
        (Along (Matrix.use memory) Matrix.Safe m us ↔
          Along (Matrix.use memory) Matrix.Avoids m us) ∧
        (k.Fits → Along (Matrix.use memory) (Matrix.UseFits memory) m us →
          Along (Matrix.use memory) (fun m _ => m.RoomFor) m us)) ∧
    (∀ (k : Table.Construction) (t : Table D), k.build memory = .ok t →
      ∀ es : List (Table.Event D), Along (Table.next memory number) Table.Safe t es ↔
        Along (Table.next memory number) Table.Avoids t es) ∧
    ∀ (t : Tuple D) (es : List (Tuple.Event D)),
      Along (Tuple.next memory number) Tuple.Safe t es ↔
        Along (Tuple.next memory number) Tuple.Avoids t es :=
  ⟨fun _ _ hbuild us => ⟨Matrix.safe_along_iff hbuild us,
      fun hfits huses => Matrix.roomFor_along hbuild hfits huses⟩,
    fun _ _ hbuild es => Table.safe_along_iff hbuild es,
    fun t es => Tuple.safe_along_iff memory number t es⟩

theorem checked_accesses_sample :
    (∃ m : Matrix ℕ, (Matrix.Construction.ofSizes 2 1 1 1).build 100 = .ok m ∧
      (Along (Matrix.use 100) Matrix.Safe m [.access 1 0 .give] ↔
        Along (Matrix.use 100) Matrix.Avoids m [.access 1 0 .give]) ∧
      Along (Matrix.use 100) (fun m _ => m.RoomFor) m [.access 1 0 .give]) ∧
    (∃ t : Table ℕ, (Table.Construction.ofSize 2 3).build 100 = .ok t ∧
      (Along (Table.next 100 fun _ => none) Table.Safe t [.access 1 2 none] ↔
        Along (Table.next 100 fun _ => none) Table.Avoids t [.access 1 2 none])) ∧
    (Along (Tuple.next 100 fun _ => none) Tuple.Safe (⟨[1, 2]⟩ : Tuple ℕ) [.access 1 none] ↔
      Along (Tuple.next 100 fun _ => none) Tuple.Avoids (⟨[1, 2]⟩ : Tuple ℕ) [.access 1 none]) := by
  have h := checked_accesses (α := ℕ) (D := ℕ) 100 fun _ => none
  have hfits : (Matrix.Construction.ofSizes 2 1 1 1).Fits := by
    unfold Matrix.Construction.Fits sizeT
    decide
  have huses : ∀ m : Matrix ℕ,
      Along (Matrix.use 100) (Matrix.UseFits 100) m [.access 1 0 .give] := fun m =>
    ⟨⟨fun e he => (by cases he), fun _ _ _ he => (by cases he)⟩, fun _ _ => trivial⟩
  refine ⟨?_, ?_, h.2.2 _ _⟩
  · refine ⟨⟨[none, none], 2, 1, 2, 1, 1, 1, 0, 0⟩, rfl, ?_⟩
    obtain ⟨hiff, hroom⟩ := h.1 (Matrix.Construction.ofSizes 2 1 1 1)
      ⟨[none, none], 2, 1, 2, 1, 1, 1, 0, 0⟩ rfl [.access 1 0 .give]
    exact ⟨hiff, hroom hfits (huses _)⟩
  · exact ⟨⟨[0, 0, 0, 0, 0, 0], 2, 3⟩, rfl, h.2.1 (Table.Construction.ofSize 2 3) _ rfl _⟩

/-- The row below the last one of a matrix, a column of a table that is one of the next row, the pair
past the end of a table and the size of a tuple are let through. -/
theorem not_checked_accesses :
    (∃ m : Matrix ℕ, (Matrix.Construction.ofSizes 2 1 1 1).build 100 = .ok m ∧
      ¬ Along (Matrix.use 100) Matrix.Safe m [.access 0 1 .get]) ∧
    (∃ t : Table ℕ, (Table.Construction.ofSize 2 3).build 100 = .ok t ∧
      ¬ Along (Table.next 100 fun _ => none) Table.Safe t [.access 2 0 none] ∧
      ¬ Along (Table.next 100 fun _ => none) Table.Safe t [.access 0 3 none]) ∧
    ¬ Along (Tuple.next 100 fun _ => none) Tuple.Safe (⟨[1, 2]⟩ : Tuple ℕ) [.access 2 none] := by
  refine ⟨⟨⟨[none, none], 2, 1, 2, 1, 1, 1, 0, 0⟩, rfl, fun h => ?_⟩,
    ⟨⟨[0, 0, 0, 0, 0, 0], 2, 3⟩, rfl, fun h => ?_, fun h => ?_⟩, fun h => ?_⟩
  · obtain ⟨what, hrun⟩ := (h.1.2 0 1 .get rfl).2 (by decide)
    cases hrun
  · obtain ⟨what, hrun⟩ := (h.1.2 2 0 none rfl).2 (by decide)
    cases hrun
  · obtain ⟨what, hrun⟩ := (h.1.2 0 3 none rfl).2 (by decide)
    cases hrun
  · obtain ⟨what, hrun⟩ := (h.1 2 none rfl).2 (by decide)
    cases hrun

end Vle
