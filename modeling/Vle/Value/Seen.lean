import Vle.Value.Value

/-!
# What is seen of a value

A matrix may keep cells outside of its dimensions, which no access shows. What is seen of a value is the
value without them.
-/

namespace Vle.Value

variable {D : Type}

/-- The cells of a buffer, those outside of the dimensions null. -/
def shown (size : MatrixSize) (cells : List (Option (Value D))) : List (Option (Value D)) :=
  cells.mapIdx fun k p =>
    if k % size.columnsMax < size.columns ∧ k / size.columnsMax < size.rows then p else none

mutual

/-- A value without the cells that its matrices do not show. -/
def seen : Value D → Value D
  | .set l => .set (seenEach l)
  | .map l => .map (seenKeys l)
  | .matrix size cells => .matrix size (shown size (seenEach cells))
  | v => v

def seenEach : List (Option (Value D)) → List (Option (Value D))
  | [] => []
  | none :: l => none :: seenEach l
  | some v :: l => some (seen v) :: seenEach l

def seenKeys : List (String × Option (Value D)) → List (String × Option (Value D))
  | [] => []
  | (k, none) :: l => (k, none) :: seenKeys l
  | (k, some v) :: l => (k, some (seen v)) :: seenKeys l

end

theorem seenEach_eq (l : List (Option (Value D))) : seenEach l = l.map (Option.map seen) := by
  induction l with
  | nil => simp [seenEach]
  | cons p l ih => cases p <;> simp [seenEach, ih]

theorem seenKeys_eq (l : List (String × Option (Value D))) :
    seenKeys l = l.map fun q => (q.1, q.2.map seen) := by
  induction l with
  | nil => simp [seenKeys]
  | cons q l ih =>
    obtain ⟨k, p⟩ := q
    cases p <;> simp [seenKeys, ih]

/-- Induction on a value, with the values that its containers hold. -/
theorem induction {motive : Value D → Prop} (boolean : ∀ b, motive (.boolean b))
    (integer : ∀ n, motive (.integer n)) (double : ∀ d, motive (.double d))
    (string : ∀ s, motive (.string s))
    (set : ∀ l, (∀ v, some v ∈ l → motive v) → motive (.set l))
    (map : ∀ l, (∀ k v, (k, some v) ∈ l → motive v) → motive (.map l))
    (tuple : ∀ t, motive (.tuple t)) (table : ∀ width height t, motive (.table width height t))
    (xml : ∀ s, motive (.xml s)) (null : motive .null)
    (matrix : ∀ size cells, (∀ v, some v ∈ cells → motive v) → motive (.matrix size cells)) :
    ∀ v, motive v := by
  intro v
  refine @Value.rec D motive (fun l => ∀ v, some v ∈ l → motive v)
    (fun l => ∀ k v, (k, some v) ∈ l → motive v) (fun p => ∀ v, p = some v → motive v)
    (fun q => ∀ v, q.2 = some v → motive v) boolean integer double string set map tuple table xml null matrix ?_ ?_ ?_ ?_ ?_ ?_ ?_ v
  · intro v hv
    cases hv
  · intro p l hp hl v hv
    rcases List.mem_cons.1 hv with rfl | hv
    · exact hp v rfl
    · exact hl v hv
  · intro k v hv
    cases hv
  · intro q l hq hl k v hv
    rcases List.mem_cons.1 hv with rfl | hv
    · exact hq v rfl
    · exact hl k v hv
  · intro v hv
    cases hv
  · intro v hv w hw
    cases hw
    exact hv
  · intro k p hp v hv
    exact hp v hv

end Vle.Value
