import Vle.Value.Value

/-!
# Places in a value

The place of a value in another one is the way to it: a position in each set or map. The values at places
none of which is on the way to the other are read and written apart.
-/

namespace Vle.Value

variable {D : Type}

/-- An element of a `Set` or of a `Map`, unless its pointer is null. -/
def child (v : Value D) (i : ℕ) : Option (Value D) :=
  match v with
  | .set l => (l[i]?).join
  | .map m => (m[i]?).bind Prod.snd
  | _ => none

/-- A value with another element. -/
def setChild (v : Value D) (i : ℕ) (u : Value D) : Value D :=
  match v with
  | .set l => .set (l.set i (some u))
  | .map m => .map (m.modify i fun e => (e.1, some u))
  | v => v

/-- The value at a place. -/
def valueAt (v : Value D) : List ℕ → Option (Value D)
  | [] => some v
  | i :: p => (v.child i).bind fun u => u.valueAt p

/-- A value with another one at a place. -/
def putAt (u : Value D) (v : Value D) : List ℕ → Value D
  | [] => u
  | i :: p =>
    match v.child i with
    | some w => v.setChild i (putAt u w p)
    | none => v

/-- The values without elements that a text stands for. -/
def isLeaf : Value D → Bool
  | .boolean _ => true
  | .integer _ => true
  | .double _ => true
  | .string _ => true
  | _ => false

section Elements

variable {v w : Value D} {i j : ℕ}

theorem child_of_leaf (h : v.isLeaf = true) (i : ℕ) : v.child i = none := by
  cases v <;> first | rfl | cases h

theorem child_setChild_self (h : v.child i = some w) (u : Value D) : (v.setChild i u).child i = some u := by
  cases v with
  | set l =>
    simp only [child, Option.join_eq_some_iff] at h
    have hlt := (List.getElem?_eq_some_iff.mp h).1
    simp [setChild, child, hlt]
  | map m =>
    simp only [child, Option.bind_eq_some_iff] at h
    obtain ⟨e, he, -⟩ := h
    simp [setChild, child, he]
  | _ => cases h

theorem child_setChild_of_ne (h : i ≠ j) (u : Value D) : (v.setChild i u).child j = v.child j := by
  cases v with
  | set l => simp [setChild, child, List.getElem?_set_ne h]
  | map m => simp [setChild, child, h]
  | _ => rfl

theorem setChild_setChild (u u' : Value D) : (v.setChild i u).setChild i u' = v.setChild i u' := by
  cases v with
  | set l => simp [setChild]
  | map m =>
    simp only [setChild, map.injEq]
    refine List.ext_getElem? fun k => ?_
    rw [List.getElem?_modify, List.getElem?_modify, List.getElem?_modify]
    by_cases hk : i = k <;> cases m[k]? <;> simp [hk]
  | _ => rfl

theorem setChild_comm (h : i ≠ j) (u u' : Value D) :
    (v.setChild i u).setChild j u' = (v.setChild j u').setChild i u := by
  cases v with
  | set l =>
    simp only [setChild, set.injEq]
    exact List.set_comm _ _ h
  | map m =>
    simp only [setChild, map.injEq]
    refine List.ext_getElem? fun k => ?_
    rw [List.getElem?_modify, List.getElem?_modify, List.getElem?_modify, List.getElem?_modify]
    by_cases hi : i = k
    · subst hi
      simp [Ne.symm h]
    · by_cases hj : j = k <;> cases m[k]? <;> simp [hi, hj]
  | _ => rfl

theorem setChild_self (h : v.child i = some w) : v.setChild i w = v := by
  cases v with
  | set l =>
    simp only [child, Option.join_eq_some_iff] at h
    simp only [setChild, set.injEq]
    refine List.ext_getElem? fun k => ?_
    by_cases hk : i = k
    · subst hk
      rw [h, List.getElem?_set_self (List.getElem?_eq_some_iff.mp h).1]
    · rw [List.getElem?_set_ne hk]
  | map m =>
    simp only [child, Option.bind_eq_some_iff] at h
    obtain ⟨⟨key, p⟩, he, rfl⟩ := h
    simp only [setChild, map.injEq]
    refine List.ext_getElem? fun k => ?_
    rw [List.getElem?_modify]
    by_cases hk : i = k
    · subst hk
      simp [he]
    · simp [hk]
  | _ => cases h

end Elements

/-- No place is on the way to the other. -/
def Apart (p q : List ℕ) : Prop := ¬ p <+: q ∧ ¬ q <+: p

theorem Apart.symm {p q : List ℕ} (h : Apart p q) : Apart q p := ⟨h.2, h.1⟩

/-- Places that are apart part at their first position or later. -/
theorem Apart.cons {i j : ℕ} {p q : List ℕ} (h : Apart (i :: p) (j :: q)) : i ≠ j ∨ i = j ∧ Apart p q := by
  by_cases hij : i = j
  · subst hij
    exact .inr ⟨rfl, fun hp => h.1 (List.cons_prefix_cons.mpr ⟨rfl, hp⟩),
      fun hp => h.2 (List.cons_prefix_cons.mpr ⟨rfl, hp⟩)⟩
  · exact .inl hij

section Places

variable {v w : Value D} {p q : List ℕ}

/-- The value that has been put at a place. -/
theorem valueAt_putAt_self (h : v.valueAt p = some w) (u : Value D) : (putAt u v p).valueAt p = some u := by
  induction p generalizing v with
  | nil => rfl
  | cons i p ih =>
    obtain ⟨x, hx, hrest⟩ := Option.bind_eq_some_iff.mp h
    simp only [putAt, hx, valueAt, child_setChild_self hx, Option.bind_some]
    exact ih hrest

/-- The value at a place that is apart. -/
theorem valueAt_putAt_of_apart (h : Apart p q) (u : Value D) : (putAt u v p).valueAt q = v.valueAt q := by
  induction p generalizing v q with
  | nil => exact absurd (List.nil_prefix) h.1
  | cons i p ih =>
    cases q with
    | nil => exact absurd (List.nil_prefix) h.2
    | cons j q =>
      simp only [putAt]
      cases hx : v.child i with
      | none => rfl
      | some x =>
        simp only [valueAt]
        rcases h.cons with hij | ⟨rfl, hpq⟩
        · rw [child_setChild_of_ne hij]
        · rw [child_setChild_self hx, hx, Option.bind_some, Option.bind_some, ih hpq]

theorem putAt_putAt_self (u u' : Value D) : putAt u' (putAt u v p) p = putAt u' v p := by
  induction p generalizing v with
  | nil => rfl
  | cons i p ih =>
    cases hx : v.child i with
    | none => simp only [putAt, hx]
    | some x => simp only [putAt, hx, child_setChild_self hx, setChild_setChild, ih]

theorem putAt_comm (h : Apart p q) (u u' : Value D) :
    putAt u (putAt u' v q) p = putAt u' (putAt u v p) q := by
  induction p generalizing v q with
  | nil => exact absurd (List.nil_prefix) h.1
  | cons i p ih =>
    cases q with
    | nil => exact absurd (List.nil_prefix) h.2
    | cons j q =>
      rcases h.cons with hij | ⟨rfl, hpq⟩
      · cases hx : v.child i with
        | none =>
          cases hy : v.child j with
          | none => simp only [putAt, hx, hy]
          | some y => simp only [putAt, hx, hy, child_setChild_of_ne (Ne.symm hij)]
        | some x =>
          cases hy : v.child j with
          | none => simp only [putAt, hx, hy, child_setChild_of_ne hij]
          | some y =>
            simp only [putAt, hx, hy, child_setChild_of_ne hij, child_setChild_of_ne (Ne.symm hij)]
            exact setChild_comm (Ne.symm hij) _ _
      · cases hx : v.child i with
        | none => simp only [putAt, hx]
        | some x => simp only [putAt, hx, child_setChild_self hx, setChild_setChild, ih hpq]

theorem putAt_self (h : v.valueAt p = some w) : putAt w v p = v := by
  induction p generalizing v with
  | nil => exact (Option.some.inj h).symm
  | cons i p ih =>
    obtain ⟨x, hx, hrest⟩ := Option.bind_eq_some_iff.mp h
    simp only [putAt, hx, ih hrest]
    exact setChild_self hx

/-- Nothing is below a value without elements. -/
theorem apart_of_leaf (hw : v.valueAt p = some w) (hleaf : w.isLeaf = true) {u : Value D}
    (hu : v.valueAt q = some u) (hne : p ≠ q) : ¬ p <+: q := by
  induction p generalizing v q with
  | nil =>
    cases q with
    | nil => exact absurd rfl hne
    | cons j q =>
      cases hw
      obtain ⟨x, hx, -⟩ := Option.bind_eq_some_iff.mp hu
      rw [child_of_leaf hleaf] at hx
      cases hx
  | cons i p ih =>
    intro hprefix
    cases q with
    | nil => exact absurd hprefix (by simp)
    | cons j q =>
      obtain ⟨rfl, hpq⟩ := List.cons_prefix_cons.mp hprefix
      obtain ⟨x, hx, hw⟩ := Option.bind_eq_some_iff.mp hw
      obtain ⟨y, hy, hu⟩ := Option.bind_eq_some_iff.mp hu
      rw [hx, Option.some.injEq] at hy
      subst hy
      exact ih hw hu (fun heq => hne (by rw [heq])) hpq

end Places

end Vle.Value
