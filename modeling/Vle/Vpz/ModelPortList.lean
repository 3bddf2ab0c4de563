import Vle.Lib.Keyed
import Mathlib.Data.Multiset.Count
import Mathlib.Tactic

/-!
# Lists of connection ends

A `ModelPortList` is a `std::multimap` from models to port names. Models are named by identifiers,
whose order stands for the order of the addresses, and the sortedness of the map is a field of the
structure. `remove` walks the equal range of a model with two iterators and erases as it goes;
`remove_lst` says that this leaves exactly the entries that differ from the given one.
-/

namespace Vle.Vpz

open Vle.Lib

/-- What stands for the address of a model. -/
abbrev NodeId := ℕ

/-- A model and the name of one of its ports. -/
abbrev ModelPort := NodeId × String

/-- A multimap from models to port names, in the order of its keys. -/
structure ModelPortList where
  lst : List ModelPort
  sorted : lst.Pairwise fun a b => a.1 ≤ b.1

namespace ModelPortList

/-- The empty list. -/
def empty : ModelPortList := ⟨[], List.Pairwise.nil⟩

/-- Inserting past the entries with the same key or a smaller one keeps the order of the keys. -/
theorem sorted_insert (l : List ModelPort) (h : l.Pairwise fun a b => a.1 ≤ b.1) (e : ModelPort) :
    (l.orderedInsert (fun a b => a.1 < b.1) e).Pairwise fun a b => a.1 ≤ b.1 := by
  induction l with
  | nil => simp
  | cons b l ih =>
    rw [List.pairwise_cons] at h
    rw [List.orderedInsert_cons]
    split_ifs with hlt
    · refine List.pairwise_cons.mpr ⟨fun c hc => ?_, List.pairwise_cons.mpr h⟩
      rcases List.mem_cons.mp hc with rfl | hc
      · exact hlt.le
      · exact hlt.le.trans (h.1 c hc)
    · refine List.pairwise_cons.mpr ⟨fun c hc => ?_, ih h.2⟩
      rcases List.mem_cons.mp ((List.perm_orderedInsert _ e l).mem_iff.mp hc) with rfl | hc
      · exact not_lt.mp hlt
      · exact h.1 c hc

/-- Add an entry, after those of the same model. -/
def add (l : ModelPortList) (model : NodeId) (portname : String) : ModelPortList :=
  ⟨l.lst.orderedInsert (fun a b => a.1 < b.1) (model, portname),
    sorted_insert l.lst l.sorted (model, portname)⟩

/-- The loop of `remove` over the equal range `[it, last)`, with the iterators as positions. -/
def removeLoop (portname : String) : ℕ → List ModelPort → ℕ → ℕ → ℕ → List ModelPort
  | 0, lst, _, _, _ => lst
  | fuel + 1, lst, it, previous, last =>
    if it = last then lst
    else match lst[it]? with
      | none => lst
      | some e =>
        if e.2 = portname then
          -- Erasing shifts the positions past `it`, so `it++` before `erase(previous)` is `it`.
          if it = previous then removeLoop portname fuel (lst.eraseIdx it) it it (last - 1)
          else removeLoop portname fuel (lst.eraseIdx it) previous previous (last - 1)
        else removeLoop portname fuel lst (it + 1) it last

/-- The loop only erases entries. -/
theorem removeLoop_sublist (portname : String) (fuel : ℕ) (lst : List ModelPort)
    (it previous last : ℕ) : (removeLoop portname fuel lst it previous last).Sublist lst := by
  induction fuel generalizing lst it previous last with
  | zero => exact List.Sublist.refl lst
  | succ fuel ih =>
    rw [removeLoop]
    split
    · exact List.Sublist.refl lst
    split
    · exact List.Sublist.refl lst
    split
    · split
      · exact (ih _ _ _ _).trans (List.eraseIdx_sublist lst it)
      · exact (ih _ _ _ _).trans (List.eraseIdx_sublist lst it)
    · exact ih _ _ _ _

/-- The start and the end of the entries of a model: `equal_range`. -/
def equalRange (l : ModelPortList) (model : NodeId) : ℕ × ℕ :=
  ((l.lst.takeWhile (·.1 < model)).length, (l.lst.takeWhile (·.1 ≤ model)).length)

/-- Remove every entry equal to `(model, portname)`. -/
def remove (l : ModelPortList) (model : NodeId) (portname : String) : ModelPortList :=
  let its := l.equalRange model
  ⟨removeLoop portname (2 * l.lst.length + 1) l.lst its.1 its.1 its.2,
    l.sorted.sublist (removeLoop_sublist ..)⟩

/-- Add the entries of another list. -/
def merge (l : ModelPortList) (lst : ModelPortList) : ModelPortList :=
  lst.lst.foldl (fun l elem => l.add elem.1 elem.2) l

/-- Erase every entry of a model. -/
def erase (l : ModelPortList) (model : NodeId) : ModelPortList :=
  ⟨l.lst.filter (·.1 ≠ model), l.sorted.sublist List.filter_sublist⟩

/-- Whether an entry is in the list: the entries of the model are compared one after the other. -/
def exist (l : ModelPortList) (model : NodeId) (portname : String) : Bool :=
  let its := l.equalRange model
  ((l.lst.take its.2).drop its.1).any (·.2 = portname)

@[simp] theorem empty_lst : empty.lst = [] := rfl

/-- Adding an entry adds it once, wherever it goes. -/
theorem add_perm (l : ModelPortList) (model : NodeId) (portname : String) :
    (l.add model portname).lst.Perm ((model, portname) :: l.lst) :=
  List.perm_orderedInsert _ _ _

@[simp] theorem erase_lst (l : ModelPortList) (model : NodeId) :
    (l.erase model).lst = l.lst.filter (·.1 ≠ model) := rfl

/-- The list is cut by the equal range of a model: smaller keys, the key, greater keys. -/
theorem lst_split (l : ModelPortList) (model : NodeId) :
    l.lst = l.lst.filter (·.1 < model) ++ l.lst.filter (·.1 = model) ++
      l.lst.filter (model < ·.1) := Keyed.cut l.sorted model

/-- The equal range as positions in the cut list. -/
theorem equalRange_eq (l : ModelPortList) (model : NodeId) :
    l.equalRange model = ((l.lst.filter (·.1 < model)).length,
      (l.lst.filter (·.1 < model)).length + (l.lst.filter (·.1 = model)).length) := by
  rw [equalRange, Keyed.takeWhile_lt l.sorted, Keyed.takeWhile_le l.sorted, List.length_append]

/-- The loop of `remove` keeps of the rest `todo` of the equal range what has another port name.
`done` is what it has passed; `previous` is `it`, or the position before it, whose entry stays. -/
theorem removeLoop_eq (portname : String) (fuel : ℕ) (done todo after : List ModelPort)
    (previous : ℕ) (hprev : previous = done.length ∨
      ∃ done' e, done = done' ++ [e] ∧ previous = done'.length ∧ e.2 ≠ portname)
    (hfuel : 2 * todo.length + (done.length - previous) < fuel) :
    removeLoop portname fuel (done ++ todo ++ after) done.length previous
      (done.length + todo.length) = done ++ todo.filter (·.2 ≠ portname) ++ after := by
  induction fuel generalizing done todo previous with
  | zero => omega
  | succ fuel ih =>
    rw [removeLoop]
    cases todo with
    | nil => simp
    | cons e todo =>
      have hget : (done ++ e :: todo ++ after)[done.length]? = some e := by simp
      have herase : (done ++ e :: todo ++ after).eraseIdx done.length = done ++ todo ++ after := by
        rw [List.append_assoc, List.eraseIdx_append_of_length_le le_rfl]
        simp
      rw [if_neg (by simp), hget]
      dsimp only
      by_cases he : e.2 = portname
      · rw [if_pos he, herase, List.filter_cons_of_neg (by simpa using he)]
        rcases hprev with rfl | ⟨done', e', rfl, rfl, he'⟩
        · rw [if_pos rfl]
          exact ih done todo done.length (.inl rfl) (by simp at hfuel ⊢; omega)
        · -- `it = previous` steps back to an entry that stays.
          rw [if_neg (by simp)]
          have := ih done' (e' :: todo) done'.length (.inl rfl) (by simp at hfuel ⊢; omega)
          rw [List.filter_cons_of_pos (by simpa using he')] at this
          simpa [Nat.add_comm, Nat.add_left_comm] using this
      · rw [if_neg he, List.filter_cons_of_pos (by simpa using he)]
        have := ih (done ++ [e]) todo done.length (.inr ⟨done, e, rfl, rfl, he⟩)
          (by simp at hfuel ⊢; omega)
        simpa [Nat.add_comm, Nat.add_left_comm] using this

/-- `remove` takes out every entry equal to `(model, portname)` and no other. -/
@[simp] theorem remove_lst (l : ModelPortList) (model : NodeId) (portname : String) :
    (l.remove model portname).lst = l.lst.filter (· ≠ (model, portname)) := by
  have hloop := removeLoop_eq portname (2 * l.lst.length + 1) (l.lst.filter (·.1 < model))
    (l.lst.filter (·.1 = model)) (l.lst.filter (model < ·.1)) _ (.inl rfl)
    (by have := List.length_filter_le (fun e : ModelPort => decide (e.1 = model)) l.lst; omega)
  rw [← l.lst_split model] at hloop
  rw [Keyed.filter_at l.sorted] at hloop
  simp only [remove, equalRange_eq]
  rw [hloop]
  exact List.filter_congr fun e _ => by
    rw [decide_eq_decide]
    simp [Prod.ext_iff, or_iff_not_imp_left]

/-- `exist` finds an entry exactly when it is in the list. -/
theorem exist_iff (l : ModelPortList) (model : NodeId) (portname : String) :
    l.exist model portname = true ↔ (model, portname) ∈ l.lst := by
  have hrange : (l.lst.take (l.equalRange model).2).drop (l.equalRange model).1 =
      l.lst.filter (·.1 = model) := by
    rw [equalRange_eq]
    have hsplit := l.lst_split model
    generalize l.lst.filter (·.1 < model) = before at hsplit ⊢
    generalize l.lst.filter (·.1 = model) = entries at hsplit ⊢
    rw [hsplit, ← List.length_append, List.take_left, List.drop_left]
  rw [exist, hrange, List.any_eq_true]
  constructor
  · rintro ⟨⟨m, p⟩, hmem, hp⟩
    obtain ⟨hmem', hm⟩ := List.mem_filter.mp hmem
    rw [decide_eq_true_eq] at hm hp
    subst hm hp
    exact hmem'
  · intro hmem
    exact ⟨_, List.mem_filter.mpr ⟨hmem, decide_eq_true rfl⟩, decide_eq_true rfl⟩

end ModelPortList

end Vle.Vpz
