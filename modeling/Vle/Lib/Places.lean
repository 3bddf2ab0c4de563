import Vle.Lib.Rose

/-!
# Subtrees with their places

The subtrees of a tree, each with the place that it is at, and the removal of the subtree at a place.
-/

namespace Vle.Lib.Rose

variable {α : Type*}

mutual

/-- The subtrees with their places, a subtree before those below it. -/
def placed : Rose α → List (List ℕ × Rose α)
  | node a cs => ([], node a cs) :: placedForest 0 cs

/-- The subtrees of a list of trees, the first of which has a number. -/
def placedForest : ℕ → List (Rose α) → List (List ℕ × Rose α)
  | _, [] => []
  | i, c :: cs => (placed c).map (fun q => (i :: q.1, q.2)) ++ placedForest (i + 1) cs

end

/-- The tree without the subtree at a place, which is not that of the tree. -/
def removeAt : Rose α → List ℕ → Rose α
  | t, [] => t
  | node a cs, [i] => node a (cs.eraseIdx i)
  | node a cs, i :: p => node a (cs.modify i fun c => c.removeAt p)

theorem placed_node (a : α) (cs : List (Rose α)) :
    (node a cs).placed = ([], node a cs) :: placedForest 0 cs := by
  rw [placed]

theorem placedForest_cons (i : ℕ) (c : Rose α) (cs : List (Rose α)) :
    placedForest i (c :: cs) = (placed c).map (fun q => (i :: q.1, q.2)) ++ placedForest (i + 1) cs := by
  rw [placedForest]

/-- Without their places they are the subtrees, when they are for each tree of a list. -/
theorem map_snd_placedForest_of {cs : List (Rose α)} (h : ∀ c ∈ cs, c.placed.map Prod.snd = c.subtrees)
    (i : ℕ) : (placedForest i cs).map Prod.snd = cs.flatMap subtrees := by
  induction cs generalizing i with
  | nil => simp [placedForest]
  | cons c cs ih =>
    rw [List.forall_mem_cons] at h
    rw [placedForest_cons, List.map_append, List.map_map, ih h.2 (i + 1), List.flatMap_cons, ← h.1]
    rfl

theorem map_snd_placed (t : Rose α) : t.placed.map Prod.snd = t.subtrees := by
  induction t with
  | node a cs ih => rw [placed_node, List.map_cons, map_snd_placedForest_of ih, subtrees_node]

theorem map_snd_placedForest (i : ℕ) (cs : List (Rose α)) :
    (placedForest i cs).map Prod.snd = cs.flatMap subtrees :=
  map_snd_placedForest_of (fun c _ => map_snd_placed c) i

/-- A subtree is at its place. -/
theorem get?_of_mem_placed {t s : Rose α} {p : List ℕ} (h : (p, s) ∈ t.placed) : t.get? p = some s := by
  induction t generalizing p with
  | node a cs ih =>
    rw [placed_node] at h
    rcases List.mem_cons.1 h with heq | h
    · cases heq
      rfl
    · have hforest : ∀ (i : ℕ) (ds : List (Rose α)), (p, s) ∈ placedForest i ds →
          ∃ j d q, ds[j]? = some d ∧ p = (i + j) :: q ∧ (q, s) ∈ d.placed := by
        intro i ds hds
        induction ds generalizing i with
        | nil => simp [placedForest] at hds
        | cons d ds ihds =>
          rw [placedForest_cons] at hds
          rcases List.mem_append.1 hds with hds | hds
          · obtain ⟨⟨q, s'⟩, hq, heq⟩ := List.mem_map.1 hds
            cases heq
            exact ⟨0, d, q, rfl, rfl, hq⟩
          · obtain ⟨j, d', q, hd', rfl, hq⟩ := ihds (i + 1) hds
            exact ⟨j + 1, d', q, hd', by rw [Nat.add_assoc, Nat.add_comm 1], hq⟩
      obtain ⟨j, d, q, hd, rfl, hq⟩ := hforest 0 cs h
      rw [Nat.zero_add, get?_cons_eq_some]
      exact ⟨d, hd, ih d (List.mem_of_getElem? hd) hq⟩

/-- A subtree below a node is at its place. -/
theorem get?_of_mem_placedForest {t s : Rose α} {p : List ℕ} (h : (p, s) ∈ placedForest 0 t.children) :
    t.get? p = some s := by
  refine get?_of_mem_placed ?_
  cases t with
  | node a cs =>
    rw [placed_node]
    exact List.mem_cons_of_mem _ h

end Vle.Lib.Rose
