import Mathlib.Tactic

/-!
# Search with an explicit stack

A search pops an item from a stack, expands it into a list of results and of further items, keeps
the results and pushes the items. `run` is this loop, with a fuel for its iterations. A `Space`
gives what makes it end: on the items that can occur the expansion succeeds, is bounded in length,
and leads to items of a smaller rank. `run_spec` then says that the loop ends and finds, in some
order, the leaves of the expansion trees of the stacked items.
-/

namespace Vle.Lib.Search

variable {V R ε : Type}

/-- The search loop: pop an item, expand it, keep its results and push its items in order. -/
def run (expand : V → Except ε (List (R ⊕ V))) (outOfFuel : ε) :
    ℕ → List V → List R → Except ε (List R)
  | 0, _, _ => throw outOfFuel
  | _ + 1, [], found => pure found
  | fuel + 1, v :: stack, found => do
    let items ← expand v
    run expand outOfFuel fuel ((items.filterMap Sum.getRight?).reverse ++ stack)
      (found ++ items.filterMap Sum.getLeft?)

/-- The items of a search and their expansions: a bounded number of results and of items that are
valid again and of smaller rank. -/
structure Space (V R : Type) where
  items : V → List (R ⊕ V)
  Valid : V → Prop
  rank : V → ℕ
  bound : ℕ
  length_items : ∀ v, Valid v → (items v).length ≤ bound
  descends : ∀ v w, Valid v → Sum.inr w ∈ items v → Valid w ∧ rank w < rank v

namespace Space

variable (S : Space V R)

/-- The leaves of the expansion tree of an item, down to a given depth. -/
def leavesTo : ℕ → V → List R
  | 0, _ => []
  | n + 1, v => (S.items v).flatMap (Sum.elim (fun r => [r]) (leavesTo n))

/-- The leaves of the expansion tree of an item. -/
def leaves (v : V) : List R := S.leavesTo (S.rank v + 1) v

/-- Past the rank of an item, the depth does not matter. -/
theorem leavesTo_congr {n m : ℕ} {v : V} (hv : S.Valid v) (hn : S.rank v < n) (hm : S.rank v < m) :
    S.leavesTo n v = S.leavesTo m v := by
  induction n generalizing m v with
  | zero => omega
  | succ n ih =>
    obtain ⟨m, rfl⟩ : ∃ k, m = k + 1 := ⟨m - 1, by omega⟩
    refine List.flatMap_congr fun x hx => ?_
    cases x with
    | inl r => rfl
    | inr w =>
      obtain ⟨hw, hlt⟩ := S.descends v w hv hx
      exact ih hw (by omega) (by omega)

/-- The leaves of an item are its results and the leaves of its items. -/
theorem leaves_eq {v : V} (hv : S.Valid v) :
    S.leaves v = (S.items v).flatMap (Sum.elim (fun r => [r]) S.leaves) := by
  refine List.flatMap_congr fun x hx => ?_
  cases x with
  | inl r => rfl
  | inr w =>
    obtain ⟨hw, hlt⟩ := S.descends v w hv hx
    exact S.leavesTo_congr hw hlt (Nat.lt_succ_self _)

/-- A bound of the number of iterations that an item causes. -/
def cost (v : V) : ℕ := (S.bound + 1) ^ S.rank v

/-- The items that an item is expanded to cause fewer iterations than the item itself. -/
theorem sum_cost_lt {v : V} (hv : S.Valid v) :
    (((S.items v).filterMap Sum.getRight?).map S.cost).sum < S.cost v := by
  have hlen : ((S.items v).filterMap Sum.getRight?).length ≤ S.bound :=
    (List.length_filterMap_le _ _).trans (S.length_items v hv)
  have hrank : ∀ w ∈ (S.items v).filterMap Sum.getRight?, S.rank w < S.rank v := by
    intro w hw
    obtain ⟨x, hx, hxw⟩ := List.mem_filterMap.mp hw
    rw [Sum.getRight?_eq_some_iff] at hxw
    exact (S.descends v w hv (hxw ▸ hx)).2
  cases hr : S.rank v with
  | zero =>
    have hnil : (S.items v).filterMap Sum.getRight? = [] :=
      List.eq_nil_iff_forall_not_mem.mpr fun w hw => by have := hrank w hw; omega
    simp [hnil, cost, hr]
  | succ k =>
    have hle : ∀ c ∈ ((S.items v).filterMap Sum.getRight?).map S.cost, c ≤ (S.bound + 1) ^ k := by
      intro c hc
      obtain ⟨w, hw, rfl⟩ := List.mem_map.mp hc
      exact Nat.pow_le_pow_right (Nat.succ_pos _) (by have := hrank w hw; omega)
    calc (((S.items v).filterMap Sum.getRight?).map S.cost).sum
        ≤ ((S.items v).filterMap Sum.getRight?).length * (S.bound + 1) ^ k := by
          simpa using List.sum_le_card_nsmul _ _ hle
      _ ≤ S.bound * (S.bound + 1) ^ k := Nat.mul_le_mul_right _ hlen
      _ < (S.bound + 1) * (S.bound + 1) ^ k :=
          Nat.mul_lt_mul_of_pos_right (Nat.lt_succ_self _) (pow_pos (Nat.succ_pos _) k)
      _ = S.cost v := by rw [cost, hr, pow_succ, Nat.mul_comm]

/-- The results of an expansion, followed by what its items lead to, in some order. -/
theorem items_perm (items : List (R ⊕ V)) (f : V → List R) :
    (items.filterMap Sum.getLeft? ++ (items.filterMap Sum.getRight?).flatMap f).Perm
      (items.flatMap (Sum.elim (fun r => [r]) f)) := by
  induction items with
  | nil => rfl
  | cons x items ih =>
    cases x with
    | inl r => exact List.Perm.cons r ih
    | inr w =>
      change (items.filterMap Sum.getLeft? ++
        (f w ++ (items.filterMap Sum.getRight?).flatMap f)).Perm (f w ++ items.flatMap _)
      rw [← List.append_assoc]
      exact ((List.perm_append_comm).append_right _).trans
        ((List.append_assoc _ _ _).symm ▸ List.Perm.append_left (f w) ih)

/-- With enough fuel the loop ends, and it has found the leaves of the stacked items. The loop may
work on other items than those of the space, which `repr` gives. -/
theorem run_spec {W : Type} (repr : V → W) {expand : W → Except ε (List (R ⊕ W))}
    (hexpand : ∀ v, S.Valid v → expand (repr v) = .ok ((S.items v).map (Sum.map id repr)))
    (outOfFuel : ε) (fuel : ℕ) (stack : List V) (found : List R) (hstack : ∀ v ∈ stack, S.Valid v)
    (hfuel : (stack.map S.cost).sum < fuel) :
    ∃ found', run expand outOfFuel fuel (stack.map repr) found = .ok found' ∧
      found'.Perm (found ++ stack.flatMap S.leaves) := by
  induction fuel generalizing stack found with
  | zero => omega
  | succ fuel ih =>
    cases stack with
    | nil => exact ⟨found, rfl, by simp⟩
    | cons v stack =>
      have hv := hstack v List.mem_cons_self
      have hvalid : ∀ w ∈ ((S.items v).filterMap Sum.getRight?).reverse ++ stack, S.Valid w := by
        intro w hw
        rcases List.mem_append.mp hw with hw | hw
        · obtain ⟨x, hx, hxw⟩ := List.mem_filterMap.mp (List.mem_reverse.mp hw)
          rw [Sum.getRight?_eq_some_iff] at hxw
          exact (S.descends v w hv (hxw ▸ hx)).1
        · exact hstack w (List.mem_cons_of_mem v hw)
      have hless := S.sum_cost_lt hv
      obtain ⟨found', hrun, hperm⟩ := ih _ (found ++ (S.items v).filterMap Sum.getLeft?) hvalid (by
        simp only [List.map_append, List.map_reverse, List.sum_append, List.sum_reverse,
          List.map_cons, List.sum_cons] at hfuel ⊢
        omega)
      refine ⟨found', ?_, hperm.trans ?_⟩
      · -- The representation commutes with the choice of results and items.
        have hleft : ((S.items v).map (Sum.map id repr)).filterMap Sum.getLeft? =
            (S.items v).filterMap Sum.getLeft? := by
          rw [List.filterMap_map]
          exact List.filterMap_congr fun x _ => by cases x <;> rfl
        have hright : ((S.items v).map (Sum.map id repr)).filterMap Sum.getRight? =
            ((S.items v).filterMap Sum.getRight?).map repr := by
          rw [List.filterMap_map, List.map_filterMap]
          exact List.filterMap_congr fun x _ => by cases x <;> rfl
        rw [List.map_cons, run, hexpand v hv]
        change run expand outOfFuel fuel _ _ = _
        rw [hleft, hright]
        simpa using hrun
      · rw [List.append_assoc]
        refine List.Perm.append_left found ?_
        rw [List.flatMap_append, List.flatMap_cons, S.leaves_eq hv, ← List.append_assoc]
        refine List.Perm.append_right _ (.trans ?_ (items_perm (S.items v) S.leaves))
        exact List.Perm.append_left _ ((List.reverse_perm _).flatMap_right _)

end Space

end Vle.Lib.Search
