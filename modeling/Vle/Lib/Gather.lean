import Vle.Lib.Runs

/-!
# Groups that fill up

Items come one by one, and each goes to the group of its key. A group that comes to its size is full,
and is put away with its items; its key starts anew. As long as no key has more items than that, what is
pending and what is full can be read off the items alone (`pending_of`, `full_perm`).
-/

namespace Vle.Lib

/-- The items of the groups that are not full, and the full groups in the order they filled up. -/
structure Gather (κ α : Type*) where
  pending : κ → List α
  full : List (κ × List α)

namespace Gather

variable {κ α : Type*} [DecidableEq κ] (size : ℕ) (key : α → κ)

/-- One more item. -/
def add (g : Gather κ α) (a : α) : Gather κ α :=
  let group := g.pending (key a) ++ [a]
  if group.length = size then
    { pending := Function.update g.pending (key a) [], full := g.full ++ [(key a, group)] }
  else
    { g with pending := Function.update g.pending (key a) group }

/-- What has been gathered of a list of items. -/
def of (l : List α) : Gather κ α := l.foldl (add size key) { pending := fun _ => [], full := [] }

/-- The items of a key. -/
def fibre (l : List α) (k : κ) : List α := l.filter fun a => key a = k

/-- No key has more items than its group can take. -/
def Bounded (l : List α) : Prop := ∀ k, (fibre key l k).length ≤ size

variable {size key} {l : List α} {a : α}

theorem of_append : of size key (l ++ [a]) = add size key (of size key l) a := by
  simp [of, List.foldl_append]

theorem fibre_append_self : fibre key (l ++ [a]) (key a) = fibre key l (key a) ++ [a] := by
  simp [fibre]

theorem fibre_append_of_ne {k : κ} (h : k ≠ key a) : fibre key (l ++ [a]) k = fibre key l k := by
  simp [fibre, h.symm]

theorem mem_fibre {k : κ} {b : α} : b ∈ fibre key l k ↔ b ∈ l ∧ key b = k := by simp [fibre]

theorem Bounded.of_append (h : Bounded size key (l ++ [a])) : Bounded size key l := by
  intro k
  by_cases e : k = key a
  · have := h k
    rw [e, fibre_append_self, List.length_append] at this
    rw [e]
    omega
  · rw [← fibre_append_of_ne e]
    exact h k

/-- Before its last item, a group is pending. -/
theorem Bounded.length_lt (h : Bounded size key (l ++ [a])) :
    (fibre key l (key a)).length < size := by
  have := h (key a)
  rw [fibre_append_self, List.length_append, List.length_singleton] at this
  omega

/-- The items of a group that is not full are pending. -/
theorem pending_of (h : Bounded size key l) : ∀ k, (of size key l).pending k =
    if (fibre key l k).length = size then [] else fibre key l k := by
  induction l using List.reverseRecOn with
  | nil =>
    intro k
    rw [show fibre key [] k = [] from rfl, ite_self]
    rfl
  | append_singleton l a ih =>
    intro k
    have hself : (of size key l).pending (key a) = fibre key l (key a) := by
      rw [ih h.of_append, if_neg h.length_lt.ne]
    rw [of_append, add]
    simp only [hself]
    by_cases e : k = key a
    · subst e
      rw [fibre_append_self]
      split_ifs with hfull <;> exact Function.update_self ..
    · rw [fibre_append_of_ne e, ← ih h.of_append k]
      split_ifs <;> exact Function.update_of_ne e ..

/-- One more item, by the items of its key. -/
theorem of_append_eq (h : Bounded size key (l ++ [a])) :
    of size key (l ++ [a]) =
      if (fibre key (l ++ [a]) (key a)).length = size then
        { pending := Function.update (of size key l).pending (key a) []
          full := (of size key l).full ++ [(key a, fibre key (l ++ [a]) (key a))] }
      else
        { of size key l with
          pending := Function.update (of size key l).pending (key a)
            (fibre key (l ++ [a]) (key a)) } := by
  rw [of_append, add]
  simp only [pending_of h.of_append, if_neg h.length_lt.ne, fibre_append_self]

theorem pending_append (h : Bounded size key (l ++ [a])) :
    (of size key (l ++ [a])).pending = Function.update (of size key l).pending (key a)
      (if (fibre key (l ++ [a]) (key a)).length = size then [] else
        fibre key (l ++ [a]) (key a)) := by
  rw [of_append_eq h]
  split_ifs <;> rfl

theorem full_append (h : Bounded size key (l ++ [a])) :
    (of size key (l ++ [a])).full = (of size key l).full ++
      (if (fibre key (l ++ [a]) (key a)).length = size then
        [(key a, fibre key (l ++ [a]) (key a))] else []) := by
  rw [of_append_eq h]
  split_ifs
  · rfl
  · rw [List.append_nil]

/-- The full groups are those of the keys that have all their items. -/
theorem mem_full (hsize : 0 < size) (h : Bounded size key l) {k : κ} {group : List α} :
    (k, group) ∈ (of size key l).full ↔ group = fibre key l k ∧ group.length = size := by
  induction l using List.reverseRecOn generalizing k group with
  | nil =>
    simp only [of, List.foldl_nil, List.not_mem_nil, fibre, List.filter_nil, false_iff]
    rintro ⟨rfl, hlen⟩
    simp at hlen
    omega
  | append_singleton l a ih =>
    have hlt := h.length_lt
    rw [of_append_eq h]
    by_cases e : k = key a
    · subst e
      split_ifs with hfull
      · rw [List.mem_append, List.mem_singleton, ih h.of_append, Prod.mk.injEq]
        constructor
        · rintro (⟨rfl, hlen⟩ | ⟨-, rfl⟩)
          · omega
          · exact ⟨rfl, hfull⟩
        · rintro ⟨rfl, -⟩
          exact .inr ⟨rfl, rfl⟩
      · rw [ih h.of_append]
        constructor
        · rintro ⟨rfl, hlen⟩; omega
        · rintro ⟨rfl, hlen⟩; exact absurd hlen hfull
    · rw [fibre_append_of_ne e, ← ih h.of_append]
      split_ifs
      · rw [List.mem_append, List.mem_singleton, Prod.mk.injEq]
        exact or_iff_left fun heq => e heq.1
      · rfl

/-- No key has two full groups. -/
theorem full_nodup (hsize : 0 < size) (h : Bounded size key l) :
    ((of size key l).full.map Prod.fst).Nodup := by
  induction l using List.reverseRecOn with
  | nil => exact List.nodup_nil
  | append_singleton l a ih =>
    have hlt := h.length_lt
    rw [of_append_eq h]
    split_ifs
    · rw [List.map_append, List.map_singleton]
      refine (ih h.of_append).append (List.nodup_singleton _) ?_
      rw [List.disjoint_singleton]
      intro hmem
      obtain ⟨⟨k, group⟩, hx, rfl⟩ := List.mem_map.mp hmem
      obtain ⟨rfl, hlen⟩ := (mem_full hsize h.of_append).mp hx
      exact absurd hlen hlt.ne
    · exact ih h.of_append

/-- When all keys have all their items, their groups are full. -/
theorem full_perm (hsize : 0 < size) (h : Bounded size key l) {keys : List κ}
    (hkeys : keys.Nodup) (hmem : ∀ k, k ∈ keys ↔ (fibre key l k).length = size) :
    (of size key l).full.Perm (keys.map fun k => (k, fibre key l k)) := by
  refine (List.perm_ext_iff_of_nodup (full_nodup hsize h).of_map ?_).mpr ?_
  · refine List.Nodup.of_map Prod.fst ?_
    rwa [List.map_map, Function.comp_def, List.map_id']
  · rintro ⟨k, group⟩
    rw [mem_full hsize h, List.mem_map]
    constructor
    · rintro ⟨rfl, hlen⟩
      exact ⟨k, (hmem k).mpr hlen, rfl⟩
    · rintro ⟨k', hk', heq⟩
      cases heq
      exact ⟨rfl, (hmem k).mp hk'⟩

/-- Every item is pending or in a full group. -/
theorem length_eq {keys : Finset κ} (h : ∀ a ∈ l, key a ∈ keys) :
    (of size key l).full.length * size + ∑ k ∈ keys, ((of size key l).pending k).length =
      l.length := by
  induction l using List.reverseRecOn with
  | nil => simp [of]
  | append_singleton l a ih =>
    have hmem := h a (List.mem_append_right _ (List.mem_singleton_self a))
    have hih := ih fun b hb => h b (List.mem_append_left _ hb)
    rw [of_append, add, List.length_append, List.length_singleton]
    split_ifs with hfull
    · have hsum := sum_update List.length (of size key l).pending hmem []
      simp only [List.length_append, List.length_singleton, List.length_nil] at hfull hsum ⊢
      rw [Nat.add_mul]
      omega
    · have hsum := sum_update List.length (of size key l).pending hmem
        ((of size key l).pending (key a) ++ [a])
      simp only [List.length_append, List.length_singleton] at hsum ⊢
      omega

end Gather

end Vle.Lib
