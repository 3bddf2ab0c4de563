import Mathlib.Data.List.AList

/-!
# Changes in place in an association list

`changeAt` changes the entry of a key where it stands. Changes of one key compose, and those of two keys
commute.
-/

namespace Vle.Lib

variable {α β : Type} [DecidableEq α]

/-- An association list with the entry of a key changed. -/
def changeAt (k : α) (f : β → β) (s : AList fun _ : α => β) : AList fun _ : α => β where
  entries := s.entries.map fun e => if e.1 = k then ⟨e.1, f e.2⟩ else e
  nodupKeys := by
    have hkeys : (s.entries.map fun e : (_ : α) × β => if e.1 = k then ⟨e.1, f e.2⟩ else e).keys =
        s.entries.keys := by
      unfold List.keys
      rw [List.map_map]
      refine List.map_congr_left fun e _ => ?_
      simp only [Function.comp_apply]
      split_ifs <;> rfl
    rw [List.NodupKeys, hkeys]
    exact s.nodupKeys

variable {k k' : α} {f g : β → β} {s : AList fun _ : α => β}

theorem lookup_changeAt : (changeAt k f s).lookup k' =
    if k' = k then (s.lookup k').map f else s.lookup k' := by
  have hlist : ∀ l : List ((_ : α) × β),
      List.dlookup k' (l.map fun e => if e.1 = k then ⟨e.1, f e.2⟩ else e) =
        if k' = k then (List.dlookup k' l).map f else List.dlookup k' l := by
    intro l
    induction l with
    | nil => simp
    | cons e l ih =>
      obtain ⟨a, b⟩ := e
      rw [List.map_cons]
      by_cases ha : k' = a
      · subst ha
        by_cases hk : k' = k
        · subst hk
          simp
        · simp [hk]
      · have hsame : (if a = k then (⟨a, f b⟩ : (_ : α) × β) else ⟨a, b⟩).1 = a := by split_ifs <;> rfl
        rw [List.dlookup_cons_ne _ _ (by rw [hsame]; exact ha), ih, List.dlookup_cons_ne _ _ ha]
  exact hlist s.entries

theorem changeAt_changeAt : changeAt k f (changeAt k g s) = changeAt k (fun b => f (g b)) s := by
  refine AList.ext ?_
  simp only [changeAt, List.map_map]
  refine List.map_congr_left fun e _ => ?_
  simp only [Function.comp_apply]
  by_cases he : e.1 = k <;> simp [he]

theorem changeAt_comm (h : k ≠ k') : changeAt k f (changeAt k' g s) = changeAt k' g (changeAt k f s) := by
  refine AList.ext ?_
  simp only [changeAt, List.map_map]
  refine List.map_congr_left fun e _ => ?_
  simp only [Function.comp_apply]
  by_cases he : e.1 = k
  · have he' : e.1 ≠ k' := fun heq => h (he.symm.trans heq)
    simp [he, h]
  · by_cases he' : e.1 = k' <;> simp [he, he', Ne.symm h]

/-- A change that changes nothing. -/
theorem changeAt_self (h : ∀ b, s.lookup k = some b → f b = b) : changeAt k f s = s := by
  refine AList.ext ?_
  simp only [changeAt]
  refine (List.map_congr_left fun e he => ?_).trans (List.map_id _)
  split_ifs with hk
  · obtain ⟨a, b⟩ := e
    subst hk
    rw [h b (AList.mem_lookup_iff.mpr he)]
    rfl
  · rfl

end Vle.Lib
