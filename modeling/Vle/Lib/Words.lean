import Mathlib.Data.List.TakeWhile
import Mathlib.Tactic

/-!
# Words between separators

Lists that are put together with a separator between them, and split again. What keeps concatenations goes
through a text word after word, lines of words are the words of all lines, and a text starts and ends
with elements of its words.
-/

namespace Vle.Lib.Words

variable {α β : Type*} {s : List α} {ws : List (List α)}

/-- What keeps concatenations goes through a text word after word. -/
theorem map_intercalate {f : List α → List β} (happend : ∀ l l', f (l ++ l') = f l ++ f l')
    (s : List α) (ws : List (List α)) : f (s.intercalate ws) = (f s).intercalate (ws.map f) := by
  have hnil : f [] = [] := by
    have h := happend [] []
    rw [List.append_nil] at h
    exact List.self_eq_append_right.1 h
  induction ws with
  | nil => rw [List.intercalate_nil, hnil, List.map_nil, List.intercalate_nil]
  | cons w ws ih =>
    cases ws with
    | nil => rw [List.intercalate_singleton, List.map_singleton, List.intercalate_singleton]
    | cons w' ws =>
      rw [List.intercalate_cons_cons, happend, happend, ih]
      simp only [List.map_cons, List.intercalate_cons_cons]

theorem intercalate_append {ws vs : List (List α)} (hws : ws ≠ []) (hvs : vs ≠ []) :
    s.intercalate (ws ++ vs) = s.intercalate ws ++ s ++ s.intercalate vs := by
  induction ws with
  | nil => exact absurd rfl hws
  | cons w ws ih =>
    rw [List.cons_append, List.intercalate_cons_of_ne_nil (by simp [hvs])]
    cases ws with
    | nil => rw [List.nil_append, List.intercalate_singleton]
    | cons w' ws =>
      rw [ih (by simp), List.intercalate_cons_cons]
      simp only [List.append_assoc]

/-- Lines of words are the words of all lines. -/
theorem intercalate_flatten {lines : List (List (List α))} (h : ∀ line ∈ lines, line ≠ []) :
    s.intercalate (lines.map s.intercalate) = s.intercalate lines.flatten := by
  induction lines with
  | nil => rfl
  | cons line lines ih =>
    rw [List.forall_mem_cons] at h
    rw [List.map_cons, List.flatten_cons]
    cases lines with
    | nil => rw [List.map_nil, List.intercalate_singleton, List.flatten_nil, List.append_nil]
    | cons line' lines =>
      have hne : (line' :: lines).flatten ≠ [] := by
        simp [h.2 line' List.mem_cons_self]
      rw [List.intercalate_cons_of_ne_nil (by simp), ih h.2, intercalate_append h.1 hne]

/-- Words are split again at a separator that none of them has. -/
theorem splitOnP_intercalate {p : α → Bool} {x : α} (hx : p x = true) (hws : ws ≠ [])
    (h : ∀ w ∈ ws, ∀ c ∈ w, p c = false) : (List.intercalate [x] ws).splitOnP p = ws := by
  induction ws with
  | nil => exact absurd rfl hws
  | cons w ws ih =>
    rw [List.forall_mem_cons] at h
    cases ws with
    | nil => rw [List.intercalate_singleton, List.splitOnP_eq_singleton h.1]
    | cons w' ws =>
      rw [List.intercalate_cons_cons, List.append_assoc, List.singleton_append,
        List.splitOnP_append_cons_of_forall_mem h.1 x hx, ih (by simp) h.2]

/-- A text starts with an element of a word. -/
theorem mem_head_intercalate (h : ∀ w ∈ ws, w ≠ []) {c : α} (hc : c ∈ (s.intercalate ws).head?) :
    ∃ w ∈ ws, c ∈ w := by
  cases ws with
  | nil => cases hc
  | cons w ws =>
    refine ⟨w, List.mem_cons_self, ?_⟩
    have hne := h w List.mem_cons_self
    cases ws with
    | nil =>
      rw [List.intercalate_singleton] at hc
      exact List.mem_of_mem_head? hc
    | cons w' ws =>
      rw [List.intercalate_cons_cons, List.append_assoc, List.head?_append_of_ne_nil _ hne] at hc
      exact List.mem_of_mem_head? hc

/-- A text ends with an element of a word. -/
theorem mem_getLast_intercalate (h : ∀ w ∈ ws, w ≠ []) {c : α}
    (hc : c ∈ (s.intercalate ws).getLast?) : ∃ w ∈ ws, c ∈ w := by
  induction ws with
  | nil => cases hc
  | cons w ws ih =>
    rw [List.forall_mem_cons] at h
    cases ws with
    | nil =>
      rw [List.intercalate_singleton] at hc
      exact ⟨w, List.mem_cons_self, List.mem_of_mem_getLast? hc⟩
    | cons w' ws =>
      have hne : s.intercalate (w' :: ws) ≠ [] := by
        cases ws with
        | nil =>
          rw [List.intercalate_singleton]
          exact h.2 w' List.mem_cons_self
        | cons w'' ws =>
          rw [List.intercalate_cons_cons]
          simp [h.2 w' List.mem_cons_self]
      rw [List.intercalate_cons_cons, List.getLast?_append_of_ne_nil _ hne] at hc
      obtain ⟨v, hv, hcv⟩ := ih h.2 hc
      exact ⟨v, List.mem_cons_of_mem _ hv, hcv⟩

end Vle.Lib.Words
