import Mathlib.Data.List.Sort
import Mathlib.Tactic

/-!
# Priority queues that break ties as they like

A queue is a list of elements with keys. `top` is an element of least key; which one, when there are
several, is up to `pick`, which may look at all of them. `popWhile` takes the top element out as long
as its key satisfies a test. Whatever `pick` does, this takes out exactly the elements that satisfy
the test, in the order of their keys (`popWhile_spec`), when the test goes with the keys.
-/

namespace Vle.Lib.Queue

variable {α K : Type} [LinearOrder K] (key : α → K) (pick : List α → ℕ)

/-- The elements of least key. -/
def mins (l : List α) : List α := l.filter fun a => l.all fun b => key a ≤ key b

/-- An element of least key, if there is one. -/
def top (l : List α) : Option α := (mins key l)[pick (mins key l) % (mins key l).length]?

theorem mem_mins {l : List α} {a : α} : a ∈ mins key l ↔ a ∈ l ∧ ∀ b ∈ l, key a ≤ key b := by
  simp [mins]

/-- A list that is not empty has an element of least key. -/
theorem exists_mem_mins {l : List α} (hl : l ≠ []) : ∃ a, a ∈ mins key l := by
  induction l with
  | nil => exact absurd rfl hl
  | cons a l ih =>
    by_cases hnil : l = []
    · subst hnil
      exact ⟨a, by simp [mem_mins]⟩
    · obtain ⟨b, hb⟩ := ih hnil
      rw [mem_mins] at hb
      rcases le_total (key a) (key b) with h | h
      · refine ⟨a, (mem_mins key).mpr ⟨List.mem_cons_self, fun c hc => ?_⟩⟩
        rcases List.mem_cons.mp hc with rfl | hc
        · exact le_rfl
        · exact h.trans (hb.2 c hc)
      · refine ⟨b, (mem_mins key).mpr ⟨List.mem_cons_of_mem a hb.1, fun c hc => ?_⟩⟩
        rcases List.mem_cons.mp hc with rfl | hc
        · exact h
        · exact hb.2 c hc

theorem top_mem {l : List α} {a : α} (h : top key pick l = some a) :
    a ∈ l ∧ ∀ b ∈ l, key a ≤ key b :=
  (mem_mins key).mp (List.mem_of_getElem? h)

theorem top_eq_none {l : List α} : top key pick l = none ↔ l = [] := by
  constructor
  · intro h
    by_contra hl
    obtain ⟨a, ha⟩ := exists_mem_mins key hl
    have hpos := List.length_pos_of_mem ha
    rw [top, List.getElem?_eq_none_iff] at h
    have := Nat.mod_lt (pick (mins key l)) hpos
    omega
  · rintro rfl
    rfl

/-- The key of the top element satisfies such a test exactly when that of some element does. -/
theorem top_any {test : K → Bool} {l : List α}
    (htest : ∀ a ∈ l, ∀ b ∈ l, key a ≤ key b → test (key b) = true → test (key a) = true) :
    (top key pick l).any (fun a => test (key a)) = true ↔ ∃ a ∈ l, test (key a) = true := by
  cases htop : top key pick l with
  | none =>
    obtain rfl := (top_eq_none key pick).mp htop
    simp
  | some a =>
    obtain ⟨hmem, hmin⟩ := top_mem key pick htop
    simp only [Option.any_some]
    exact ⟨fun h => ⟨a, hmem, h⟩, fun ⟨b, hb, h⟩ => htest a hmem b hb (hmin b hb) h⟩

variable [DecidableEq α]

/-- Take the top element out as long as its key satisfies the test, `n` times at most: what is taken
out, in order, and what is left. -/
def popWhile (test : K → Bool) : ℕ → List α → List α × List α
  | 0, l => ([], l)
  | n + 1, l =>
    match top key pick l with
    | some a =>
      if test (key a) then
        ((a :: (popWhile test n (l.erase a)).1), (popWhile test n (l.erase a)).2)
      else ([], l)
    | none => ([], l)

/-- What is taken out and what is left make up the queue. -/
theorem popWhile_perm (test : K → Bool) (n : ℕ) (l : List α) :
    ((popWhile key pick test n l).1 ++ (popWhile key pick test n l).2).Perm l := by
  induction n generalizing l with
  | zero => exact List.Perm.refl l
  | succ n ih =>
    rw [popWhile]
    split
    · rename_i a ha
      split_ifs
      · exact ((ih (l.erase a)).cons a).trans
          (List.perm_cons_erase (top_mem key pick ha).1).symm
      · exact List.Perm.refl l
    · exact List.Perm.refl l

/-- When the test holds of every key below one that it holds of, and `n` is enough, the elements
taken out are those that satisfy the test, in the order of their keys. -/
theorem popWhile_spec {test : K → Bool} {l : List α} {n : ℕ} (hn : l.length ≤ n)
    (htest : ∀ a ∈ l, ∀ b ∈ l, key a ≤ key b → test (key b) = true → test (key a) = true) :
    (∀ a ∈ (popWhile key pick test n l).1, test (key a) = true) ∧
      (∀ a ∈ (popWhile key pick test n l).2, test (key a) = false) ∧
      (popWhile key pick test n l).1.Pairwise fun a b => key a ≤ key b := by
  induction n generalizing l with
  | zero =>
    obtain rfl : l = [] := List.eq_nil_of_length_eq_zero (Nat.le_zero.mp hn)
    exact ⟨nofun, nofun, List.Pairwise.nil⟩
  | succ n ih =>
    rw [popWhile]
    split
    · rename_i a ha
      obtain ⟨hmem, hmin⟩ := top_mem key pick ha
      split_ifs with hp
      · have hsub : ∀ {b}, b ∈ l.erase a → b ∈ l := fun hb => List.mem_of_mem_erase hb
        have hlen : (l.erase a).length ≤ n := by
          rw [List.length_erase_of_mem hmem]
          omega
        obtain ⟨hin, hout, hsorted⟩ := ih hlen fun b hb c hc => htest b (hsub hb) c (hsub hc)
        refine ⟨fun b hb => ?_, hout, List.pairwise_cons.mpr ⟨fun b hb => hmin b (hsub ?_), hsorted⟩⟩
        · rcases List.mem_cons.mp hb with rfl | hb
          · exact hp
          · exact hin b hb
        · exact (popWhile_perm key pick test n (l.erase a)).subset (List.mem_append_left _ hb)
      · refine ⟨nofun, fun b hb => ?_, List.Pairwise.nil⟩
        by_contra hb'
        exact hp (htest a hmem b hb (hmin b hb) (by simpa using hb'))
    · rename_i hnone
      obtain rfl := (top_eq_none key pick).mp hnone
      exact ⟨nofun, nofun, List.Pairwise.nil⟩

/-- What is taken out are the elements that satisfy the test, in some order, and what is left are the
others. -/
theorem mem_popWhile {test : K → Bool} {l : List α} {n : ℕ} (hn : l.length ≤ n)
    (htest : ∀ a ∈ l, ∀ b ∈ l, key a ≤ key b → test (key b) = true → test (key a) = true) {a : α} :
    (a ∈ (popWhile key pick test n l).1 ↔ a ∈ l ∧ test (key a) = true) ∧
      (a ∈ (popWhile key pick test n l).2 ↔ a ∈ l ∧ test (key a) = false) := by
  obtain ⟨hin, hout, -⟩ := popWhile_spec key pick hn htest
  have hmem : a ∈ (popWhile key pick test n l).1 ∨ a ∈ (popWhile key pick test n l).2 ↔ a ∈ l := by
    rw [← List.mem_append, (popWhile_perm key pick test n l).mem_iff]
  refine ⟨⟨fun h => ⟨hmem.mp (.inl h), hin a h⟩, fun h => ?_⟩,
    ⟨fun h => ⟨hmem.mp (.inr h), hout a h⟩, fun h => ?_⟩⟩
  · exact (hmem.mpr h.1).resolve_right fun h' => absurd (h.2.symm.trans (hout a h')) (by decide)
  · exact (hmem.mpr h.1).resolve_left fun h' => absurd ((hin a h').symm.trans h.2) (by decide)

end Vle.Lib.Queue
