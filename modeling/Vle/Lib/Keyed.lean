import Mathlib.Data.List.Sort
import Mathlib.Tactic

/-!
# Lists in the order of a key

A list whose elements come in the order of a key is cut by a value of the key into the smaller ones,
those with the value and the greater ones. The parts are the filters, and the searches from the front
for a lower and an upper bound stop between them.
-/

namespace Vle.Lib.Keyed

variable {α κ : Type} [LinearOrder κ] {f : α → κ} {l : List α}

/-- The list is cut by a value: smaller keys, the value, greater keys. -/
theorem cut (h : l.Pairwise fun a b => f a ≤ f b) (k : κ) :
    l = l.filter (f · < k) ++ l.filter (f · = k) ++ l.filter (k < f ·) := by
  induction l with
  | nil => rfl
  | cons a l ih =>
    rw [List.pairwise_cons] at h
    have hnone : ∀ q : α → Bool, (∀ b ∈ l, q b = false) → l.filter q = [] :=
      fun q hq => List.filter_eq_nil_iff.mpr fun b hb => by simp [hq b hb]
    have hih := ih h.2
    rcases lt_trichotomy (f a) k with hlt | heq | hgt
    · simpa [hlt, hlt.ne, hlt.not_gt] using hih
    · have h1 := hnone (f · < k) fun b hb =>
        decide_eq_false (not_lt.mpr (heq.ge.trans (h.1 b hb)))
      rw [h1, List.nil_append] at hih
      simpa [heq, h1] using hih
    · have h1 := hnone (f · < k) fun b hb =>
        decide_eq_false (not_lt.mpr (hgt.le.trans (h.1 b hb)))
      have h2 := hnone (f · = k) fun b hb => decide_eq_false (hgt.trans_le (h.1 b hb)).ne'
      rw [h1, h2, List.nil_append, List.nil_append] at hih
      simpa [hgt, hgt.ne', hgt.not_gt, h1, h2] using hih

/-- `takeWhile` stops at the end of the first part of a list when its condition holds there and
nowhere after it. -/
theorem takeWhile_append_stop {p : α → Bool} {l l' : List α} (h : ∀ a ∈ l, p a = true)
    (h' : ∀ a ∈ l', ¬ p a = true) : (l ++ l').takeWhile p = l := by
  rw [List.takeWhile_append_of_pos h]
  cases l' with
  | nil => simp
  | cons a l' => rw [List.takeWhile_cons_of_neg (h' a List.mem_cons_self), List.append_nil]

/-- The elements before the lower bound of a value. -/
theorem takeWhile_lt (h : l.Pairwise fun a b => f a ≤ f b) (k : κ) :
    l.takeWhile (f · < k) = l.filter (f · < k) := by
  conv_lhs => rw [cut h k, List.append_assoc]
  refine takeWhile_append_stop (fun a ha => (List.mem_filter.mp ha).2) fun a ha => ?_
  rcases List.mem_append.mp ha with ha | ha <;> simp at ha ⊢ <;> order

/-- The elements before the upper bound of a value. -/
theorem takeWhile_le (h : l.Pairwise fun a b => f a ≤ f b) (k : κ) :
    l.takeWhile (f · ≤ k) = l.filter (f · < k) ++ l.filter (f · = k) := by
  conv_lhs => rw [cut h k]
  refine takeWhile_append_stop (fun a ha => ?_) fun a ha => ?_
  · rcases List.mem_append.mp ha with ha | ha <;> simp at ha ⊢ <;> order
  · simp at ha ⊢; order

/-- The elements from the lower bound of a value on. -/
theorem dropWhile_lt (h : l.Pairwise fun a b => f a ≤ f b) (k : κ) :
    l.dropWhile (f · < k) = l.filter (f · = k) ++ l.filter (k < f ·) := by
  have hcut := List.takeWhile_append_dropWhile (p := fun a => decide (f a < k)) (l := l)
  rw [takeWhile_lt h] at hcut
  conv_rhs at hcut => rw [cut h k, List.append_assoc]
  exact List.append_cancel_left hcut

/-- The elements from the upper bound of a value on. -/
theorem dropWhile_le (h : l.Pairwise fun a b => f a ≤ f b) (k : κ) :
    l.dropWhile (f · ≤ k) = l.filter (k < f ·) := by
  have hcut := List.takeWhile_append_dropWhile (p := fun a => decide (f a ≤ k)) (l := l)
  rw [takeWhile_le h] at hcut
  conv_rhs at hcut => rw [cut h k]
  exact List.append_cancel_left hcut

/-- Filtering the elements of one key, as a filter of the whole list. -/
theorem filter_at (h : l.Pairwise fun a b => f a ≤ f b) (k : κ) (p : α → Bool) :
    l.filter (f · < k) ++ (l.filter (f · = k)).filter p ++ l.filter (k < f ·) =
      l.filter fun a => f a ≠ k ∨ p a := by
  conv_rhs => rw [cut h k, List.filter_append, List.filter_append]
  congr 1
  · congr 1
    · refine (List.filter_eq_self.mpr fun a ha => ?_).symm
      have hlt : f a < k := by simpa using (List.mem_filter.mp ha).2
      simp [hlt.ne]
    · refine List.filter_congr fun a ha => ?_
      have heq : f a = k := by simpa using (List.mem_filter.mp ha).2
      simp [heq]
  · refine (List.filter_eq_self.mpr fun a ha => ?_).symm
    have hgt : k < f a := by simpa using (List.mem_filter.mp ha).2
    simp [hgt.ne']

end Vle.Lib.Keyed
