import Mathlib.Data.Finset.Card
import Mathlib.Order.Interval.Finset.Nat
import Mathlib.Tactic

/-!
# Searches by a counter

The loop that counts up until a test of the counter gives something. The test itself may not end, and then
the search does not either. The search ends with the first number that passes, which is there when the
test asks for a candidate that is not in a list, and the candidates of the numbers are different
(`exists_notMem`).
-/

namespace Vle.Lib

variable {α : Type}

/-- The first thing that the test gives from a number on, within a number of turns. -/
def firstFrom (test : ℕ → Option (Option α)) : ℕ → ℕ → Option α
  | 0, _ => none
  | fuel + 1, i =>
    match test i with
    | none => none
    | some none => firstFrom test fuel (i + 1)
    | some (some a) => some a

/-- A search ends when the test passes some number. -/
theorem exists_firstFrom (good : ℕ → Option α) {i k : ℕ} (hik : i ≤ k) (hk : (good k).isSome) :
    ∃ j a, i ≤ j ∧ good j = some a ∧
      ∀ fuel, k - i < fuel → firstFrom (fun j => some (good j)) fuel i = some a := by
  induction hd : k - i generalizing i with
  | zero =>
    obtain rfl : i = k := by omega
    obtain ⟨a, ha⟩ := Option.isSome_iff_exists.1 hk
    refine ⟨i, a, le_rfl, ha, fun fuel hfuel => ?_⟩
    obtain ⟨fuel, rfl⟩ : ∃ n, fuel = n + 1 := ⟨fuel - 1, by omega⟩
    simp only [firstFrom, ha]
  | succ d ih =>
    cases hi : good i with
    | some a =>
      refine ⟨i, a, le_rfl, hi, fun fuel hfuel => ?_⟩
      obtain ⟨fuel, rfl⟩ : ∃ n, fuel = n + 1 := ⟨fuel - 1, by omega⟩
      simp only [firstFrom, hi]
    | none =>
      obtain ⟨j, a, hij, ha, hrun⟩ := @ih (i + 1) (by omega) (by omega)
      refine ⟨j, a, by omega, ha, fun fuel hfuel => ?_⟩
      obtain ⟨fuel, rfl⟩ : ∃ n, fuel = n + 1 := ⟨fuel - 1, by omega⟩
      simp only [firstFrom, hi]
      exact hrun fuel (by omega)

/-- Among one more different things than a list has, there is one that is not in the list. -/
theorem exists_notMem {f : ℕ → α} {i : ℕ} (hf : ∀ j k, i ≤ j → i ≤ k → f j = f k → j = k) (l : List α) :
    ∃ k, i ≤ k ∧ k ≤ i + l.length ∧ f k ∉ l := by
  classical
  have hcard : l.toFinset.card < ((Finset.Icc i (i + l.length)).image f).card := by
    rw [Finset.card_image_of_injOn, Nat.card_Icc]
    · have := l.toFinset_card_le
      omega
    · intro j hj k hk
      exact hf j k (Finset.mem_Icc.1 hj).1 (Finset.mem_Icc.1 hk).1
  obtain ⟨a, ha, hl⟩ := Finset.exists_mem_notMem_of_card_lt_card hcard
  obtain ⟨k, hk, rfl⟩ := Finset.mem_image.1 ha
  obtain ⟨hik, hki⟩ := Finset.mem_Icc.1 hk
  exact ⟨k, hik, hki, fun h => hl (List.mem_toFinset.2 h)⟩

end Vle.Lib
