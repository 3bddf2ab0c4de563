import Vle.Lib.Except

/-!
# While loops

A `while` loop over a program that may fail, which stops after some number of turns when it has not
ended. The rule `whileLoop_total` is for loops that end: an invariant that the turns keep, and a variant
that they lower. The loop then ends in the invariant, outside of its condition, for any number of turns
above the variant.
-/

namespace Vle.Lib

variable {ε σ : Type}

/-- `while (cond) body`, for at most a number of turns, after which it fails with `unfinished`. -/
def whileLoop (unfinished : ε) (cond : σ → Bool) (body : σ → Except ε σ) : ℕ → σ → Except ε σ
  | 0, s => if cond s then .error unfinished else .ok s
  | fuel + 1, s => if cond s then body s >>= whileLoop unfinished cond body fuel else .ok s

variable {unfinished : ε} {cond : σ → Bool} {body : σ → Except ε σ} (inv : σ → Prop)

/-- A loop whose turns keep an invariant and lower a variant ends in the invariant. -/
theorem whileLoop_total (variant : σ → ℕ)
    (hbody : ∀ s, inv s → cond s = true → ∃ s', body s = .ok s' ∧ inv s' ∧ variant s' < variant s)
    {s : σ} (hs : inv s) :
    ∃ s', inv s' ∧ cond s' = false ∧
      ∀ fuel, variant s ≤ fuel → whileLoop unfinished cond body fuel s = .ok s' := by
  induction hk : variant s using Nat.strong_induction_on generalizing s with
  | _ k ih =>
    subst hk
    cases hcond : cond s with
    | false =>
      refine ⟨s, hs, hcond, fun fuel _ => ?_⟩
      cases fuel <;> simp [whileLoop, hcond]
    | true =>
      obtain ⟨s₁, hrun, hinv, hlt⟩ := hbody s hs hcond
      obtain ⟨s', hinv', hend, hloop⟩ := ih _ hlt hinv rfl
      refine ⟨s', hinv', hend, fun fuel hfuel => ?_⟩
      obtain ⟨fuel, rfl⟩ : ∃ k, fuel = k + 1 := ⟨fuel - 1, by omega⟩
      rw [whileLoop, if_pos hcond, hrun]
      exact hloop fuel (by omega)

/-- What the turns of a loop keep holds where the loop ends. -/
theorem whileLoop_keeps (hbody : ∀ s s', inv s → cond s = true → body s = .ok s' → inv s') {fuel : ℕ}
    {s s' : σ} (hs : inv s) (h : whileLoop unfinished cond body fuel s = .ok s') : inv s' := by
  induction fuel generalizing s with
  | zero =>
    unfold whileLoop at h
    split_ifs at h
    cases h
    exact hs
  | succ fuel ih =>
    unfold whileLoop at h
    split_ifs at h with hcond
    · obtain ⟨s₁, hrun, h⟩ := Except.bind_eq_ok.mp h
      exact ih (hbody s s₁ hs hcond hrun) h
    · cases h
      exact hs

end Vle.Lib
