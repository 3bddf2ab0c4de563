import Mathlib.Logic.Relation
import Mathlib.Tactic

/-!
# Runs of processes that share a state

Rules for a step relation: an invariant holds in every state that a run comes to, a weight that every
step lowers makes the runs end, and a run that has to end comes to a state without a next step. The
weight of a family of processes is a sum, of which a step changes one term (`sum_update`).
-/

namespace Vle.Lib

open Relation

variable {σ : Type*} {step : σ → σ → Prop}

/-- What every step keeps is true of every state that a run comes to. -/
theorem invariant_of_run {inv : σ → Prop} (hstep : ∀ s s', inv s → step s s' → inv s') {s s' : σ}
    (hrun : ReflTransGen step s s') (hs : inv s) : inv s' := by
  induction hrun with
  | refl => exact hs
  | tail _ h ih => exact hstep _ _ ih h

/-- Every run from a state of the invariant ends when every step lowers a weight. -/
theorem acc_of_weight {inv : σ → Prop} (weight : σ → ℕ)
    (hstep : ∀ s s', inv s → step s s' → inv s' ∧ weight s' < weight s) {s : σ} (hs : inv s) :
    Acc (fun s₂ s₁ => step s₁ s₂) s := by
  induction hk : weight s using Nat.strong_induction_on generalizing s with
  | _ k ih =>
    subst hk
    refine Acc.intro s fun s' hs' => ?_
    obtain ⟨hinv, hlt⟩ := hstep s s' hs hs'
    exact ih _ hlt hinv rfl

/-- From a state whose runs end, some run comes to a state without a next step. -/
theorem exists_stuck {s : σ} (h : Acc (fun s₂ s₁ => step s₁ s₂) s) :
    ∃ s', ReflTransGen step s s' ∧ ∀ s'', ¬ step s' s'' := by
  induction h with
  | intro s _ ih =>
    by_cases hnext : ∃ s', step s s'
    · obtain ⟨s', hs'⟩ := hnext
      obtain ⟨s'', hrun, hstuck⟩ := ih s' hs'
      exact ⟨s'', hrun.head hs', hstuck⟩
    · exact ⟨s, .refl, fun s' hs' => hnext ⟨s', hs'⟩⟩

/-- A sum over processes when one of them changes. -/
theorem sum_update {ι M β : Type*} [DecidableEq ι] [AddCommMonoid M] {t : Finset ι} (g : β → M)
    (f : ι → β) {i : ι} (hi : i ∈ t) (b : β) :
    ∑ j ∈ t, g (Function.update f i b j) + g (f i) = ∑ j ∈ t, g (f j) + g b := by
  rw [← Finset.add_sum_erase _ _ hi, ← Finset.add_sum_erase _ (fun j => g (f j)) hi,
    Function.update_self]
  have : ∑ j ∈ t.erase i, g (Function.update f i b j) = ∑ j ∈ t.erase i, g (f j) :=
    Finset.sum_congr rfl fun j hj => by rw [Function.update_of_ne (Finset.ne_of_mem_erase hj)]
  rw [this]
  abel

section Events

variable {ε : Type*} (next : σ → ε → Option σ)

/-- Something holds of each event of a run, in the state in which it comes. The run is over when there
is no next state. -/
def Along (p : σ → ε → Prop) : σ → List ε → Prop
  | _, [] => True
  | s, e :: es => p s e ∧ ∀ s', next s e = some s' → Along p s' es

variable {next}

/-- What is true of every event holds along a run. -/
theorem along_true (s : σ) (es : List ε) : Along next (fun _ _ => True) s es := by
  induction es generalizing s with
  | nil => trivial
  | cons e es ih => exact ⟨trivial, fun s' _ => ih s'⟩

/-- What is true of the events in the states of an invariant, which the events keep, holds along a
run. -/
theorem along_of_inv {inv : σ → Prop} {meets p : σ → ε → Prop}
    (hp : ∀ s e, inv s → meets s e → p s e)
    (hinv : ∀ s e s', inv s → meets s e → next s e = some s' → inv s') {s : σ} {es : List ε}
    (hs : inv s) (h : Along next meets s es) : Along next p s es := by
  induction es generalizing s with
  | nil => trivial
  | cons e es ih =>
    obtain ⟨hmeets, hrest⟩ := h
    exact ⟨hp s e hs hmeets, fun s' hs' => ih (hinv s e s' hs hmeets hs') (hrest s' hs')⟩

/-- Two properties of events agree along a run when they agree in the states of an invariant, which
the events that have them keep. -/
theorem along_iff {I : σ → Prop} {E p q : σ → ε → Prop}
    (hiff : ∀ s e, I s → E s e → (p s e ↔ q s e))
    (hinv : ∀ s e s', I s → E s e → q s e → next s e = some s' → I s') {s : σ} {es : List ε}
    (hs : I s) (h : Along next E s es) : Along next p s es ↔ Along next q s es := by
  induction es generalizing s with
  | nil => exact Iff.rfl
  | cons e es ih =>
    obtain ⟨henabled, hrest⟩ := h
    have hrun : q s e → ((∀ s', next s e = some s' → Along next p s' es) ↔
        ∀ s', next s e = some s' → Along next q s' es) := fun hq =>
      forall₂_congr fun s' hs' => ih (hinv s e s' hs henabled hq hs') (hrest s' hs')
    rw [Along, Along, hiff s e hs henabled]
    exact and_congr_right hrun

/-- A run has a run of a specification that goes with it: each event has a next state, and the
specification a step to a state that it shows. -/
def Follows {τ : Type*} (next : σ → ε → Option σ) (step : τ → ε → τ → Prop) (shows : σ → τ → Prop) :
    σ → τ → List ε → Prop
  | s, t, [] => shows s t
  | s, t, e :: es => shows s t ∧ ∃ s' t', next s e = some s' ∧ step t e t' ∧ Follows next step shows s' t' es

/-- A run goes with a run of the specification when an invariant of both, with which the states are
shown, is kept by the events that meet a condition. -/
theorem follows_of_inv {τ : Type*} {step : τ → ε → τ → Prop} {shows inv : σ → τ → Prop}
    {enabled meets : σ → ε → Prop} (hshows : ∀ s t, inv s t → shows s t)
    (hstep : ∀ s t e, inv s t → enabled s e → meets s e →
      ∃ s' t', next s e = some s' ∧ step t e t' ∧ inv s' t')
    {s : σ} {t : τ} {es : List ε} (hs : inv s t) (henabled : Along next enabled s es)
    (hmeets : Along next meets s es) : Follows next step shows s t es := by
  induction es generalizing s t with
  | nil => exact hshows s t hs
  | cons e es ih =>
    obtain ⟨hen, henrest⟩ := henabled
    obtain ⟨hme, hmerest⟩ := hmeets
    obtain ⟨s', t', hnext, hstept, hinv⟩ := hstep s t e hs hen hme
    exact ⟨hshows s t hs, s', t', hnext, hstept, ih hinv (henrest s' hnext) (hmerest s' hnext)⟩

end Events

end Vle.Lib
