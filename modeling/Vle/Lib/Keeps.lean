import Vle.Lib.EState

/-!
# Invariants of programs with exceptions

`Keeps` says of a program that it keeps a property of the state, also when it throws an exception: the
exception may be caught, and the program goes on from the state it left. The rules go through a program
part by part, and through loops over lists. `Fixes` says that it leaves a function of the state as it is,
and has the same rules. `wlp` is the weakest precondition of a program that need not
end well.
-/

namespace Vle.Lib.EState

variable {ε σ α β : Type}

/-- The program keeps the property, whether it ends well or not. -/
def Keeps (P : σ → Prop) (x : EStateM ε σ α) : Prop :=
  ∀ s, P s → wp x (fun _ => P) (fun _ => P) s

section Keeps

variable {P : σ → Prop}

theorem keeps_pure (a : α) : Keeps P (pure a : EStateM ε σ α) := fun _ hs => hs

theorem keeps_throw (e : ε) : Keeps P (throw e : EStateM ε σ α) := fun _ hs => hs

theorem keeps_get : Keeps P (get : EStateM ε σ σ) := fun _ hs => hs

theorem keeps_modify {f : σ → σ} (hf : ∀ s, P s → P (f s)) :
    Keeps P (modify f : EStateM ε σ PUnit) := fun s hs => hf s hs

theorem keeps_inspect (f : σ → Except ε α) : Keeps P (inspect f) := fun _ hs =>
  (wp_inspect f).mpr ⟨fun _ _ => hs, fun _ _ => hs⟩

/-- A sequence keeps what its parts keep. -/
theorem keeps_bind {x : EStateM ε σ α} {f : α → EStateM ε σ β} (hx : Keeps P x)
    (hf : ∀ a, Keeps P (f a)) : Keeps P (x >>= f) := fun s hs => by
  rw [wp_bind]
  exact wp_mono (hx s hs) (fun a s' hs' => hf a s' hs') fun _ _ h => h

/-- What follows a read of the state is run with it. -/
theorem keeps_get_bind {f : σ → EStateM ε σ β}
    (hf : ∀ s, P s → wp (f s) (fun _ => P) (fun _ => P) s) : Keeps P (get >>= f) := fun s hs => by
  rw [wp_bind]
  exact hf s hs

theorem keeps_attempt (caught : ε → Bool) {x : EStateM ε σ α} (hx : Keeps P x) :
    Keeps P (attempt caught x) := fun s hs =>
  wp_attempt caught (wp_mono (hx s hs) (fun _ _ h => h) fun e s' hs' => by
    split
    · exact hs'
    · exact hs')

theorem keeps_forM {f : α → EStateM ε σ PUnit} (hf : ∀ a, Keeps P (f a)) (l : List α) :
    Keeps P (l.forM f) := by
  induction l with
  | nil => exact keeps_pure PUnit.unit
  | cons a l ih => exact keeps_bind (hf a) fun _ => ih

theorem keeps_mapM {f : α → EStateM ε σ β} (hf : ∀ a, Keeps P (f a)) (l : List α) :
    Keeps P (l.mapM f) := by
  induction l with
  | nil => exact keeps_pure []
  | cons a l ih =>
    rw [List.mapM_cons]
    exact keeps_bind (hf a) fun b => keeps_bind ih fun bs => keeps_pure (b :: bs)

/-- What is kept holds after a run that ends well. -/
theorem Keeps.of_ok {x : EStateM ε σ α} {a : α} {s s' : σ} (h : Keeps P x) (hs : P s)
    (hx : x s = .ok a s') : P s' := wp_of_ok (h s hs) hx

end Keeps

/-! ## What a program leaves as it is -/

/-- The program leaves a function of the state as it is. -/
def Fixes {τ : Type} (v : σ → τ) (x : EStateM ε σ α) : Prop := ∀ t, Keeps (fun s => v s = t) x

section Fixes

variable {τ : Type} {v : σ → τ}

/-- Such a program keeps every property of this function. -/
theorem Fixes.keeps {x : EStateM ε σ α} (h : Fixes v x) (Q : τ → Prop) :
    Keeps (fun s => Q (v s)) x := fun s hs => by
  refine wp_mono (h (v s) s rfl) (fun _ s' hs' => ?_) fun _ s' hs' => ?_
  · rwa [hs']
  · rwa [hs']

/-- So is every function of it. -/
theorem Fixes.comp {τ' : Type} {x : EStateM ε σ α} (h : Fixes v x) (g : τ → τ') :
    Fixes (fun s => g (v s)) x := fun t => h.keeps fun s => g s = t

/-- What holds of a state for what such a program leaves holds after it. -/
theorem Fixes.wp {x : EStateM ε σ α} (h : Fixes v x) {Q : α → σ → Prop} {E : ε → σ → Prop} {s : σ}
    (hQ : ∀ a s', v s' = v s → Q a s') (hE : ∀ e s', v s' = v s → E e s') : EState.wp x Q E s :=
  wp_mono (h (v s) s rfl) hQ hE

theorem fixes_pure (a : α) : Fixes v (pure a : EStateM ε σ α) := fun _ => keeps_pure a

theorem fixes_throw (e : ε) : Fixes v (throw e : EStateM ε σ α) := fun _ => keeps_throw e

theorem fixes_get : Fixes v (get : EStateM ε σ σ) := fun _ => keeps_get

/-- What follows a read of the state is run with it. -/
theorem fixes_get_bind {f : σ → EStateM ε σ β}
    (hf : ∀ s, EState.wp (f s) (fun _ s' => v s' = v s) (fun _ s' => v s' = v s) s) :
    Fixes v (get >>= f) := fun _ => keeps_get_bind fun s hs => hs ▸ hf s

theorem fixes_bind {x : EStateM ε σ α} {f : α → EStateM ε σ β} (hx : Fixes v x)
    (hf : ∀ a, Fixes v (f a)) : Fixes v (x >>= f) := fun t => keeps_bind (hx t) fun a => hf a t

theorem fixes_inspect (f : σ → Except ε α) : Fixes v (inspect f) := fun _ => keeps_inspect f

theorem fixes_attempt (caught : ε → Bool) {x : EStateM ε σ α} (hx : Fixes v x) :
    Fixes v (attempt caught x) := fun t => keeps_attempt caught (hx t)

theorem fixes_forM {f : α → EStateM ε σ PUnit} (hf : ∀ a, Fixes v (f a)) (l : List α) :
    Fixes v (l.forM f) := fun t => keeps_forM (fun a => hf a t) l

theorem fixes_mapM {f : α → EStateM ε σ β} (hf : ∀ a, Fixes v (f a)) (l : List α) :
    Fixes v (l.mapM f) := fun t => keeps_mapM (fun a => hf a t) l

theorem fixes_modify {f : σ → σ} (hf : ∀ s, v (f s) = v s) :
    Fixes v (modify f : EStateM ε σ PUnit) := fun _ => keeps_modify fun s hs => (hf s).trans hs

end Fixes

/-! ## Programs that need not end well -/

/-- If the program ends well, it does so in `Q`. -/
abbrev wlp (x : EStateM ε σ α) (Q : α → σ → Prop) (s : σ) : Prop := wp x Q (fun _ _ => True) s

section wlp

variable {Q Q' : α → σ → Prop} {x : EStateM ε σ α} {s : σ}

theorem wlp_mono (h : wlp x Q s) (hQ : ∀ a s', Q a s' → Q' a s') : wlp x Q' s :=
  wp_mono h hQ fun _ _ h => h

theorem wlp_iff : wlp x Q s ↔ ∀ a s', x s = .ok a s' → Q a s' := by
  constructor
  · intro h a s' hx
    exact wp_of_ok h hx
  · intro h
    unfold wlp wp
    cases hx : x s with
    | ok a s' => exact h a s' hx
    | error e s' => trivial

/-- The first turn of a loop, and the others. -/
theorem wp_forM_cons {f : α → EStateM ε σ PUnit} {Q : PUnit → σ → Prop} {E : ε → σ → Prop} (a : α)
    (l : List α) : wp ((a :: l).forM f) Q E s ↔ wp (f a) (fun _ => wp (l.forM f) Q E) E s :=
  wp_bind (f a) fun _ => l.forM f

/-- Two results of a program hold together. -/
theorem wlp_and (h : wlp x Q s) (h' : wlp x Q' s) : wlp x (fun a s' => Q a s' ∧ Q' a s') s :=
  wlp_iff.mpr fun a s' hx => ⟨wlp_iff.mp h a s' hx, wlp_iff.mp h' a s' hx⟩

/-- What a program keeps holds after it. -/
theorem Keeps.wlp {P : σ → Prop} (h : Keeps P x) (hs : P s) : wlp x (fun _ => P) s :=
  wp_mono (h s hs) (fun _ _ h => h) fun _ _ _ => trivial

/-- What a program leaves as it is is the same after it. -/
theorem Fixes.wlp {τ : Type} {v : σ → τ} (h : Fixes v x) (s : σ) :
    EState.wlp x (fun _ s' => v s' = v s) s := h.wp (fun _ _ h => h) fun _ _ _ => trivial

end wlp

end Vle.Lib.EState
