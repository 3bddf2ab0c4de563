import Mathlib.Tactic

/-!
# Programs with a state and exceptions

Rules for the runs of programs in `EStateM`, which keep the state when an exception is thrown: how
a successful sequence is taken apart and put together, and the invariant rules of a loop over a
list, one for a loop that is known to succeed and one for a loop that is proved to. `wp` is the
weakest precondition of a program for a postcondition on its results and one on its exceptions; it
goes through a program step by step, and through a loop with an invariant (`wp_forM`).
-/

namespace Vle.Lib.EState

variable {ε σ α β : Type}

/-- Read the state with a function that may fail. -/
def inspect (f : σ → Except ε α) : EStateM ε σ α := fun s =>
  match f s with
  | .ok a => .ok a s
  | .error e => .error e s

/-- Run a program that may fail, and return the outcome: an exception that satisfies the test is
caught, and the state is kept as it was when it was thrown. -/
def attempt (caught : ε → Bool) (x : EStateM ε σ α) : EStateM ε σ (Except ε α) := fun s =>
  match x s with
  | .ok a s' => .ok (.ok a) s'
  | .error e s' => if caught e then .ok (.error e) s' else .error e s'

/-- Run a program, with what an exception does to the state on its way. -/
def onError (f : σ → σ) (x : EStateM ε σ α) : EStateM ε σ α := fun s =>
  match x s with
  | .ok a s' => .ok a s'
  | .error e s' => .error e (f s')

@[simp] theorem pure_run (a : α) (s : σ) : (pure a : EStateM ε σ α) s = .ok a s := rfl

@[simp] theorem throw_run (e : ε) (s : σ) : (throw e : EStateM ε σ α) s = .error e s := rfl

@[simp] theorem get_run (s : σ) : (get : EStateM ε σ σ) s = .ok s s := rfl

@[simp] theorem set_run (s s' : σ) : (set s' : EStateM ε σ PUnit) s = .ok ⟨⟩ s' := rfl

@[simp] theorem modify_run (f : σ → σ) (s : σ) :
    (modify f : EStateM ε σ PUnit) s = .ok ⟨⟩ (f s) := rfl

/-- A sequence goes on from the state that its first part leaves. -/
theorem bind_run {x : EStateM ε σ α} {f : α → EStateM ε σ β} {s s' : σ} {a : α}
    (h : x s = .ok a s') : (x >>= f) s = f a s' := by
  change EStateM.bind x f s = _
  rw [EStateM.bind, h]

/-- A sequence fails where its first part does. -/
theorem bind_run_error {x : EStateM ε σ α} {f : α → EStateM ε σ β} {s s' : σ} {e : ε}
    (h : x s = .error e s') : (x >>= f) s = .error e s' := by
  change EStateM.bind x f s = _
  rw [EStateM.bind, h]

/-- A sequence succeeds exactly when its parts succeed in turn. -/
theorem bind_eq_ok {x : EStateM ε σ α} {f : α → EStateM ε σ β} {s s' : σ} {b : β} :
    (x >>= f) s = .ok b s' ↔ ∃ a s₁, x s = .ok a s₁ ∧ f a s₁ = .ok b s' := by
  constructor
  · intro h
    change EStateM.bind x f s = _ at h
    rw [EStateM.bind] at h
    cases hx : x s with
    | ok a s₁ => rw [hx] at h; exact ⟨a, s₁, rfl, h⟩
    | error e s₁ => rw [hx] at h; cases h
  · rintro ⟨a, s₁, hx, hf⟩
    rw [bind_run hx, hf]

/-- Reading succeeds exactly when the function does, and leaves the state. -/
@[simp] theorem inspect_eq_ok {f : σ → Except ε α} {s s' : σ} {a : α} :
    inspect f s = .ok a s' ↔ f s = .ok a ∧ s' = s := by
  unfold inspect
  cases h : f s with
  | ok b =>
    constructor
    · rintro ⟨⟩; exact ⟨rfl, rfl⟩
    · rintro ⟨⟨⟩, rfl⟩; rfl
  | error e => simp

/-- A value read goes to what follows. -/
theorem inspect_bind_run {f : σ → Except ε α} {g : α → EStateM ε σ β} {s : σ} {a : α}
    (h : f s = .ok a) : (inspect f >>= g) s = g a s :=
  bind_run (inspect_eq_ok.mpr ⟨h, rfl⟩)

/-- A program that ends well has not met an exception. -/
theorem onError_eq_ok {f : σ → σ} {x : EStateM ε σ α} {s s' : σ} {a : α} :
    onError f x s = .ok a s' ↔ x s = .ok a s' := by
  unfold onError
  cases x s <;> simp

/-- What each step of a loop that ends well preserves, the loop preserves. -/
theorem forM_preserves {f : α → EStateM ε σ PUnit} {I : σ → Prop} (l : List α)
    (hf : ∀ a ∈ l, ∀ s s', I s → f a s = .ok ⟨⟩ s' → I s') {s s' : σ} (hs : I s)
    (h : l.forM f s = .ok ⟨⟩ s') : I s' := by
  induction l generalizing s with
  | nil => cases h; exact hs
  | cons a l ih =>
    change (f a >>= fun _ => l.forM f) s = _ at h
    rw [bind_eq_ok] at h
    obtain ⟨⟨⟩, s₁, ha, hl⟩ := h
    exact ih (fun b hb => hf b (List.mem_cons_of_mem a hb))
      (hf a List.mem_cons_self s s₁ hs ha) hl

/-- A loop ends well when an invariant, which may speak of the part of the list done, makes each of
its steps end well and is kept by it. -/
theorem forM_total {f : α → EStateM ε σ PUnit} {I : List α → σ → Prop} (l : List α)
    (hf : ∀ done a todo s, l = done ++ a :: todo → I done s →
      ∃ s', f a s = .ok ⟨⟩ s' ∧ I (done ++ [a]) s') {s : σ} (hs : I [] s) :
    ∃ s', l.forM f s = .ok ⟨⟩ s' ∧ I l s' := by
  suffices h : ∀ todo done s, l = done ++ todo → I done s →
      ∃ s', todo.forM f s = .ok ⟨⟩ s' ∧ I l s' from h l [] s rfl hs
  intro todo
  induction todo with
  | nil => intro done s hl hi; exact ⟨s, rfl, by rwa [hl, List.append_nil]⟩
  | cons a todo ih =>
    intro done s hl hi
    obtain ⟨s₁, ha, hi₁⟩ := hf done a todo s hl hi
    obtain ⟨s', hs', hi'⟩ := ih (done ++ [a]) s₁ (by simp [hl]) hi₁
    exact ⟨s', (bind_run ha).trans hs', hi'⟩

/-! ## Relations between the states before and after -/

/-- The runs of a program that end well go from a state to a related one. -/
def Within (R : σ → σ → Prop) (x : EStateM ε σ α) : Prop :=
  ∀ s a s', x s = .ok a s' → R s s'

section Within

variable {R : σ → σ → Prop}

theorem within_throw (e : ε) : Within R (throw e : EStateM ε σ α) := nofun

theorem within_modify {f : σ → σ} (hf : ∀ s, R s (f s)) :
    Within R (modify f : EStateM ε σ PUnit) := by
  rintro s a s' ⟨⟩
  exact hf s

theorem within_bind [IsTrans σ R] {x : EStateM ε σ α} {f : α → EStateM ε σ β} (hx : Within R x)
    (hf : ∀ a, Within R (f a)) : Within R (x >>= f) := by
  intro s b s' h
  obtain ⟨a, s₁, ha, hb⟩ := bind_eq_ok.mp h
  exact IsTrans.trans _ _ _ (hx s a s₁ ha) (hf a s₁ b s' hb)

variable [Std.Refl R]

theorem within_pure (a : α) : Within R (pure a : EStateM ε σ α) := by
  rintro s b s' ⟨⟩
  exact Std.Refl.refl s

theorem within_get : Within R (get : EStateM ε σ σ) := by
  rintro s b s' ⟨⟩
  exact Std.Refl.refl s

theorem within_inspect (f : σ → Except ε α) : Within R (inspect f) := by
  intro s a s' h
  obtain ⟨-, rfl⟩ := inspect_eq_ok.mp h
  exact Std.Refl.refl s'

/-- A loop is a sequence of its steps. -/
theorem within_forM [IsTrans σ R] {f : α → EStateM ε σ PUnit} (hf : ∀ a, Within R (f a)) (l : List α) :
    Within R (l.forM f) := by
  induction l with
  | nil => exact within_pure PUnit.unit
  | cons a l ih => exact within_bind (hf a) fun _ => ih

end Within

/-! ## Weakest preconditions -/

/-- From `s` the program ends well in `Q`, or with an exception in `E`. -/
def wp (x : EStateM ε σ α) (Q : α → σ → Prop) (E : ε → σ → Prop) (s : σ) : Prop :=
  match x s with
  | .ok a s' => Q a s'
  | .error e s' => E e s'

section wp

variable {Q Q' : α → σ → Prop} {E E' : ε → σ → Prop} {s s' : σ}

@[simp] theorem wp_pure (a : α) : wp (pure a) Q E s ↔ Q a s := Iff.rfl

@[simp] theorem wp_throw (e : ε) : wp (throw e) Q E s ↔ E e s := Iff.rfl

@[simp] theorem wp_get {Q : σ → σ → Prop} : wp get Q E s ↔ Q s s := Iff.rfl

@[simp] theorem wp_set {Q : PUnit → σ → Prop} (s' : σ) : wp (set s') Q E s ↔ Q ⟨⟩ s' := Iff.rfl

@[simp] theorem wp_modify {Q : PUnit → σ → Prop} (f : σ → σ) :
    wp (modify f) Q E s ↔ Q ⟨⟩ (f s) := Iff.rfl

/-- A sequence: the first part leads to where the second may start. -/
@[simp] theorem wp_bind {Q : β → σ → Prop} (x : EStateM ε σ α) (f : α → EStateM ε σ β) :
    wp (x >>= f) Q E s ↔ wp x (fun a s' => wp (f a) Q E s') E s := by
  change wp (EStateM.bind x f) Q E s ↔ _
  unfold wp EStateM.bind
  cases x s <;> rfl

theorem wp_inspect (f : σ → Except ε α) : wp (inspect f) Q E s ↔
    (∀ a, f s = .ok a → Q a s) ∧ ∀ e, f s = .error e → E e s := by
  unfold wp inspect
  cases f s <;> simp

/-- What happens to the state on an exception. -/
theorem wp_onError {f : σ → σ} {x : EStateM ε σ α}
    (h : wp x Q (fun e s' => E e (f s')) s) : wp (onError f x) Q E s := by
  unfold wp onError at *
  cases hx : x s with
  | ok a s' => simpa [hx] using h
  | error e s' => simpa [hx] using h

/-- An outcome that is caught is a result. -/
theorem wp_attempt {Q : Except ε α → σ → Prop} (caught : ε → Bool) {x : EStateM ε σ α}
    (h : wp x (fun a => Q (.ok a))
      (fun e s' => if caught e then Q (.error e) s' else E e s') s) :
    wp (attempt caught x) Q E s := by
  unfold wp attempt at *
  cases hx : x s with
  | ok a s' => simpa [hx] using h
  | error e s' =>
    by_cases hc : caught e = true <;> simpa [hx, hc] using h

theorem wp_mono {x : EStateM ε σ α} (h : wp x Q E s) (hQ : ∀ a s', Q a s' → Q' a s')
    (hE : ∀ e s', E e s' → E' e s') : wp x Q' E' s := by
  unfold wp at *
  cases hx : x s with
  | ok a s' => rw [hx] at h; exact hQ a s' h
  | error e s' => rw [hx] at h; exact hE e s' h

theorem wp_of_ok {x : EStateM ε σ α} {a : α} (h : wp x Q E s) (hx : x s = .ok a s') : Q a s' := by
  unfold wp at h
  rwa [hx] at h

theorem wp_of_error {x : EStateM ε σ α} {e : ε} (h : wp x Q E s) (hx : x s = .error e s') :
    E e s' := by
  unfold wp at h
  rwa [hx] at h

/-- A loop keeps an invariant, which may speak of the part of the list done. -/
theorem wp_forM {f : α → EStateM ε σ PUnit} {I : List α → σ → Prop} {E : ε → σ → Prop} (l : List α)
    (hf : ∀ done a todo s, l = done ++ a :: todo → I done s →
      wp (f a) (fun _ => I (done ++ [a])) E s) (hs : I [] s) :
    wp (l.forM f) (fun _ => I l) E s := by
  suffices h : ∀ todo done s, l = done ++ todo → I done s →
      wp (todo.forM f) (fun _ => I l) E s from h l [] s rfl hs
  intro todo
  induction todo with
  | nil =>
    intro done s hl hi
    change I l s
    rwa [hl, List.append_nil]
  | cons a todo ih =>
    intro done s hl hi
    change wp (f a >>= fun _ => todo.forM f) _ E s
    rw [wp_bind]
    exact wp_mono (hf done a todo s hl hi) (fun _ s' hs' => ih (done ++ [a]) s' (by simp [hl]) hs')
      fun _ _ h => h

end wp

end Vle.Lib.EState
