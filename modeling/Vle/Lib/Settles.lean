import Vle.Lib.While

/-!
# Programs that may not end

A program whose loops make at most a number of turns, after which they fail, is a function of this number.
`Settles f r` says what it comes to when the number grows: a result, which is then the only one for any
number, or nothing, when it fails for every number, be it because it throws or because it never ends. The
rules are for sequences (`Settles.bind`) and for loops, whose turns have a number of their own: a loop goes
on from the state that a turn leaves (`LoopSettles.step`), and comes to nothing when its turns keep an
invariant under its condition (`LoopSettles.forever`).
-/

namespace Vle.Lib

variable {ε α β σ : Type}

/-- What a program comes to when the number of turns of its loops grows. -/
structure Settles (f : ℕ → Except ε α) (r : Option α) : Prop where
  sound : ∀ m a, f m = .ok a → r = some a
  complete : ∀ a, r = some a → ∃ n, ∀ m, n ≤ m → f m = .ok a

/-- What a loop comes to when the number of its turns and the one of its body grow. -/
structure LoopSettles (unfinished : ε) (cond : σ → Bool) (body : ℕ → σ → Except ε σ) (s : σ)
    (r : Option σ) : Prop where
  sound : ∀ m k a, whileLoop unfinished cond (body m) k s = .ok a → r = some a
  complete : ∀ a, r = some a →
    ∃ n, ∀ m k, n ≤ m → n ≤ k → whileLoop unfinished cond (body m) k s = .ok a

namespace Settles

variable {f : ℕ → Except ε α} {r : Option α}

/-- A program that returns the same for every number. -/
theorem of_ok {a : α} (h : ∀ m, f m = .ok a) : Settles f (some a) where
  sound m _ hm := congrArg some (Except.ok.inj ((h m).symm.trans hm))
  complete _ ha := ⟨0, fun m _ => Option.some.inj ha ▸ h m⟩

/-- A program that throws for every number. -/
theorem of_error {e : ℕ → ε} (h : ∀ m, f m = .error (e m)) : Settles f none where
  sound m _ hm := by cases (h m).symm.trans hm
  complete _ ha := by cases ha

/-- A program without loops. -/
theorem const (x : Except ε α) : Settles (fun _ => x) x.toOption := by
  cases x with
  | error e => exact of_error fun _ => rfl
  | ok a => exact of_ok fun _ => rfl

/-- A sequence. -/
theorem bind {k : ℕ → α → Except ε β} {r' : Option β} {a : α} (hf : Settles f (some a))
    (hk : Settles (fun m => k m a) r') : Settles (fun m => f m >>= k m) r' where
  sound m b h := by
    obtain ⟨a', ha', hb⟩ := Except.bind_eq_ok.mp h
    obtain rfl := Option.some.inj (hf.sound m a' ha')
    exact hk.sound m b hb
  complete b hb := by
    obtain ⟨n, hn⟩ := hf.complete a rfl
    obtain ⟨n', hn'⟩ := hk.complete b hb
    refine ⟨max n n', fun m hm => ?_⟩
    rw [hn m (le_trans (le_max_left _ _) hm)]
    exact hn' m (le_trans (le_max_right _ _) hm)

/-- A sequence whose first part comes to nothing. -/
theorem bind_none (k : ℕ → α → Except ε β) (hf : Settles f none) : Settles (fun m => f m >>= k m) none where
  sound m b h := by
    obtain ⟨a, ha, -⟩ := Except.bind_eq_ok.mp h
    cases hf.sound m a ha
  complete b hb := by cases hb

/-- A program does not come to two things. -/
theorem unique {r' : Option α} (h : Settles f r) (h' : Settles f r') : r = r' := by
  cases r with
  | some a =>
    obtain ⟨n, hn⟩ := h.complete a rfl
    exact (h'.sound n a (hn n le_rfl)).symm
  | none =>
    cases r' with
    | none => rfl
    | some a =>
      obtain ⟨n, hn⟩ := h'.complete a rfl
      exact h.sound n a (hn n le_rfl)

/-- There is a result for some number of turns when the program comes to it. -/
theorem exists_ok_iff (h : Settles f r) {a : α} : (∃ m, f m = .ok a) ↔ r = some a := by
  constructor
  · rintro ⟨m, hm⟩
    exact h.sound m a hm
  · intro ha
    obtain ⟨n, hn⟩ := h.complete a ha
    exact ⟨n, hn n le_rfl⟩

end Settles

namespace LoopSettles

variable {unfinished : ε} {cond : σ → Bool} {body : ℕ → σ → Except ε σ} {s s' : σ} {r : Option σ}

/-- The loop whose number of turns is the one of its body. -/
theorem settles (h : LoopSettles unfinished cond body s r) :
    Settles (fun m => whileLoop unfinished cond (body m) m s) r where
  sound m a := h.sound m m a
  complete a ha := by
    obtain ⟨n, hn⟩ := h.complete a ha
    exact ⟨n, fun m hm => hn m m hm hm⟩

/-- A loop outside of its condition. -/
theorem done (hs : cond s = false) : LoopSettles unfinished cond body s (some s) := by
  have hloop : ∀ m k, whileLoop unfinished cond (body m) k s = .ok s := by
    intro m k
    cases k <;> simp [whileLoop, hs]
  exact ⟨fun m k a h => congrArg some (Except.ok.inj ((hloop m k).symm.trans h)),
    fun a ha => ⟨0, fun m k _ _ => (Option.some.inj ha) ▸ hloop m k⟩⟩

/-- A turn. -/
theorem step (hs : cond s = true) (hbody : Settles (fun m => body m s) (some s'))
    (h : LoopSettles unfinished cond body s' r) : LoopSettles unfinished cond body s r where
  sound m k a hk := by
    cases k with
    | zero =>
      rw [whileLoop, if_pos hs] at hk
      cases hk
    | succ k =>
      rw [whileLoop, if_pos hs] at hk
      obtain ⟨s₁, hs₁, hk⟩ := Except.bind_eq_ok.mp hk
      obtain rfl := Option.some.inj (hbody.sound m s₁ hs₁)
      exact h.sound m k a hk
  complete a ha := by
    obtain ⟨n, hn⟩ := hbody.complete s' rfl
    obtain ⟨n', hn'⟩ := h.complete a ha
    refine ⟨max n (n' + 1), fun m k hm hk => ?_⟩
    obtain ⟨k, rfl⟩ : ∃ k', k = k' + 1 := ⟨k - 1, by omega⟩
    rw [whileLoop, if_pos hs, hn m (by omega)]
    exact hn' m k (by omega) (by omega)

/-- A turn that comes to nothing. -/
theorem step_none (hs : cond s = true) (hbody : Settles (fun m => body m s) none) :
    LoopSettles unfinished cond body s none where
  sound m k a hk := by
    cases k with
    | zero =>
      rw [whileLoop, if_pos hs] at hk
      cases hk
    | succ k =>
      rw [whileLoop, if_pos hs] at hk
      obtain ⟨s₁, hs₁, -⟩ := Except.bind_eq_ok.mp hk
      cases hbody.sound m s₁ hs₁
  complete a ha := by cases ha

/-- A loop whose turns never leave its condition. -/
theorem forever (inv : σ → Prop) (hcond : ∀ s, inv s → cond s = true)
    (hbody : ∀ m s s', inv s → body m s = .ok s' → inv s') (hs : inv s) :
    LoopSettles unfinished cond body s none where
  sound m k a hk := by
    induction k generalizing s with
    | zero =>
      rw [whileLoop, if_pos (hcond s hs)] at hk
      cases hk
    | succ k ih =>
      rw [whileLoop, if_pos (hcond s hs)] at hk
      obtain ⟨s₁, hs₁, hk⟩ := Except.bind_eq_ok.mp hk
      exact ih (hbody m s s₁ hs hs₁) hk
  complete a ha := by cases ha

end LoopSettles

end Vle.Lib
