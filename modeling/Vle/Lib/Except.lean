import Mathlib.Tactic

/-!
# Programs with exceptions

Rules for programs in `Except`: a sequence and a loop succeed when their parts do.
-/

namespace Vle.Lib.Except

variable {ε α β σ : Type}

@[simp] theorem ok_bind (a : α) (f : α → Except ε β) : (Except.ok a >>= f) = f a := rfl

@[simp] theorem error_bind (e : ε) (f : α → Except ε β) :
    ((Except.error e : Except ε α) >>= f) = .error e := rfl

@[simp] theorem pure_eq (a : α) : (pure a : Except ε α) = .ok a := rfl

@[simp] theorem throw_eq (e : ε) : (throw e : Except ε α) = .error e := rfl

@[simp] theorem map_ok (f : α → β) (a : α) : f <$> (Except.ok a : Except ε α) = .ok (f a) := rfl

/-- A sequence succeeds exactly when its parts succeed in turn. -/
theorem bind_eq_ok {x : Except ε α} {f : α → Except ε β} {b : β} :
    x >>= f = .ok b ↔ ∃ a, x = .ok a ∧ f a = .ok b := by
  cases x with
  | ok a => simp
  | error e => simp

/-- A loop that maps succeeds when every turn does. -/
theorem mapM_eq_ok {f : α → Except ε β} {g : α → β} {l : List α}
    (h : ∀ a ∈ l, f a = .ok (g a)) : l.mapM f = .ok (l.map g) := by
  induction l with
  | nil => rfl
  | cons a l ih =>
    rw [List.mapM_cons, h a List.mem_cons_self, ih fun b hb => h b (List.mem_cons_of_mem _ hb)]
    rfl

/-- A loop that maps succeeds exactly when every turn does, with what the turns give. -/
theorem mapM_iff {f : α → Except ε β} {l : List α} {r : List β} :
    l.mapM f = .ok r ↔ l.map f = r.map .ok := by
  induction l generalizing r with
  | nil => cases r <;> simp
  | cons a l ih =>
    rw [List.mapM_cons, bind_eq_ok, List.map_cons]
    constructor
    · rintro ⟨b, hb, hrest⟩
      obtain ⟨bs, hbs, hr⟩ := bind_eq_ok.mp hrest
      cases hr
      rw [List.map_cons, hb, ih.1 hbs]
    · intro h
      cases r with
      | nil => cases h
      | cons b bs =>
        obtain ⟨hb, hbs⟩ := List.cons.inj h
        exact ⟨b, hb, by rw [ih.2 hbs]; rfl⟩

/-- A loop that maps and leaves out succeeds when every turn does. -/
theorem filterMapM_ok {f : α → Except ε (Option β)} {l : List α}
    (h : ∀ a ∈ l, ∃ b, f a = .ok b) : ∃ bs, l.filterMapM f = .ok bs := by
  induction l with
  | nil => exact ⟨[], rfl⟩
  | cons a l ih =>
    obtain ⟨b, hb⟩ := h a List.mem_cons_self
    obtain ⟨bs, hbs⟩ := ih fun a' ha' => h a' (List.mem_cons_of_mem _ ha')
    rw [List.filterMapM_cons, hb, ok_bind]
    cases b with
    | none => exact ⟨bs, hbs⟩
    | some b => exact ⟨b :: bs, by simp only [hbs, ok_bind, pure_eq]⟩

/-- A loop goes on from its first part. -/
theorem foldlM_concat {f : σ → α → Except ε σ} {l : List α} {a : α} {s : σ} :
    (l ++ [a]).foldlM f s = (l.foldlM f s >>= fun s' => f s' a) := by
  rw [List.foldlM_append]
  congr 1
  funext s'
  rw [List.foldlM_cons]
  cases f s' a <;> rfl

/-- A loop whose turns succeed under an invariant of the part of the list gone through. -/
theorem foldlM_invariant {f : σ → α → Except ε σ} {p : List α → σ → Prop} {l : List α} {s : σ}
    (hstart : p [] s)
    (hstep : ∀ done a rest s', l = done ++ a :: rest → p done s' →
      ∃ s'', f s' a = .ok s'' ∧ p (done ++ [a]) s'') : ∃ s', l.foldlM f s = .ok s' ∧ p l s' := by
  induction l using List.reverseRecOn with
  | nil => exact ⟨s, rfl, hstart⟩
  | append_singleton l a ih =>
    obtain ⟨s', hs', hinv⟩ := ih fun done b rest s' hl h =>
      hstep done b (rest ++ [a]) s' (by rw [hl, List.append_assoc, List.cons_append]) h
    obtain ⟨s'', hs'', hinv'⟩ := hstep l a [] s' rfl hinv
    exact ⟨s'', by rw [foldlM_concat, hs', ok_bind, hs''], hinv'⟩

/-- What every step of a loop keeps is true after the loop. -/
theorem foldlM_keeps {f : σ → α → Except ε σ} {p : σ → Prop}
    (hstep : ∀ s a s', p s → f s a = .ok s' → p s') {l : List α} {s s' : σ}
    (hrun : l.foldlM f s = .ok s') (hs : p s) : p s' := by
  induction l generalizing s with
  | nil =>
    cases hrun
    exact hs
  | cons a l ih =>
    rw [List.foldlM_cons] at hrun
    obtain ⟨s₁, hs₁, hrest⟩ := bind_eq_ok.mp hrun
    exact ih hrest (hstep s a s₁ hs hs₁)

end Vle.Lib.Except
