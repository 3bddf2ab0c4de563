import Vle.Lib.EState

/-!
# Loops over machine integers

A loop that counts with two variables until the first one is equal to its end, as programs write it
with `!=`. It is a loop over a range when it begins before its end (`forNe_eq`), and only then ends well
(`forNe_of_ok`): otherwise its variables overflow, if nothing fails before.

`flatMap_range_window` is about a loop over the part of a range where there is something to do.
-/

namespace Vle.Lib.Loops

open EState

variable {ε σ : Type}

/-- The greatest `int`, and the least one. -/
def intMax : ℤ := 2 ^ 31 - 1

def intMin : ℤ := -2 ^ 31

/-- `for (; x != stop; ++x, ++m)`. -/
def forNe (overflow : ε) (stop : ℤ) (body : ℤ → ℤ → EStateM ε σ PUnit) (x m : ℤ) :
    EStateM ε σ PUnit :=
  if x = stop then pure ⟨⟩
  else do
    body x m
    if _h : x < intMax ∧ m < intMax then forNe overflow stop body (x + 1) (m + 1)
    else throw overflow
termination_by (intMax - x).toNat
decreasing_by omega

/-- A loop over the images of a list. -/
theorem forM_map {α β : Type} (l : List α) (f : α → β) (g : β → EStateM ε σ PUnit) :
    (l.map f).forM g = l.forM fun a => g (f a) := by
  induction l with
  | nil => rfl
  | cons a l ih =>
    change (g (f a) >>= fun _ => (l.map f).forM g) = g (f a) >>= fun _ => l.forM fun a => g (f a)
    rw [ih]

variable {overflow : ε} {stop : ℤ} {body : ℤ → ℤ → EStateM ε σ PUnit}

/-- A round of a loop that is not at its end. -/
theorem forNe_round {x m : ℤ} (hx : x ≠ stop) (hmax : x < intMax ∧ m < intMax) :
    forNe overflow stop body x m =
      body x m >>= fun _ => forNe overflow stop body (x + 1) (m + 1) := by
  rw [forNe, if_neg hx]
  simp only [dif_pos hmax]

/-- A loop that begins before its end is a loop over a range. -/
theorem forNe_eq {x m : ℤ} (hx : x ≤ stop) (hstop : stop ≤ intMax) (hm : m + (stop - x) ≤ intMax) :
    forNe overflow stop body x m =
      (List.range (stop - x).toNat).forM fun k => body (x + k) (m + k) := by
  obtain ⟨n, hn⟩ : ∃ n, n = (stop - x).toNat := ⟨_, rfl⟩
  rw [← hn]
  induction n generalizing x m with
  | zero =>
    rw [forNe, if_pos (by omega)]
    rfl
  | succ n ih =>
    rw [forNe_round (by omega) (by omega), ih (by omega) (by omega) (by omega),
      List.range_succ_eq_map]
    change _ = body (x + (0 : ℕ)) (m + (0 : ℕ)) >>= fun _ =>
      ((List.range n).map Nat.succ).forM fun k => body (x + k) (m + k)
    rw [forM_map, Nat.cast_zero, add_zero, add_zero]
    refine congrArg _ (funext fun _ => congrArg _ (funext fun k => ?_))
    rw [Nat.succ_eq_add_one, Nat.cast_succ, add_assoc, add_assoc, add_comm (1 : ℤ)]

/-- A loop that ends well begins before its end, or at it, and is a loop over a range. -/
theorem forNe_of_ok {x m : ℤ} {s s' : σ} (h : forNe overflow stop body x m s = .ok ⟨⟩ s') :
    x ≤ stop ∧ (x < stop → stop ≤ intMax) ∧
      (List.range (stop - x).toNat).forM (fun k => body (x + k) (m + k)) s = .ok ⟨⟩ s' := by
  suffices hbounds : x ≤ stop ∧ (x < stop → stop ≤ intMax ∧ m + (stop - x) ≤ intMax) by
    obtain ⟨hle, hlt⟩ := hbounds
    refine ⟨hle, fun hx => (hlt hx).1, ?_⟩
    rcases hle.lt_or_eq with hx | rfl
    · rwa [← forNe_eq hle (hlt hx).1 (hlt hx).2]
    · rw [forNe, if_pos rfl] at h
      rwa [Int.sub_self, Int.toNat_zero, List.range_zero]
  obtain ⟨n, hn⟩ : ∃ n, n = (intMax - x).toNat := ⟨_, rfl⟩
  induction n generalizing x m s with
  | zero =>
    by_cases hx : x = stop
    · omega
    · rw [forNe, if_neg hx] at h
      obtain ⟨_, _, _, hthrow⟩ := bind_eq_ok.mp h
      rw [dif_neg (by omega)] at hthrow
      cases hthrow
  | succ n ih =>
    by_cases hx : x = stop
    · omega
    by_cases hmax : x < intMax ∧ m < intMax
    · rw [forNe_round hx hmax] at h
      obtain ⟨_, s₁, _, hrest⟩ := bind_eq_ok.mp h
      have := ih hrest (by omega)
      omega
    · rw [forNe, if_neg hx] at h
      obtain ⟨_, _, _, hthrow⟩ := bind_eq_ok.mp h
      rw [dif_neg hmax] at hthrow
      cases hthrow

/-- What is kept by the rounds of a loop that ends well is there before and after each of them. -/
theorem forM_round {α : Type} {I : σ → Prop} {l : List α} {f : α → EStateM ε σ PUnit}
    (hf : ∀ a ∈ l, ∀ s s', I s → f a s = .ok ⟨⟩ s' → I s') {s s' : σ} (hs : I s)
    (h : l.forM f s = .ok ⟨⟩ s') {a : α} (ha : a ∈ l) :
    ∃ s₁ s₂, I s₁ ∧ f a s₁ = .ok ⟨⟩ s₂ := by
  induction l generalizing s with
  | nil => cases ha
  | cons b l ih =>
    obtain ⟨⟨⟩, s₁, hb, hl⟩ := bind_eq_ok.mp h
    rcases List.mem_cons.mp ha with rfl | ha
    · exact ⟨s, s₁, hs, hb⟩
    · exact ih (fun c hc => hf c (List.mem_cons_of_mem b hc)) (hf b List.mem_cons_self s s₁ hs hb) hl ha

/-- The element of a range after a part of it. -/
theorem eq_length_of_range {n k : ℕ} {done todo : List ℕ} (h : List.range n = done ++ k :: todo) :
    k = done.length ∧ k < n := by
  have hget : (List.range n)[done.length]? = some k := by
    rw [h, List.getElem?_append_right le_rfl, Nat.sub_self, List.getElem?_cons_zero]
  obtain ⟨hlt, hval⟩ := List.getElem?_eq_some_iff.mp hget
  rw [List.getElem_range] at hval
  rw [List.length_range] at hlt
  exact ⟨hval.symm, hval ▸ hlt⟩

/-- Where a function gives nothing outside of a part of a range, the range is as good as the part. -/
theorem flatMap_range_window {α : Type} {n a k : ℕ} (hle : a + k ≤ n) {f : ℕ → List α}
    (hf : ∀ m < n, m < a ∨ a + k ≤ m → f m = []) :
    (List.range n).flatMap f = (List.range k).flatMap fun j => f (a + j) := by
  obtain ⟨r, rfl⟩ : ∃ r, n = a + (k + r) := ⟨n - a - k, by omega⟩
  have hbefore : (List.range a).flatMap f = [] :=
    List.flatMap_eq_nil_iff.mpr fun m hm => hf m (by rw [List.mem_range] at hm; omega)
      (.inl (List.mem_range.mp hm))
  have hafter : ((List.range r).map (k + ·)).flatMap (fun j => f (a + j)) = [] := by
    refine List.flatMap_eq_nil_iff.mpr fun m hm => ?_
    obtain ⟨j, hj, rfl⟩ := List.mem_map.mp hm
    rw [List.mem_range] at hj
    exact hf _ (by omega) (.inr (by omega))
  rw [List.range_add, List.flatMap_append, hbefore, List.nil_append, List.flatMap_map,
    List.range_add, List.flatMap_append, hafter, List.append_nil]

end Vle.Lib.Loops
