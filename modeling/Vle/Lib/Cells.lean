import Mathlib.Tactic

/-!
# Writes at places that are apart

A state is read and written at places. When a write changes what is read at its place only, in any order
and as if it were the last, states that come from one state by writes are the same exactly when the same
is read at each place (`writes_eq_iff`).
-/

namespace Vle.Lib

variable {σ ι β : Type}

/-- How a state is read and written at a place. -/
structure Cells (σ ι β : Type) where
  read : σ → ι → Option β
  write : ι → β → σ → σ

namespace Cells

/-- Writes in turn. -/
def writes (C : Cells σ ι β) (ws : List (ι × β)) (s : σ) : σ := ws.foldl (fun s w => C.write w.1 w.2 s) s

/-- The places are apart, in the states of an invariant and for the values of each place. -/
structure Apart (C : Cells σ ι β) (inv : σ → Prop) (place : ι → Prop) (ok : ι → β → Prop) : Prop where
  keeps : ∀ {s i b}, inv s → place i → ok i b → inv (C.write i b s)
  read_self : ∀ {s i b}, inv s → place i → ok i b → C.read (C.write i b s) i = some b
  read_apart : ∀ {s i j b}, inv s → place i → place j → i ≠ j → ok i b →
    C.read (C.write i b s) j = C.read s j
  read_ok : ∀ {s i}, inv s → place i → ∃ b, ok i b ∧ C.read s i = some b
  write_self : ∀ {s i a b}, C.write i b (C.write i a s) = C.write i b s
  write_comm : ∀ {s i j a b}, place i → place j → i ≠ j →
    C.write i a (C.write j b s) = C.write j b (C.write i a s)
  write_read : ∀ {s i b}, C.read s i = some b → C.write i b s = s

variable {C : Cells σ ι β} {inv : σ → Prop} {place : ι → Prop} {ok : ι → β → Prop}

theorem writes_concat (ws : List (ι × β)) (w : ι × β) (s : σ) :
    C.writes (ws ++ [w]) s = C.write w.1 w.2 (C.writes ws s) := by
  simp [writes]

theorem writes_append (ws vs : List (ι × β)) (s : σ) : C.writes (ws ++ vs) s = C.writes vs (C.writes ws s) := by
  simp [writes]

/-- What the places hold, written one after the other. -/
def fill (C : Cells σ ι β) (places : List ι) (f : ι → Option β) (s : σ) : σ :=
  places.foldl (fun s i => match f i with
    | some b => C.write i b s
    | none => s) s

namespace Apart

variable (h : C.Apart inv place ok)

include h

/-- Writes keep the invariant. -/
theorem writes_keeps {ws : List (ι × β)} {s : σ} (hws : ∀ w ∈ ws, place w.1 ∧ ok w.1 w.2) (hs : inv s) :
    inv (C.writes ws s) := by
  induction ws generalizing s with
  | nil => exact hs
  | cons w ws ih =>
    obtain ⟨hplace, hok⟩ := hws w List.mem_cons_self
    exact ih (fun v hv => hws v (List.mem_cons_of_mem _ hv)) (h.keeps hs hplace hok)

/-- Writes elsewhere do not change what is read. -/
theorem read_writes_of_notMem {ws : List (ι × β)} {s : σ} (hws : ∀ w ∈ ws, place w.1 ∧ ok w.1 w.2) (hs : inv s)
    {i : ι} (hi : place i) (hnot : i ∉ ws.map Prod.fst) : C.read (C.writes ws s) i = C.read s i := by
  induction ws generalizing s with
  | nil => rfl
  | cons w ws ih =>
    rw [List.map_cons, List.mem_cons, not_or] at hnot
    obtain ⟨hplace, hok⟩ := hws w List.mem_cons_self
    have hrest := ih (fun v hv => hws v (List.mem_cons_of_mem _ hv)) (h.keeps hs hplace hok) hnot.2
    exact hrest.trans (h.read_apart hs hplace hi (Ne.symm hnot.1) hok)

/-- The same is read at a place that is written, whatever the state. -/
theorem read_writes_of_mem {ws : List (ι × β)} {s s' : σ} (hws : ∀ w ∈ ws, place w.1 ∧ ok w.1 w.2) (hs : inv s)
    (hs' : inv s') {i : ι} (hi : i ∈ ws.map Prod.fst) :
    C.read (C.writes ws s) i = C.read (C.writes ws s') i := by
  induction ws using List.reverseRecOn with
  | nil => cases hi
  | append_singleton ws w ih =>
    have hws' : ∀ v ∈ ws, place v.1 ∧ ok v.1 v.2 := fun v hv => hws v (List.mem_append_left _ hv)
    obtain ⟨hplace, hok⟩ := hws w (List.mem_append_right _ (List.mem_singleton_self _))
    have hkeeps := h.writes_keeps hws' hs
    have hkeeps' := h.writes_keeps hws' hs'
    rw [writes_concat, writes_concat]
    by_cases hw : i = w.1
    · subst hw
      rw [h.read_self hkeeps hplace hok, h.read_self hkeeps' hplace hok]
    · rw [List.map_append, List.mem_append] at hi
      have hmem : i ∈ ws.map Prod.fst := hi.resolve_right fun hlast => hw (by simpa using hlast)
      obtain ⟨v, hv, rfl⟩ := List.mem_map.mp hmem
      have hplace' := (hws' v hv).1
      rw [h.read_apart hkeeps hplace hplace' (Ne.symm hw) hok,
        h.read_apart hkeeps' hplace hplace' (Ne.symm hw) hok]
      exact ih hws' hmem

/-- A write at a place that is filled changes what is written there. -/
theorem write_fill [DecidableEq ι] {places : List ι} (hplaces : ∀ i ∈ places, place i)
    (hnodup : places.Nodup) {f : ι → Option β} {i : ι} (hi : i ∈ places) (hf : ∃ a, f i = some a) (b : β)
    (s : σ) : C.write i b (C.fill places f s) = C.fill places (Function.update f i (some b)) s := by
  have hlast : ∀ {ps : List ι} {g : ι → Option β} (t : σ), i ∉ ps → (∀ j ∈ ps, place j) →
      C.fill ps (Function.update g i (some b)) t = C.fill ps g t ∧
        C.write i b (C.fill ps g t) = C.fill ps g (C.write i b t) := by
    intro ps g t hnot hps
    induction ps generalizing t with
    | nil => exact ⟨rfl, rfl⟩
    | cons j ps ih =>
      rw [List.mem_cons, not_or] at hnot
      have hps' : ∀ k ∈ ps, place k := fun k hk => hps k (List.mem_cons_of_mem _ hk)
      have hj := hps j List.mem_cons_self
      simp only [fill, List.foldl_cons, Function.update_of_ne (Ne.symm hnot.1)]
      refine ⟨(ih _ hnot.2 hps').1, (ih _ hnot.2 hps').2.trans ?_⟩
      cases g j with
      | none => rfl
      | some a => exact congrArg (C.fill ps g) (h.write_comm (hplaces i hi) hj hnot.1)
  obtain ⟨a, ha⟩ := hf
  induction places generalizing s with
  | nil => cases hi
  | cons j ps ih =>
    rw [List.nodup_cons] at hnodup
    have hps : ∀ k ∈ ps, place k := fun k hk => hplaces k (List.mem_cons_of_mem _ hk)
    by_cases hij : i = j
    · subst hij
      obtain ⟨hsame, hcomm⟩ := hlast (g := f) (C.write i a s) hnodup.1 hps
      simp only [fill, List.foldl_cons, ha, Function.update_self] at hsame hcomm ⊢
      rw [hcomm, h.write_self]
      exact ((hlast (g := f) (C.write i b s) hnodup.1 hps).1).symm
    · have hi' : i ∈ ps := (List.mem_cons.mp hi).resolve_left hij
      simp only [fill, List.foldl_cons, Function.update_of_ne (Ne.symm hij)]
      exact ih hps hnodup.2 hi' _

/-- A state that comes from another by writes is the other one, filled with what is read. -/
theorem writes_eq_fill [DecidableEq ι] {places : List ι} (hplaces : ∀ i ∈ places, place i)
    (hnodup : places.Nodup) {ws : List (ι × β)} {s : σ} (hws : ∀ w ∈ ws, place w.1 ∧ ok w.1 w.2) (hs : inv s)
    (hin : ∀ w ∈ ws, w.1 ∈ places) : C.writes ws s = C.fill places (C.read (C.writes ws s)) s := by
  induction ws using List.reverseRecOn with
  | nil =>
    change s = C.fill places (C.read s) s
    clear hin hplaces hnodup
    induction places with
    | nil => rfl
    | cons i ps ih =>
      rw [fill, List.foldl_cons]
      cases hread : C.read s i with
      | none => exact ih
      | some b =>
        simp only [h.write_read hread]
        exact ih
  | append_singleton ws w ih =>
    have hws' : ∀ v ∈ ws, place v.1 ∧ ok v.1 v.2 := fun v hv => hws v (List.mem_append_left _ hv)
    obtain ⟨hplace, hok⟩ := hws w (List.mem_append_right _ (List.mem_singleton_self _))
    have hmem := hin w (List.mem_append_right _ (List.mem_singleton_self _))
    have hkeeps := h.writes_keeps hws' hs
    obtain ⟨a, -, ha⟩ := h.read_ok hkeeps hplace
    have hwritten := h.write_fill hplaces hnodup hmem ⟨a, ha⟩ w.2 s
    rw [← ih hws' fun v hv => hin v (List.mem_append_left _ hv)] at hwritten
    rw [writes_concat, hwritten]
    -- the states are filled alike
    have hread : ∀ j ∈ places, Function.update (C.read (C.writes ws s)) w.1 (some w.2) j =
        C.read (C.write w.1 w.2 (C.writes ws s)) j := by
      intro j hj
      by_cases hjw : j = w.1
      · rw [hjw, Function.update_self, h.read_self hkeeps hplace hok]
      · rw [Function.update_of_ne hjw, h.read_apart hkeeps hplace (hplaces j hj) (Ne.symm hjw) hok]
    rw [← hwritten]
    refine hwritten.trans ?_
    unfold fill
    refine List.foldl_ext _ _ _ fun t j hj => ?_
    rw [hread j hj]

/-- States that come from one state by writes are the same when the same is read at each place. -/
theorem writes_eq_iff [DecidableEq ι] {ws vs : List (ι × β)} {s : σ}
    (hws : ∀ w ∈ ws, place w.1 ∧ ok w.1 w.2) (hvs : ∀ w ∈ vs, place w.1 ∧ ok w.1 w.2) (hs : inv s) :
    C.writes ws s = C.writes vs s ↔
      ∀ i, place i → C.read (C.writes ws s) i = C.read (C.writes vs s) i := by
  refine ⟨fun heq i _ => by rw [heq], fun hread => ?_⟩
  have hplaces : ∀ i ∈ ((ws ++ vs).map Prod.fst).dedup, place i := by
    intro i hi
    obtain ⟨w, hw, rfl⟩ := List.mem_map.mp (List.mem_dedup.mp hi)
    rcases List.mem_append.mp hw with hw | hw
    · exact (hws w hw).1
    · exact (hvs w hw).1
  have hnodup := List.nodup_dedup ((ws ++ vs).map Prod.fst)
  have hin : ∀ w ∈ ws ++ vs, w.1 ∈ ((ws ++ vs).map Prod.fst).dedup := fun w hw =>
    List.mem_dedup.mpr (List.mem_map_of_mem hw)
  rw [h.writes_eq_fill hplaces hnodup hws hs fun w hw => hin w (List.mem_append_left _ hw),
    h.writes_eq_fill hplaces hnodup hvs hs fun w hw => hin w (List.mem_append_right _ hw)]
  unfold fill
  refine List.foldl_ext _ _ _ fun t i hi => ?_
  rw [hread i (hplaces i hi)]

end Apart

end Cells

end Vle.Lib
