import Vle.Vpz.Runs

/-!
# Deleting a submodel

What `delModel` leaves, said of the whole hierarchy: the connections around the submodel go first, so
that nothing mentions it when it is destroyed, with what is below it (`delModel_exact`). That the run
ends well says that nothing destroyed is used on the way, since an access to a deleted model is an
error of the heap.
-/

namespace Vle.Vpz

open Vle.Lib Vle.Vpz.Graph

namespace Graph

/-- The loops of `delAllConnection` change other lists than the one they go through. -/
theorem Wired.far_ne {g : Graph} (h : g.Wired) {c : NodeId} {s : Slot}
    (hm : g.parent? s.model = some c) (hside : s.side.inner ≠ s.side) {e : ModelPort}
    (he : e ∈ g.entries s) : far c s e ≠ s := by
  obtain ⟨t, rfl, hst⟩ := h.linked.joined s e he
  rw [far_entry h.forest hm hside hst]
  exact hst.ne.symm

/-- Only what is joined to a slot is recorded in it. -/
theorem Linked.count_eq_zero {g : Graph} (h : g.Linked) {s : Slot} {e : ModelPort}
    (hnone : ∀ t, t.entry = e → ¬ g.Joined s t) : (g.entries s).count e = 0 :=
  List.count_eq_zero.mpr fun he => by
    obtain ⟨t, ht, hst⟩ := h.joined s e he
    exact hnone t ht hst

section Removed

variable {m : NodeId} {g g₁ g' : Graph}

/-- Nothing mentions a model that is removed when nothing was connected around it. -/
theorem Wired.not_mentioned (h : g.Wired) (hun : g.Unlinked m) (hr : Removed m g g') {s : Slot}
    {e : ModelPort} (he : e ∈ g'.entries s) : ¬ g.Below m s.model ∧ ¬ g.Below m e.1 := by
  have hs : ¬ g.Below m s.model := fun hb => by
    rw [Graph.entries, Graph.portList?, hr.gone _ hb] at he
    cases he
  refine ⟨hs, fun hb => ?_⟩
  rw [Graph.entries, hr.ports s hs, ← Graph.entries] at he
  obtain ⟨t, rfl, hst⟩ := h.linked.joined s e he
  have hother := (h.linked.mem_comm hst).mp he
  rw [hun t (hst.crosses hs hb)] at hother
  cases hother

/-- The connections that are not around a model keep their multiplicity when those around it are
taken out. -/
theorem CutBy.count_kept (h : g.Linked)
    (hcut : CutBy (fun u v => Around m u ∨ Around m v) g g₁) {s : Slot} {e : ModelPort}
    (hs : s.model ≠ m) (he : e.1 ≠ m) : (g₁.entries s).count e = (g.entries s).count e := by
  by_cases hjoined : ∃ t, t.entry = e ∧ g.Joined s t
  · obtain ⟨t, rfl, hst⟩ := hjoined
    exact hcut.kept s t hst fun hC => hC.elim (fun h => hs h.1) fun h => he h.1
  · push Not at hjoined
    have hzero := h.count_eq_zero hjoined
    rw [hzero]
    exact List.count_eq_zero.mpr fun he' => List.count_eq_zero.mp hzero (hcut.sub s he')

end Removed

section DelModel

variable {c m : NodeId} {g g' : Graph}

/-- The models that are not deleted stay where they are. -/
theorem DelModel.tree (hd : DelModel c m g g') {n : NodeId} (hn : ¬ g.Below m n) :
    g'.name? n = g.name? n ∧ g'.parent? n = g.parent? n ∧ g'.coupled? n = g.coupled? n := by
  obtain ⟨g₁, hcut, -, hr, -⟩ := hd.cut
  have hrewired := hcut.rewired
  have hn₁ : ¬ g₁.Below m n := mt (below_congr hrewired.parent?).mp hn
  rw [hr.name n hn₁, hr.parent n hn₁, hr.coupled n hn₁, hrewired.name?, hrewired.parent?,
    hrewired.coupled?]
  exact ⟨rfl, rfl, rfl⟩

/-- No model gets a parent. -/
theorem DelModel.parent_mono (hd : DelModel c m g g') {n p : NodeId} (hp : g'.parent? n = some p) :
    g.parent? n = some p := by
  obtain ⟨g₁, hcut, -, hr, -⟩ := hd.cut
  rw [← hcut.rewired.parent?]
  exact (hr.parent?_eq_some hp).2.2

/-- They keep their ports. -/
theorem DelModel.ports (hd : DelModel c m g g') {s : Slot} (hs : ¬ g.Below m s.model) :
    (g'.portList? s).isSome = (g.portList? s).isSome := by
  obtain ⟨g₁, hcut, -, hr, -⟩ := hd.cut
  have hrewired := hcut.rewired
  rw [hr.ports s (mt (below_congr hrewired.parent?).mp hs), hrewired.ports]

/-- The connections between them keep their multiplicity. -/
theorem DelModel.count (hd : DelModel c m g g') (h : g.Linked) {s : Slot} {e : ModelPort}
    (hs : ¬ g.Below m s.model) (he : ¬ g.Below m e.1) :
    (g'.entries s).count e = (g.entries s).count e := by
  obtain ⟨g₁, hcut, -, hr, -⟩ := hd.cut
  have hbelow : ∀ {n}, g₁.Below m n ↔ g.Below m n := below_congr hcut.rewired.parent?
  rw [Graph.entries, hr.ports s (mt hbelow.mp hs), ← Graph.entries]
  exact hcut.count_kept h (fun hsm => hs (hsm ▸ Below.refl g s.model))
    fun hem => he (hem ▸ Below.refl g e.1)

/-- No list mentions a model that is gone. -/
theorem DelModel.not_mentioned (hd : DelModel c m g g') (h : g.Wired) {s : Slot} {e : ModelPort}
    (he : e ∈ g'.entries s) : ¬ g.Below m s.model ∧ ¬ g.Below m e.1 := by
  obtain ⟨g₁, hcut, -, hr, -⟩ := hd.cut
  have hbelow : ∀ {n}, g₁.Below m n ↔ g.Below m n := below_congr hcut.rewired.parent?
  have h₁ : g₁.Wired := h.cut hcut fun u v => or_comm
  have := h₁.not_mentioned (hcut.unlinked h.linked) hr he
  rwa [hbelow, hbelow] at this

end DelModel

end Graph

end Vle.Vpz
