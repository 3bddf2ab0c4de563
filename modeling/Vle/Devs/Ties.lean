import Vle.Devs.Trajectory

/-!
# Simultaneous events

The heap returns the elements of one date in any order, which decides the order of the bag, of the outputs
and of the deliveries. When the transition functions depend on the events they get as a multiset only, none
of these orders is seen: two runs from one state have the same dates, and go through states with the same
models, next dates, routes and bags (`runs_alike`).
-/

namespace Vle.Devs

open Vle.Lib Vle.Lib.EState Vle.Vpz

variable {σ V : Type}

/-- The transition functions depend on the events as a multiset only, from every state. -/
def Dynamics.Symmetric (d : Dynamics σ V) : Prop :=
  ∀ (s : σ) (kind : Transition) (time : Time) (es es' : List (ExternalEvent V)), es.Perm es' →
    ({ d with state := s } : Dynamics σ V).transition kind time es =
      ({ d with state := s } : Dynamics σ V).transition kind time es'

/-- So do those of every model. -/
def Symmetric (c : Coordinator σ V) : Prop := ∀ id d tn, attached c id = some (d, tn) → d.Symmetric

/-- Two states that differ in the order of simultaneous events at most. -/
structure Alike (c₁ c₂ : Coordinator σ V) : Prop where
  models : attached c₁ = attached c₂
  route : (wiring c₁).route = (wiring c₂).route
  date : c₁.eventTable.currentTime = c₂.eventTable.currentTime
  bag : c₁.eventTable.currentBag.uniqueSimulators = c₂.eventTable.currentBag.uniqueSimulators

theorem Alike.refl (c : Coordinator σ V) : Alike c c := ⟨rfl, rfl, rfl, rfl⟩

theorem kindOf_perm {internal : Bool} {es es' : List (ExternalEvent V)} (h : es.Perm es') :
    kindOf internal es = kindOf internal es' := by
  unfold kindOf
  rw [h.isEmpty_eq]

section Step

variable {c c' c₁ c₂ c₁' c₂' : Coordinator σ V}

/-- The outputs of the two steps are the same, in another order. -/
theorem outputs_perm {D : Models σ V} {t : Time} {imminent : Finset SimId}
    {outs₁ outs₂ : List (SimId × List (ExternalEvent V))}
    (hnodup₁ : (outs₁.map (·.1)).Nodup) (hmem₁ : ∀ id, id ∈ outs₁.map (·.1) ↔ id ∈ imminent)
    (hout₁ : ∀ o ∈ outs₁, ∃ d tn, D o.1 = some (d, tn) ∧ d.output t d.state = .ok o.2)
    (hnodup₂ : (outs₂.map (·.1)).Nodup) (hmem₂ : ∀ id, id ∈ outs₂.map (·.1) ↔ id ∈ imminent)
    (hout₂ : ∀ o ∈ outs₂, ∃ d tn, D o.1 = some (d, tn) ∧ d.output t d.state = .ok o.2) :
    outs₁.Perm outs₂ := by
  -- An output is decided by the simulator and its state.
  have hsub : ∀ {l₁ l₂ : List (SimId × List (ExternalEvent V))},
      (∀ id, id ∈ l₁.map (·.1) → id ∈ l₂.map (·.1)) →
      (∀ o ∈ l₁, ∃ d tn, D o.1 = some (d, tn) ∧ d.output t d.state = .ok o.2) →
      (∀ o ∈ l₂, ∃ d tn, D o.1 = some (d, tn) ∧ d.output t d.state = .ok o.2) → ∀ o ∈ l₁, o ∈ l₂ := by
    intro l₁ l₂ hids h₁ h₂ o ho
    obtain ⟨o', ho', heq⟩ := List.mem_map.mp (hids o.1 (List.mem_map_of_mem ho))
    obtain ⟨d, tn, hd, hout⟩ := h₁ o ho
    obtain ⟨d', tn', hd', hout'⟩ := h₂ o' ho'
    rw [heq, hd, Option.some.injEq, Prod.mk.injEq] at hd'
    obtain ⟨rfl, rfl⟩ := hd'
    have hval : o'.2 = o.2 := Except.ok.inj (hout'.symm.trans hout)
    rwa [Prod.ext heq hval] at ho'
  refine (List.perm_ext_iff_of_nodup (List.Nodup.of_map _ hnodup₁) (List.Nodup.of_map _ hnodup₂)).mpr ?_
  refine fun o => ⟨hsub (fun id hid => ?_) hout₁ hout₂ o, hsub (fun id hid => ?_) hout₂ hout₁ o⟩
  · exact (hmem₂ id).mpr ((hmem₁ id).mp hid)
  · exact (hmem₁ id).mpr ((hmem₂ id).mp hid)

/-- A step of the coupled model from two such states leads to the same models. -/
theorem Alike.models_step (h : Alike c₁ c₂) (hsym : Symmetric c₁) (h₁ : CoupledStep c₁ c₁')
    (h₂ : CoupledStep c₂ c₂') : attached c₁' = attached c₂' := by
  obtain ⟨outs₁, hnodup₁, hmem₁, hout₁, hmoved₁, hkept₁⟩ := h₁.exists_outputs
  obtain ⟨outs₂, hnodup₂, hmem₂, hout₂, hmoved₂, hkept₂⟩ := h₂.exists_outputs
  -- What the second step starts from is what the first one starts from.
  rw [← h.bag] at hmem₂ hmoved₂ hkept₂
  rw [← h.models, ← h.date] at hout₂
  rw [← h.models] at hkept₂
  rw [← h.date, ← h.models, ← h.route] at hmoved₂
  rw [← h.route] at hkept₂
  have houts := outputs_perm hnodup₁ hmem₁ hout₁ hnodup₂ hmem₂ hout₂
  -- The same outputs in another order give the same deliveries in another order.
  have hrecs : (deliveries (wiring c₁).route outs₁).Perm (deliveries (wiring c₁).route outs₂) :=
    houts.flatMap_right _
  have hreceived : ∀ id, (received id (deliveries (wiring c₁).route outs₁)).Perm
      (received id (deliveries (wiring c₁).route outs₂)) := fun id => (hrecs.filter _).map _
  funext id
  by_cases hid : id ∈ c₁.eventTable.currentBag.uniqueSimulators ∨
      id ∈ (deliveries (wiring c₁).route outs₁).map (·.1)
  · -- The model is called in both steps, with the same kind and the same multiset of events.
    obtain ⟨d, tn, s, ta, hd, htransition, hta, hstate⟩ := hmoved₁ id hid
    obtain ⟨d', tn', s', ta', hd', htransition', hta', hstate'⟩ :=
      hmoved₂ id (hid.imp_right (hrecs.map _).mem_iff.mp)
    rw [hd, Option.some.injEq, Prod.mk.injEq] at hd'
    obtain ⟨rfl, rfl⟩ := hd'
    rw [← kindOf_perm (hreceived id), ← hsym id d tn hd d.state _ _ _ _ (hreceived id)] at htransition'
    rw [htransition, Script.done.injEq] at htransition'
    obtain ⟨rfl, -⟩ := htransition'
    rw [hta, Except.ok.injEq] at hta'
    subst hta'
    rw [hstate, hstate', h.date]
  · rw [not_or] at hid
    rw [hkept₁ id hid.1 hid.2, hkept₂ id hid.1 fun hrec => hid.2 ((hrecs.map _).mem_iff.mpr hrec)]

/-- The state of a model changes, its functions stay. -/
theorem Symmetric.step (h : Symmetric c) (hstep : CoupledStep c c') : Symmetric c' := by
  obtain ⟨outs, -, -, -, hmoved, hkept⟩ := hstep.exists_outputs
  intro id d' tn' hid
  by_cases hcalled : id ∈ c.eventTable.currentBag.uniqueSimulators ∨
      id ∈ (deliveries (wiring c).route outs).map (·.1)
  · obtain ⟨d, tn, s, ta, hd, -, -, hstate⟩ := hmoved id hcalled
    rw [hstate, Option.some.injEq, Prod.mk.injEq] at hid
    obtain ⟨rfl, -⟩ := hid
    exact fun s' => h id d tn hd s'
  · rw [not_or] at hcalled
    rw [hkept id hcalled.1 hcalled.2] at hid
    exact h id d' tn' hid

/-- The bag holds the models whose next date is the date of the bag. -/
theorem Ready.mem_bag (h : Ready (kernel c)) (id : SimId) :
    id ∈ c.eventTable.currentBag.uniqueSimulators ↔
      ∃ d tn, attached c id = some (d, tn) ∧ isInfinity tn = false ∧ tn = c.eventTable.currentTime := by
  have hacc := h.accordance
  constructor
  · intro hid
    obtain ⟨sim, d, hsim, hd, -⟩ := hacc.executive id hid
    have hcore : (kernel c).cores id = some sim.core := by simp [hsim]
    have htn : sim.tn = c.eventTable.currentTime := (h.due id _ hcore hid).tn
    exact ⟨d, sim.tn, attached_of hsim hd, htn ▸ h.dated ⟨id, hid⟩, htn⟩
  · rintro ⟨d, tn, hid, hfinite, rfl⟩
    obtain ⟨sim, hsim, hmap⟩ := Option.bind_eq_some_iff.mp hid
    obtain ⟨d', -, hpair⟩ := Option.map_eq_some_iff.mp hmap
    have htn : sim.tn = c.eventTable.currentTime := (Prod.mk.inj hpair).2
    -- An element that stayed in the heap is later than the bag.
    rcases hacc.scheduled id sim hsim (htn ▸ hfinite) with hbag | ⟨e, he, -, htime⟩
    · exact hbag.1
    · obtain ⟨-, -, -, hlt⟩ := hacc.key e he
      exact absurd (htime.trans htn) hlt.ne'

/-- No next date is before that of the bag. -/
theorem Ready.le_tn (h : Ready (kernel c)) {id : SimId} {d : Dynamics σ V} {tn : Time}
    (hid : attached c id = some (d, tn)) (hfinite : isInfinity tn = false) :
    c.eventTable.currentTime ≤ tn := by
  obtain ⟨sim, hsim, hmap⟩ := Option.bind_eq_some_iff.mp hid
  obtain ⟨d', -, hpair⟩ := Option.map_eq_some_iff.mp hmap
  have htn : sim.tn = tn := (Prod.mk.inj hpair).2
  rcases h.accordance.scheduled id sim hsim (htn ▸ hfinite) with ⟨-, heq⟩ | ⟨e, he, -, htime⟩
  · exact heq.symm.le.trans htn.le
  · obtain ⟨-, -, -, hlt⟩ := h.accordance.key e he
    exact hlt.le.trans (htime.trans htn).le

/-- With the same models the date of the bag is the same. -/
theorem date_le (h₁ : Ready (kernel c₁)) (h₂ : Ready (kernel c₂)) (hmodels : attached c₁ = attached c₂)
    (hbag₂ : c₂.eventTable.currentTime = infinity ∨ c₂.eventTable.currentBag.uniqueSimulators.Nonempty) :
    c₁.eventTable.currentTime ≤ c₂.eventTable.currentTime := by
  rcases hbag₂ with hnone | ⟨id, hid⟩
  · rw [hnone]
    exact le_top
  · obtain ⟨d, tn, hd, hfinite, htn⟩ := (h₂.mem_bag id).mp hid
    rw [← hmodels] at hd
    exact htn ▸ h₁.le_tn hd hfinite

/-- The two steps lead to such states. -/
theorem Alike.step {env₁ env₂ : Environment σ V} {fuel₁ fuel₂ : ℕ} (h : Alike c₁ c₂) (hsym : Symmetric c₁)
    (h₁ : Steady c₁) (h₂ : Steady c₂) (hrun₁ : Coordinator.run env₁ fuel₁ c₁ = .ok () c₁')
    (hrun₂ : Coordinator.run env₂ fuel₂ c₂ = .ok () c₂') : Alike c₁' c₂' := by
  obtain ⟨hsteady₁, hstep₁, hroute₁, hbag₁⟩ := h₁.run hrun₁
  obtain ⟨hsteady₂, hstep₂, hroute₂, hbag₂⟩ := h₂.run hrun₂
  have hmodels := h.models_step hsym hstep₁ hstep₂
  have hdate : c₁'.eventTable.currentTime = c₂'.eventTable.currentTime :=
    le_antisymm (date_le hsteady₁.ready hsteady₂.ready hmodels hbag₂)
      (date_le hsteady₂.ready hsteady₁.ready hmodels.symm hbag₁)
  refine ⟨hmodels, hroute₁.trans (h.route.trans hroute₂.symm), hdate, Finset.ext fun id => ?_⟩
  rw [hsteady₁.ready.mem_bag, hsteady₂.ready.mem_bag, hmodels, hdate]

end Step

/-! ## Runs -/

/-- Some steps of the root coordinator from a state, with the dates of their bags. In each of them the
simultaneous events may be taken in another order. -/
inductive Runs (c : Coordinator σ V) : List Time → Coordinator σ V → Prop
  | refl : Runs c [] c
  | step (dates : List Time) (c₁ : Coordinator σ V) (env : Environment σ V) (fuel : ℕ)
    (c₂ : Coordinator σ V) : Runs c dates c₁ → Coordinator.rootRun env fuel c₁ = .ok true c₂ →
    Runs c (dates ++ [c₁.eventTable.currentTime]) c₂

section Runs

variable {c c₁ c₂ : Coordinator σ V} {dates dates₁ dates₂ : List Time}

/-- Every state of a run with such dynamics has such dynamics. -/
theorem Reached.symmetric {env : Environment σ V} (henv : env.NoExecutive)
    (hsym : env.Builds Dynamics.Symmetric) (h : Reached env c) : Symmetric c := by
  induction h with
  | init graph fuel node current duration c hc =>
    have hlasting : Lasting fun d : Dynamics σ V => d.isExecutive = false ∧ d.Symmetric :=
      ⟨fun _ h => h.1, fun _ _ h => ⟨h.1, fun s' => h.2 s'⟩⟩
    have hbuilds : env.Builds fun d => d.isExecutive = false ∧ d.Symmetric :=
      fun name dyn g m values d hdyn hd =>
        ⟨henv name dyn g m values d hdyn hd, hsym name dyn g m values d hdyn hd⟩
    have hinit := wlp_iff.mp (wlp_settled_init hlasting hbuilds fuel graph node current duration) _ _ hc
    exact fun id d tn hid => (hinit.2 id d tn hid).2
  | run fuel c b c' hc hrun ih =>
    rcases rootRun_ok hrun with ⟨-, rfl⟩ | ⟨-, -, -, hstep⟩
    · exact ih
    · exact ih.step ((hc.steady henv).run hstep).2.1

theorem Runs.steady (h : Runs c dates c₁) (hsteady : Steady c) (hsym : Symmetric c) :
    Steady c₁ ∧ Symmetric c₁ := by
  induction h with
  | refl => exact ⟨hsteady, hsym⟩
  | step _ _ _ _ _ _ hrun ih =>
    rcases rootRun_ok hrun with ⟨hfalse, -⟩ | ⟨-, -, -, hstep⟩
    · cases hfalse
    · obtain ⟨h₁, hsym₁⟩ := ih
      obtain ⟨h₂, hcoupled, -, -⟩ := h₁.run hstep
      exact ⟨h₂, hsym₁.step hcoupled⟩

/-- **Simultaneous events.** From a state that a run without executives reaches, and with transition functions
that depend on the events they get as a multiset, two runs of so many steps have bags of the same dates, and
lead to the same models, next dates, routes and bag, in whatever order each of them takes the elements of one
date, sorts the executives and goes through the views. -/
theorem runs_alike {env : Environment σ V} (henv : env.NoExecutive)
    (hsymmetric : env.Builds Dynamics.Symmetric) (h : Reached env c) (h₁ : Runs c dates₁ c₁)
    (h₂ : Runs c dates₂ c₂) (hlength : dates₁.length = dates₂.length) :
    dates₁ = dates₂ ∧ Alike c₁ c₂ := by
  have hsteady := h.steady henv
  have hsym := h.symmetric henv hsymmetric
  induction h₁ generalizing dates₂ c₂ with
  | refl =>
    cases h₂ with
    | refl => exact ⟨rfl, .refl c⟩
    | step => simp at hlength
  | step dates₁ c₁ env₁ fuel₁ c₁' hrun₁ hlast₁ ih =>
    cases h₂ with
    | refl => simp at hlength
    | step dates₂ c₂ env₂ fuel₂ _ hrun₂ hlast₂ =>
      -- Both runs end with a step, from states that are alike.
      have hlength' : dates₁.length = dates₂.length := by simpa using hlength
      obtain ⟨rfl, halike⟩ := ih hrun₂ hlength'
      obtain ⟨hsteady₁, hsym₁⟩ := hrun₁.steady hsteady hsym
      obtain ⟨hsteady₂, -⟩ := hrun₂.steady hsteady hsym
      rcases rootRun_ok hlast₁ with ⟨hfalse, -⟩ | ⟨-, -, -, hstep₁⟩
      · cases hfalse
      rcases rootRun_ok hlast₂ with ⟨hfalse, -⟩ | ⟨-, -, -, hstep₂⟩
      · cases hfalse
      exact ⟨by rw [halike.date], halike.step hsym₁ hsteady₁ hsteady₂ hstep₁ hstep₂⟩

end Runs

/-- The transition functions of the two models depend on the number of events at most. -/
theorem Sample.symmetric : Sample.env.Builds Dynamics.Symmetric := by
  intro name dyn g m values d hdyn hd
  unfold Sample.env at hdyn
  dsimp only at hdyn
  split_ifs at hdyn
  · cases hdyn
    cases hd
    intro s kind time es es' _
    cases kind <;> rfl
  · cases hdyn
    cases hd
    intro s kind time es es' hperm
    have hlength := hperm.length_eq
    cases kind <;> simp [Dynamics.transition, Sample.counter, hlength]

namespace Sample

/-- Two models that send, and one that counts what it gets from both. -/
def twins : Graph where
  model m := match m with
    | 0 => some {
        name := "top", parent := none
        kind := .coupled { modelList := ((AList.insert "a" 1 ∅).insert "b" 2).insert "c" 3 } }
    | 1 => some {
        name := "a", parent := some 0
        outPortList := AList.insert "out" ⟨[(3, "in")], List.pairwise_singleton _ _⟩ ∅
        kind := .atomic { dynamics := "sender" } }
    | 2 => some {
        name := "b", parent := some 0
        outPortList := AList.insert "out" ⟨[(3, "in")], List.pairwise_singleton _ _⟩ ∅
        kind := .atomic { dynamics := "sender" } }
    | 3 => some {
        name := "c", parent := some 0
        inPortList := AList.insert "in" ⟨[(1, "out"), (2, "out")], by decide⟩ ∅
        kind := .atomic { dynamics := "counter" } }
    | _ => none
  nextId := 4

/-- The same names, with a heap that gives another one of equal elements first. -/
def lastFirst : Environment ℕ ℕ := { env with pick := fun l => l.length - 1 }

/-- From the first state, the two senders come into the bag of date 1 in both orders. -/
theorem exists_tie : ∃ c c₁ c₂, Reached env c ∧ Coordinator.rootRun env 1 c = .ok true c₁ ∧
    Coordinator.rootRun lastFirst 1 c = .ok true c₂ ∧ c₁.eventTable.currentBag.dynamics = [0, 1] ∧
    c₂.eventTable.currentBag.dynamics = [1, 0] := by
  have hrun : returned ((do
      Coordinator.init env 1 (some 0) 0 10
      let c ← get
      let b₁ ← Coordinator.rootRun env 1
      let c₁ ← get
      set c
      let b₂ ← Coordinator.rootRun lastFirst 1
      let c₂ ← get
      return (b₁, b₂, c₁.eventTable.currentBag.dynamics, c₂.eventTable.currentBag.dynamics) :
        CoordM ℕ ℕ (Bool × Bool × List SimId × List SimId)) { graph := twins }) =
      some (true, true, [0, 1], [1, 0]) := by decide +kernel
  unfold returned at hrun
  split at hrun
  · rename_i r c' hok
    cases hrun
    obtain ⟨_, c, hinit, hrest⟩ := bind_eq_ok.mp hok
    obtain ⟨_, _, hget, hrest⟩ := bind_eq_ok.mp hrest
    cases hget
    obtain ⟨b₁, c₁, hfirst, hrest⟩ := bind_eq_ok.mp hrest
    obtain ⟨_, _, hget, hrest⟩ := bind_eq_ok.mp hrest
    cases hget
    obtain ⟨_, _, hset, hrest⟩ := bind_eq_ok.mp hrest
    cases hset
    obtain ⟨b₂, c₂, hsecond, hrest⟩ := bind_eq_ok.mp hrest
    obtain ⟨_, _, hget, hpure⟩ := bind_eq_ok.mp hrest
    cases hget
    have hreached : Reached env c := .init twins 1 (some 0) 0 10 c hinit
    injection hpure with hpair _
    simp only [Prod.mk.injEq] at hpair
    obtain ⟨rfl, rfl, hbag₁, hbag₂⟩ := hpair
    exact ⟨c, c₁, c₂, hreached, hfirst, hsecond, hbag₁, hbag₂⟩
  · cases hrun

end Sample

/-- The two orders lead to such states. -/
theorem runs_alike_sample : ∃ c₁ c₂ : Coordinator ℕ ℕ, c₁.eventTable.currentBag.dynamics = [0, 1] ∧
    c₂.eventTable.currentBag.dynamics = [1, 0] ∧ Alike c₁ c₂ := by
  obtain ⟨c, c₁, c₂, hreached, hrun₁, hrun₂, hbag₁, hbag₂⟩ := Sample.exists_tie
  refine ⟨c₁, c₂, hbag₁, hbag₂, ?_⟩
  exact (runs_alike Sample.noExecutive Sample.symmetric hreached (.step [] c Sample.env 1 c₁ .refl hrun₁)
    (.step [] c Sample.lastFirst 1 c₂ .refl hrun₂) rfl).2

end Vle.Devs
