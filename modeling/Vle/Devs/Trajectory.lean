import Vle.Devs.Settled

/-!
# The transition of the coupled model

Without executives, a step of the root coordinator is the transition function of the coupled model in
Parallel DEVS: the models of the bag give their outputs, from the states before the step; the models of the
bag and those that get an event go, from their states before the step and the events they get, to the states
that their transition functions give, with the next dates that their time advance functions give for these;
and the others keep their states and their next dates (`reached_next`).
-/

namespace Vle.Devs

open Vle.Lib Vle.Lib.EState Vle.Vpz

variable {σ V : Type}

section Follows

variable {D D' : Models σ V} {t : Time}

/-- Outputs leave the models, and are those of the output functions. -/
theorem follows_outputs (outs : List (SimId × List (ExternalEvent V)))
    (h : Follows D (outs.map fun o => .output o.1 t o.2) D') :
    D' = D ∧ ∀ o ∈ outs, ∃ d tn, D o.1 = some (d, tn) ∧ d.output t d.state = .ok o.2 := by
  induction outs with
  | nil => exact ⟨h, by simp⟩
  | cons o outs ih =>
    obtain ⟨D₁, ⟨rfl, houtput⟩, hrest⟩ := h
    obtain ⟨hsame, hall⟩ := ih hrest
    exact ⟨hsame, List.forall_mem_cons.mpr ⟨houtput, hall⟩⟩

/-- One transition each leaves the states and the dates that the functions give, and the other models. -/
theorem follows_transitions {internal : SimId → Bool} {events : SimId → List (ExternalEvent V)}
    (transitions : List (SimId × σ)) (hnodup : (transitions.map (·.1)).Nodup)
    (h : Follows D (transitions.map (transitionOf internal events t)) D') :
    (∀ x ∈ transitions, ∃ d tn ta, D x.1 = some (d, tn) ∧
      d.transition (kindOf (internal x.1) (events x.1)) t (events x.1) = .done x.2 () ∧
      d.timeAdvance x.2 = .ok ta ∧ D' x.1 = some ({ d with state := x.2 }, ta + t)) ∧
    ∀ id, id ∉ transitions.map (·.1) → D' id = D id := by
  induction transitions generalizing D with
  | nil =>
    cases h
    exact ⟨by simp, fun _ _ => rfl⟩
  | cons x transitions ih =>
    obtain ⟨hx, hnodup⟩ := List.nodup_cons.mp hnodup
    obtain ⟨D₁, ⟨d, tn, ta, hd, htransition, hta, rfl⟩, hrest⟩ := h
    -- The transitions that follow are of other models.
    obtain ⟨hmoved, hkept⟩ := ih hnodup hrest
    refine ⟨List.forall_mem_cons.mpr ⟨⟨d, tn, ta, hd, htransition, hta, ?_⟩, fun y hy => ?_⟩, fun id hid => ?_⟩
    · rw [hkept x.1 hx, Function.update_self]
    · have hne : y.1 ≠ x.1 := fun heq => hx (List.mem_map.mpr ⟨y, hy, heq⟩)
      obtain ⟨d', tn', ta', hd', hrest'⟩ := hmoved y hy
      rw [Function.update_of_ne hne] at hd'
      exact ⟨d', tn', ta', hd', hrest'⟩
    · rw [List.map_cons, List.mem_cons, not_or] at hid
      rw [hkept id hid.2, Function.update_of_ne hid.1]

end Follows

/-- What the ledger holds of the calls of a step. -/
theorem filter_stepCalls {dynamics executives : List (SimId × List (ExternalEvent V))}
    {r₁ r₂ : List (SimId × ExternalEvent V)} {transitions : List (SimId × σ)} {internal : SimId → Bool}
    {events : SimId → List (ExternalEvent V)} {t : Time} :
    ((dynamics.map fun o => .output o.1 t o.2) ++ (r₁.map fun r => .external r.1 r.2) ++
      (executives.map fun o => .output o.1 t o.2) ++ (r₂.map fun r => .external r.1 r.2) ++
      transitions.map (transitionOf internal events t) : List (Event σ V)).filter Event.isFunction =
    ((dynamics ++ executives).map fun o => .output o.1 t o.2) ++
      transitions.map (transitionOf internal events t) := by
  have hout : ∀ outs : List (SimId × List (ExternalEvent V)),
      (outs.map fun o => .output o.1 t o.2 : List (Event σ V)).filter Event.isFunction =
        outs.map fun o => .output o.1 t o.2 := by
    refine fun outs => List.filter_eq_self.mpr fun e he => ?_
    obtain ⟨o, -, rfl⟩ := List.mem_map.mp he
    rfl
  have hexternal : ∀ recs : List (SimId × ExternalEvent V),
      (recs.map fun r => .external r.1 r.2 : List (Event σ V)).filter Event.isFunction = [] := by
    refine fun recs => List.filter_eq_nil_iff.mpr fun e he => ?_
    obtain ⟨r, -, rfl⟩ := List.mem_map.mp he
    exact Bool.false_ne_true
  have htransition : (transitions.map (transitionOf internal events t)).filter Event.isFunction =
      transitions.map (transitionOf internal events t) := by
    refine List.filter_eq_self.mpr fun e he => ?_
    obtain ⟨x, -, rfl⟩ := List.mem_map.mp he
    rfl
  simp only [List.filter_append, hout, hexternal, htransition, List.append_nil, List.map_append]

/-- The ledger is part of the calls. -/
theorem ledger_eq (c : Coordinator σ V) : ledger c = (kernel c).calls.filter Event.isFunction := by
  rw [kernel_calls, List.filter_filter]
  refine List.filter_congr fun e _ => ?_
  cases e <;> rfl

/-- A step of the coupled model: from the states of its models and their next dates to the next ones. -/
structure CoupledStep (c c' : Coordinator σ V) : Prop where
  exists_outputs : ∃ outs : List (SimId × List (ExternalEvent V)),
    let t := c.eventTable.currentTime
    let imminent := c.eventTable.currentBag.uniqueSimulators
    let recs := deliveries (wiring c).route outs
    (outs.map (·.1)).Nodup ∧ (∀ id, id ∈ outs.map (·.1) ↔ id ∈ imminent) ∧
      (∀ o ∈ outs, ∃ d tn, attached c o.1 = some (d, tn) ∧ d.output t d.state = .ok o.2) ∧
      (∀ id, id ∈ imminent ∨ id ∈ recs.map (·.1) → ∃ d tn s ta, attached c id = some (d, tn) ∧
        d.transition (kindOf (id ∈ imminent) (received id recs)) t (received id recs) = .done s () ∧
        d.timeAdvance s = .ok ta ∧ attached c' id = some ({ d with state := s }, ta + t)) ∧
      ∀ id, id ∉ imminent → id ∉ recs.map (·.1) → attached c' id = attached c id

section Reached

variable {env : Environment σ V} {fuel : ℕ} {c c' : Coordinator σ V}

/-- A state without executives from which a step is made. -/
structure Steady (c : Coordinator σ V) : Prop where
  ready : Ready (kernel c)
  sequential : c.parallelize = false
  settled : Settled c c

theorem Reached.steady (henv : env.NoExecutive) (h : Reached env c) : Steady c :=
  ⟨h.ready.1, h.ready.2, h.settled henv⟩

/-- A step leads from such a state to such a state, by a step of the coupled model. -/
theorem Steady.run (h : Steady c) (hstep : Coordinator.run env fuel c = .ok () c') :
    Steady c' ∧ CoupledStep c c' ∧ (wiring c').route = (wiring c).route ∧
      (c'.eventTable.currentTime = infinity ∨ c'.eventTable.currentBag.uniqueSimulators.Nonempty) := by
  obtain ⟨hready, hseq, hcalls, hbag⟩ := wlp_iff.mp (wlp_run env fuel h.ready h.sequential) _ _ hstep
  obtain ⟨l, hl, dynamics, executives, transitions, rfl, hnodup, hmem, htransitions, hcalled⟩ := hcalls.calls
  have hsettled := wlp_iff.mp (wlp_settled_run env fuel h.settled) _ _ hstep
  refine ⟨⟨hready, hseq, hsettled.self⟩, ?_, hsettled.route, hbag⟩
  obtain ⟨l, hledger, hfollows⟩ := hsettled.follows
  -- The ledger of the step holds its outputs, and then its transitions.
  rw [ledger_eq, hl, List.filter_append, ← ledger_eq, filter_stepCalls, List.append_cancel_left_eq] at hledger
  rw [← hledger] at hfollows
  obtain ⟨D, houtputs, hrest⟩ := (follows_append _ _).mp hfollows
  obtain ⟨rfl, houts⟩ := follows_outputs _ houtputs
  obtain ⟨hmoved, hkept⟩ := follows_transitions transitions htransitions hrest
  refine ⟨dynamics ++ executives, hnodup, hmem, houts, fun id hid => ?_, fun id hnot hnone => ?_⟩
  · obtain ⟨x, hx, rfl⟩ := List.mem_map.mp ((hcalled id).mpr hid)
    obtain ⟨d, tn, ta, hd, hrest⟩ := hmoved x hx
    exact ⟨d, tn, x.2, ta, hd, hrest⟩
  · exact hkept id fun hid => ((hcalled id).mp hid).elim hnot hnone

/-- **Transition of the coupled model.** In a run without executives, each step applies the output functions
of the models of the bag and the transition functions of these and of the receivers to the states before it,
sets their next dates by the time advance functions, and leaves the other models. -/
theorem reached_next (henv : env.NoExecutive) (h : Reached env c)
    (hrun : Coordinator.rootRun env fuel c = .ok true c') : CoupledStep c c' := by
  rcases rootRun_ok hrun with ⟨hfalse, -⟩ | ⟨-, -, -, hstep⟩
  · cases hfalse
  · exact ((h.steady henv).run hstep).2.1

end Reached

/-- The step at date 1 of the two models is such a step. -/
theorem reached_next_sample : ∃ c c' : Coordinator ℕ ℕ, c.eventTable.currentBag.dynamics = [0] ∧
    CoupledStep c c' := by
  obtain ⟨c, c', hreached, hrun, hbag⟩ := Sample.exists_step
  exact ⟨c, c', hbag, reached_next Sample.noExecutive hreached hrun⟩

end Vle.Devs
