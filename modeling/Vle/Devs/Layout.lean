import Vle.Devs.Kernel

/-!
# Where the models are

`layout` is the part of the state that transitions and changes of structure are about: the graph, of each
simulator its model, its routing cache, its dynamics and its next date, the deletions that are asked for, and
of the log the functions of the models that were called (`ledger`). What a step does but for the outputs, the
transitions and the caches leaves it as it is (`Laid`).
-/

namespace Vle.Devs

open Vle.Lib Vle.Lib.EState Vle.Vpz

variable {σ V : Type}

/-- The outputs and the transitions. -/
def Event.isFunction : Event σ V → Bool
  | .output .. | .transition .. => true
  | _ => false

/-- What the log holds of outputs and transitions. -/
def ledger (c : Coordinator σ V) : List (Event σ V) := c.log.filter Event.isFunction

/-- The graph, the model of each simulator with its cache, its dynamics and its next date, the deletions that
are asked for, whether the pool of threads is used, and the ledger. -/
structure Layout (σ V : Type) where
  graph : Graph
  models : SimId → Option (NodeId × List (String × TargetSimulator) × Option (Dynamics σ V) × Time)
  deleteModel : List NodeId
  parallelize : Bool
  ledger : List (Event σ V)

/-- What the layout holds of a simulator. -/
def Simulator.place (sim : Simulator σ V) :
    NodeId × List (String × TargetSimulator) × Option (Dynamics σ V) × Time :=
  (sim.atomicModel, sim.targetList, sim.dynamics, sim.tn)

/-- The layout of a state. -/
def layout (c : Coordinator σ V) : Layout σ V where
  graph := c.graph
  models id := (c.sims id).map Simulator.place
  deleteModel := c.deleteModel
  parallelize := c.parallelize
  ledger := ledger c

/-- The program leaves the layout as it is. -/
abbrev Laid {α : Type} (x : CoordM σ V α) : Prop := Fixes layout x

section Laid

variable {α : Type}

theorem laid_modifySimulator (id : SimId) {f : Simulator σ V → Simulator σ V}
    (hf : ∀ sim, (f sim).place = sim.place) : Laid (modifySimulator id f) := by
  intro w c hc
  refine wp_modifySimulator hc fun sim hsim => ?_
  rw [← hc]
  have hmodels : (fun i => (Function.update c.sims id (some (f sim)) i).map Simulator.place) =
      fun i => (c.sims i).map Simulator.place := by
    funext i
    by_cases h : i = id
    · subst h
      simp [hsim, hf]
    · simp [Function.update_of_ne h]
  simp only [layout, ledger, hmodels]

theorem laid_simulator (id : SimId) : Laid (simulator id : CoordM σ V (Simulator σ V)) :=
  fixes_inspect _

theorem laid_dynamicsOf (id : SimId) : Laid (dynamicsOf id : CoordM σ V (Dynamics σ V)) := by
  refine fixes_bind (laid_simulator id) fun sim => ?_
  cases sim.dynamics with
  | none => exact fixes_throw _
  | some d => exact fixes_pure d

theorem laid_readGraph (f : Graph → Except Error α) : Laid (readGraph f : CoordM σ V α) := fixes_inspect _

theorem laid_ofExcept (r : Except Error α) : Laid (ofExcept r : CoordM σ V α) := fixes_inspect _

theorem laid_isExecutive (id : SimId) : Laid (isExecutive id : CoordM σ V Bool) :=
  fixes_bind (laid_dynamicsOf id) fun _ => fixes_pure _

theorem ledger_note (c : Coordinator σ V) (event : Event σ V) :
    ledger { c with log := c.log ++ [event] } = ledger c ++ if event.isFunction then [event] else [] := by
  simp only [ledger, List.filter_append]
  cases h : event.isFunction <;> simp [h]

theorem laid_note {event : Event σ V} (h : event.isFunction = false) : Laid (note event) :=
  fixes_modify fun c => by simp [layout, ledger_note, h]

theorem laid_snapshot (call : SchedulerCall) (popped : List HeapElement) :
    Laid (snapshot call popped : CoordM σ V Unit) := fixes_modify fun _ => rfl

theorem laid_modifyTable (f : Scheduler → Scheduler) :
    Laid (modifyTable f : CoordM σ V Unit) := fixes_modify fun _ => rfl

theorem laid_modifyBag (f : Bag → Bag) : Laid (modifyBag f : CoordM σ V Unit) := fixes_modify fun _ => rfl

theorem laid_observe (id : SimId) (time : Time) (pp : List (String × String)) :
    Laid (observe id time pp : CoordM σ V Unit) := by
  refine fixes_forM (fun elem => ?_) pp
  refine fixes_bind (laid_dynamicsOf id) fun d => ?_
  exact fixes_bind (laid_modifySimulator id fun _ => rfl) fun _ =>
    fixes_bind (fixes_inspect _) fun _ => fixes_pure _

theorem laid_push (id : SimId) : Laid (Scheduler.push id : CoordM σ V Unit) := by
  refine fixes_bind (laid_isExecutive id) fun b => ?_
  split_ifs <;> exact laid_modifyTable _

theorem laid_eraseHandle (id : SimId) (handle : ℕ) :
    Laid (eraseHandle id handle : CoordM σ V Unit) :=
  fixes_bind (laid_modifyTable _) fun _ => laid_modifySimulator id fun _ => rfl

theorem laid_addExternal (id : SimId) (values : V) (portname : String) :
    Laid (Scheduler.addExternal id values portname : CoordM σ V Unit) := by
  have hrest : Laid (Scheduler.receive id values portname : CoordM σ V Unit) := by
    refine fixes_bind (laid_modifySimulator id fun _ => rfl) fun _ => fixes_bind (laid_note rfl) fun _ => ?_
    refine fixes_bind (laid_simulator id) fun sim => fixes_bind fixes_get fun c => ?_
    cases sim.handle with
    | none => exact laid_snapshot _ _
    | some handle =>
      dsimp only
      split_ifs
      · exact fixes_bind (laid_eraseHandle id handle) fun _ => laid_snapshot _ _
      · exact laid_snapshot _ _
  refine fixes_bind fixes_get fun c => ?_
  split_ifs
  · exact hrest
  · exact fixes_bind (laid_modifyTable _) fun _ => fixes_bind (laid_push id) fun _ => hrest

/-! ## The rest of a step -/

theorem laid_addInternal (id : SimId) (time : Time) :
    Laid (Scheduler.addInternal id time : CoordM σ V Unit) := by
  refine fixes_bind (laid_simulator id) fun sim => ?_
  cases sim.handle with
  | some handle => exact fixes_bind (laid_modifyTable _) fun _ => laid_snapshot _ _
  | none =>
    refine fixes_bind fixes_get fun c => fixes_bind (laid_modifyTable _) fun _ => ?_
    exact fixes_bind (laid_modifySimulator id fun _ => rfl) fun _ => laid_snapshot _ _

theorem laid_schedule (id : SimId) : Laid (Coordinator.schedule id : CoordM σ V Unit) := by
  refine fixes_bind (laid_simulator id) fun sim => ?_
  dsimp only
  split_ifs
  · exact laid_addInternal id _
  · exact fixes_pure _

theorem laid_flushObservations (id : SimId) (time : Time) :
    Laid (flushObservations id time : CoordM σ V Unit) := by
  refine fixes_bind (laid_simulator id) fun sim => fixes_bind (fixes_forM (fun o => ?_) _) fun _ => ?_
  · exact fixes_bind (laid_simulator id) fun _ => fixes_bind (laid_readGraph _) fun _ => laid_note rfl
  · exact laid_modifySimulator id fun _ => rfl

theorem laid_getName (id : SimId) : Laid (Simulator.getName id : CoordM σ V String) :=
  fixes_bind (laid_simulator id) fun _ => fixes_bind (laid_readGraph _) fun _ => fixes_pure _

theorem laid_timeAdvance (env : Environment σ V) (id : SimId) : Laid (Simulator.timeAdvance env id) := by
  refine fixes_bind (laid_dynamicsOf id) fun d => fixes_bind (laid_ofExcept _) fun tn => ?_
  split_ifs
  · exact fixes_bind (laid_getName id) fun _ => fixes_bind (fixes_throw _) fun _ => fixes_pure _
  · exact fixes_pure _

theorem laid_depths (ids : List SimId) : Laid (ids.mapM fun id => do
    return (id, ← Coordinator.depth id) : CoordM σ V (List (SimId × ℤ))) :=
  fixes_mapM (fun id => fixes_bind (fixes_bind (laid_dynamicsOf id) fun _ =>
    fixes_bind (laid_simulator id) fun _ => laid_readGraph _) fun _ => fixes_pure _) ids

theorem laid_viewRun (view : String) (time : Time) : Laid (View.run view time : CoordM σ V Unit) := by
  have hloop : ∀ v : View, Laid (v.observableList.lst.forM fun elem => do
      let d ← dynamicsOf elem.1
      let value ← ofExcept (d.observation ⟨time, view, elem.2⟩ d.state)
      let sim ← simulator elem.1
      let _ ← readGraph (·.deref sim.atomicModel)
      note (.observed view time [(elem.1, elem.2, value)]) : CoordM σ V Unit) := by
    refine fun v => fixes_forM (fun elem => ?_) _
    exact fixes_bind (laid_dynamicsOf _) fun _ => fixes_bind (laid_ofExcept _) fun _ =>
      fixes_bind (laid_simulator _) fun _ => fixes_bind (laid_readGraph _) fun _ => laid_note rfl
  refine fixes_bind fixes_get fun c => ?_
  split
  · exact fixes_throw _
  · split_ifs
    · exact fixes_bind (laid_note rfl) fun _ => hloop _
    · exact hloop _

theorem laid_observeLoop (env : Environment σ V) (eatuntil : Time) (n : ℕ) :
    Laid (Coordinator.observeLoop env eatuntil n) := by
  induction n with
  | zero => exact fixes_throw _
  | succ n ih =>
    refine fixes_bind fixes_get fun c => ?_
    split_ifs
    · refine fixes_bind (fixes_modify fun _ => rfl) fun _ => ?_
      split
      · refine fixes_bind (fixes_modify fun _ => rfl) fun _ => fixes_bind (fixes_forM (fun elem => ?_) _)
          fun _ => ih
        exact fixes_bind (laid_viewRun _ _) fun _ => fixes_modify fun _ => rfl
      · exact ih
    · exact fixes_pure _

theorem laid_observeTimed (env : Environment σ V) : Laid (Coordinator.observeTimed env) := by
  have hfinalize : ∀ time, Laid (Coordinator.finalize time : CoordM σ V Unit) := fun time =>
    fixes_bind fixes_get fun _ => fixes_bind (fixes_forM (fun _ => laid_viewRun _ time) _) fun _ =>
      fixes_modify fun _ => rfl
  refine fixes_bind fixes_get fun c => ?_
  dsimp only
  split_ifs
  · refine fixes_bind (laid_observeLoop env _ _) fun _ => ?_
    exact fixes_bind (fixes_modify fun _ => rfl) fun _ => hfinalize _
  · exact fixes_bind (laid_observeLoop env _ _) fun _ => fixes_pure _
  · exact fixes_pure _

theorem laid_fillBag (pf : Platform) (test : Time → Bool) :
    Laid (Scheduler.fillBag pf test : CoordM σ V (List HeapElement)) := by
  refine fixes_bind (laid_modifyBag _) fun _ => fixes_bind fixes_get fun c => ?_
  dsimp only
  refine fixes_bind (laid_modifyTable _) fun _ => fixes_bind (fixes_forM (fun e => ?_) _) fun _ =>
    fixes_pure _
  exact fixes_bind (laid_push _) fun _ => fixes_bind (laid_modifyBag _) fun _ =>
    laid_modifySimulator _ fun _ => rfl

theorem laid_makeNextBag (env : Environment σ V) : Laid (Coordinator.makeNextBag env) := by
  refine fixes_bind ?_ fun _ => fixes_modify fun _ => rfl
  refine fixes_bind fixes_get fun c => fixes_bind (laid_modifyTable _) fun _ => ?_
  exact fixes_bind (laid_fillBag _ _) fun _ => laid_snapshot _ _

theorem laid_schedulerInit (pf : Platform) (time : Time) :
    Laid (Scheduler.init pf time : CoordM σ V Unit) :=
  fixes_bind (laid_modifyTable _) fun _ => fixes_bind (laid_fillBag pf _) fun _ => laid_snapshot _ _

theorem laid_addObservableToView (model : NodeId) (portname view : String) :
    Laid (Coordinator.addObservableToView model portname view : CoordM σ V Unit) := by
  refine fixes_bind (laid_readGraph _) fun mdl => ?_
  split
  · refine fixes_bind (laid_dynamicsOf _) fun _ => fixes_get_bind fun c => ?_
    cases c.eventViewList.lookup view with
    | some v => rfl
    | none =>
      cases c.timedViewList.lookup view with
      | some v => rfl
      | none => rfl
  · exact fixes_throw _

end Laid

end Vle.Devs
