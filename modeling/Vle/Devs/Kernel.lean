import Vle.Devs.Coordinator
import Vle.Lib.Keeps

/-!
# What the scheduler works on

`kernel` is the part of the state that decides when a simulator is called: of each simulator its next
date, its handle, its pending events and whether its dynamics is an executive (`Core`), the scheduler, the
dates, and of the log the outputs, the deliveries and the transitions. Most functions leave it as it is
(`Still`), those that change the graph, the routing caches, the views and the observations among them.
-/

namespace Vle.Devs

open Vle.Lib Vle.Lib.EState Vle.Vpz

variable {σ V : Type}

/-- What the scheduler knows of a simulator. -/
structure Core (V : Type) where
  tn : Time
  handle : Option ℕ
  haveInternal : Bool
  externalEvents : List (ExternalEvent V)
  result : List (ExternalEvent V)
  executive : Option Bool

/-- What the scheduler knows of this simulator. -/
def Simulator.core (sim : Simulator σ V) : Core V where
  tn := sim.tn
  handle := sim.handle
  haveInternal := sim.haveInternal
  externalEvents := sim.externalEvents
  result := sim.result
  executive := sim.dynamics.map (·.isExecutive)

/-- The outputs, the deliveries and the transitions. -/
def Event.isCall : Event σ V → Bool
  | .output .. | .external .. | .transition .. => true
  | _ => false

/-- The part of the state that decides what is called. -/
structure Kernel (σ V : Type) where
  cores : SimId → Option (Core V)
  nextSim : SimId
  simulators : List SimId
  table : Scheduler
  currentTime : Time
  parallelize : Bool
  calls : List (Event σ V)

/-- The part of a state that decides what is called. -/
def kernel (c : Coordinator σ V) : Kernel σ V where
  cores id := (c.sims id).map Simulator.core
  nextSim := c.nextSim
  simulators := c.simulators
  table := c.eventTable
  currentTime := c.currentTime
  parallelize := c.parallelize
  calls := c.log.filter Event.isCall

@[simp] theorem kernel_cores (c : Coordinator σ V) (id : SimId) :
    (kernel c).cores id = (c.sims id).map Simulator.core := rfl

@[simp] theorem kernel_nextSim (c : Coordinator σ V) : (kernel c).nextSim = c.nextSim := rfl

@[simp] theorem kernel_simulators (c : Coordinator σ V) : (kernel c).simulators = c.simulators := rfl

@[simp] theorem kernel_table (c : Coordinator σ V) : (kernel c).table = c.eventTable := rfl

@[simp] theorem kernel_currentTime (c : Coordinator σ V) : (kernel c).currentTime = c.currentTime := rfl

@[simp] theorem kernel_parallelize (c : Coordinator σ V) : (kernel c).parallelize = c.parallelize := rfl

@[simp] theorem kernel_calls (c : Coordinator σ V) : (kernel c).calls = c.log.filter Event.isCall := rfl

/-- A simulator has another core. -/
def Kernel.put (k : Kernel σ V) (id : SimId) (core : Core V) : Kernel σ V :=
  { k with cores := Function.update k.cores id (some core) }

theorem kernel_update (c : Coordinator σ V) (id : SimId) (sim : Simulator σ V) :
    kernel { c with sims := Function.update c.sims id (some sim) } = (kernel c).put id sim.core := by
  have hcores : (fun i => (Function.update c.sims id (some sim) i).map Simulator.core) =
      Function.update (fun i => (c.sims i).map Simulator.core) id (some sim.core) := by
    funext i
    by_cases h : i = id
    · subst h
      simp
    · simp [Function.update_of_ne h]
  simp only [kernel, Kernel.put, hcores]

theorem Kernel.put_self {k : Kernel σ V} {id : SimId} {core : Core V} (h : k.cores id = some core) :
    k.put id core = k := by
  rw [Kernel.put, ← h, Function.update_eq_self]

theorem kernel_note (c : Coordinator σ V) (event : Event σ V) :
    kernel { c with log := c.log ++ [event] } =
      { kernel c with calls := (kernel c).calls ++ if event.isCall then [event] else [] } := by
  simp only [kernel, List.filter_append]
  cases h : event.isCall <;> simp [h]

/-! ## Simulators -/

section Simulators

variable {α : Type} {id : SimId} {c : Coordinator σ V} {E : Error → Coordinator σ V → Prop}

theorem wp_simulator {Q : Simulator σ V → Coordinator σ V → Prop} (hE : E .destroyed c)
    (h : ∀ sim, c.sims id = some sim → Q sim c) : wp (simulator id) Q E c := by
  refine (wp_inspect _).mpr ⟨fun sim hsim => ?_, fun e he => ?_⟩
  · cases hid : c.sims id with
    | none =>
      rw [hid] at hsim
      cases hsim
    | some s =>
      rw [hid] at hsim
      cases hsim
      exact h _ hid
  · cases hid : c.sims id with
    | none =>
      rw [hid] at he
      cases he
      exact hE
    | some s =>
      rw [hid] at he
      cases he

theorem wp_modifySimulator {Q : PUnit → Coordinator σ V → Prop} {f : Simulator σ V → Simulator σ V}
    (hE : E .destroyed c)
    (h : ∀ sim, c.sims id = some sim →
      Q ⟨⟩ { c with sims := Function.update c.sims id (some (f sim)) }) :
    wp (modifySimulator id f) Q E c := by
  unfold modifySimulator
  rw [wp_bind]
  exact wp_simulator hE fun sim hsim => h sim hsim

/-- A read of a simulator that there is. -/
theorem wp_simulator_of {Q : Simulator σ V → Coordinator σ V → Prop} {sim : Simulator σ V}
    (hid : c.sims id = some sim) : wp (simulator id) Q E c ↔ Q sim c := by
  have hrun : simulator id c = .ok sim c := inspect_eq_ok.mpr ⟨by rw [hid], rfl⟩
  unfold wp
  rw [hrun]

/-- A change of a simulator that there is. -/
theorem wp_modifySimulator_of {Q : PUnit → Coordinator σ V → Prop} {sim : Simulator σ V}
    {f : Simulator σ V → Simulator σ V} (hid : c.sims id = some sim) :
    wp (modifySimulator id f) Q E c ↔
      Q ⟨⟩ { c with sims := Function.update c.sims id (some (f sim)) } := by
  unfold modifySimulator
  rw [wp_bind, wp_simulator_of hid]
  rfl

/-- A read of a simulator, as the scheduler sees it. -/
theorem wp_readCore {Q : Simulator σ V → Coordinator σ V → Prop} {core : Core V}
    (hid : (kernel c).cores id = some core) (h : ∀ sim, sim.core = core → Q sim c) :
    wp (simulator id) Q E c := by
  obtain ⟨sim, hsim, rfl⟩ := Option.map_eq_some_iff.mp hid
  exact (wp_simulator_of hsim).mpr (h sim rfl)

/-- A change of a simulator, as the scheduler sees it. -/
theorem wp_modifyCore {Q : PUnit → Coordinator σ V → Prop} {f : Simulator σ V → Simulator σ V}
    {core core' : Core V} (hid : (kernel c).cores id = some core)
    (hf : ∀ sim, sim.core = core → (f sim).core = core')
    (h : ∀ c', kernel c' = (kernel c).put id core' → Q ⟨⟩ c') :
    wp (modifySimulator id f) Q E c := by
  obtain ⟨sim, hsim, rfl⟩ := Option.map_eq_some_iff.mp hid
  exact (wp_modifySimulator_of hsim).mpr (h _ (by rw [kernel_update, hf sim rfl]))

/-- A call is noted. -/
theorem wp_noteCall {Q : PUnit → Coordinator σ V → Prop} {event : Event σ V} (hcall : event.isCall = true)
    (h : ∀ c', kernel c' = { kernel c with calls := (kernel c).calls ++ [event] } → Q ⟨⟩ c') :
    wp (note event) Q E c :=
  (wp_modify _).mpr (h _ (by rw [kernel_note, if_pos hcall]))

theorem wp_modifyTable {Q : PUnit → Coordinator σ V → Prop} {f : Scheduler → Scheduler} :
    wp (modifyTable f) Q E c ↔ Q ⟨⟩ { c with eventTable := f c.eventTable } := Iff.rfl

/-- A change of the scheduler, as the kernel sees it. -/
theorem wp_changeTable {Q : PUnit → Coordinator σ V → Prop} {f : Scheduler → Scheduler}
    (h : ∀ c', kernel c' = { kernel c with table := f (kernel c).table } → Q ⟨⟩ c') :
    wp (modifyTable f) Q E c := h _ rfl

/-- A change of the bag, as the kernel sees it. -/
theorem wp_changeBag {Q : PUnit → Coordinator σ V → Prop} {f : Bag → Bag}
    (h : ∀ c', kernel c' = { kernel c with table :=
      { (kernel c).table with currentBag := f (kernel c).table.currentBag } } → Q ⟨⟩ c') :
    wp (modifyBag f) Q E c := h _ rfl

/-- The trace is no part of the kernel. -/
theorem wp_snapshot {Q : PUnit → Coordinator σ V → Prop} {call : SchedulerCall} {popped : List HeapElement}
    (h : ∀ c', kernel c' = kernel c → Q ⟨⟩ c') : wp (snapshot call popped) Q E c := h _ rfl

theorem wp_dynamicsOf {Q : Dynamics σ V → Coordinator σ V → Prop} (hE : ∀ e, E e c)
    (h : ∀ sim d, c.sims id = some sim → sim.dynamics = some d → Q d c) :
    wp (dynamicsOf id) Q E c := by
  unfold dynamicsOf
  rw [wp_bind]
  refine wp_simulator (hE _) fun sim hsim => ?_
  cases hd : sim.dynamics with
  | none => exact hE _
  | some d => exact h sim d hsim hd

theorem wp_isExecutive {Q : Bool → Coordinator σ V → Prop} (hE : ∀ e, E e c)
    (h : ∀ core b, (kernel c).cores id = some core → core.executive = some b → Q b c) :
    wp (isExecutive id) Q E c := by
  unfold isExecutive
  rw [wp_bind]
  refine wp_dynamicsOf hE fun sim d hsim hd => ?_
  exact h sim.core d.isExecutive (by simp [hsim]) (by simp [Simulator.core, hd])

theorem wp_ofExcept {α : Type} {Q : α → Coordinator σ V → Prop} {r : Except Error α}
    (hE : ∀ e, r = .error e → E e c) (h : ∀ a, r = .ok a → Q a c) : wp (ofExcept r) Q E c :=
  (wp_inspect _).mpr ⟨h, hE⟩

end Simulators

/-! ## What leaves the kernel -/

/-- The program leaves the kernel as it is. -/
abbrev Still {α : Type} (x : CoordM σ V α) : Prop := Fixes kernel x

section Still

variable {α β : Type}

theorem still_simulator (id : SimId) : Still (simulator id : CoordM σ V (Simulator σ V)) :=
  fixes_inspect _

theorem still_dynamicsOf (id : SimId) : Still (dynamicsOf id : CoordM σ V (Dynamics σ V)) := by
  refine fixes_bind (still_simulator id) fun sim => ?_
  cases sim.dynamics with
  | none => exact fixes_throw _
  | some d => exact fixes_pure d

theorem still_readGraph (f : Graph → Except Error α) : Still (readGraph f : CoordM σ V α) :=
  fixes_inspect _

theorem still_ofExcept (r : Except Error α) : Still (ofExcept r : CoordM σ V α) := fixes_inspect _

/-- A change of a simulator that the scheduler does not see. -/
theorem still_modifySimulator (id : SimId) {f : Simulator σ V → Simulator σ V}
    (hf : ∀ sim, (f sim).core = sim.core) : Still (modifySimulator id f) := by
  intro k c hc
  refine wp_modifySimulator hc fun sim hsim => ?_
  rw [kernel_update, hf, Kernel.put_self (by simp [hsim]), hc]

theorem still_note {event : Event σ V} (h : event.isCall = false) : Still (note event) :=
  fixes_modify fun c => by
    rw [kernel_note, h, if_neg (by decide), List.append_nil]

theorem still_snapshot (call : SchedulerCall) (popped : List HeapElement) :
    Still (snapshot call popped : CoordM σ V Unit) := fixes_modify fun _ => rfl

theorem still_onGraph (x : GraphM α) : Still (onGraph x : CoordM σ V α) := by
  intro _ c hc
  unfold wp onGraph
  cases x c.graph <;> exact hc

end Still

/-! ## Graph, caches, views and observations -/

section Functions

variable {id : SimId}

theorem still_runValue (id : SimId) (time : Time) (o : Observation V) :
    Still (View.runValue id time o : CoordM σ V Unit) :=
  fixes_bind (still_simulator id) fun _ => fixes_bind (still_readGraph _) fun _ => still_note rfl

theorem still_flushObservations (id : SimId) (time : Time) :
    Still (flushObservations id time : CoordM σ V Unit) :=
  fixes_bind (still_simulator id) fun _ =>
    fixes_bind (fixes_forM (fun obs => still_runValue id time obs) _) fun _ =>
      still_modifySimulator id fun _ => rfl

theorem still_addObservableToView (model : NodeId) (portname view : String) :
    Still (Coordinator.addObservableToView model portname view : CoordM σ V Unit) := by
  refine fixes_bind (still_readGraph _) fun mdl => ?_
  split
  · refine fixes_bind (still_dynamicsOf _) fun _ => fixes_get_bind fun c => ?_
    cases c.eventViewList.lookup view with
    | some v => rfl
    | none =>
      cases c.timedViewList.lookup view with
      | some v => rfl
      | none => rfl
  · exact fixes_throw _

theorem still_updateSimulatorTargets (id : SimId) (port : String) :
    Still (Simulator.updateSimulatorTargets id port : CoordM σ V Unit) :=
  fixes_bind (still_modifySimulator id fun _ => rfl) fun _ =>
    fixes_bind (still_simulator id) fun _ => fixes_bind (still_readGraph _) fun _ =>
      still_modifySimulator id fun _ => rfl

/-- The read at the end of `targets` leaves everything. -/
theorem fixes_readTargets {τ : Type} (v : Coordinator σ V → τ) (id : SimId) (port : String) : Fixes v (do
    match (← simulator id).equalRange port with
    | (none, _) :: _ => return []
    | x => return x : CoordM σ V (List TargetSimulator)) := by
  refine fixes_bind (fixes_inspect _) fun sim => ?_
  split <;> exact fixes_pure _

theorem still_targets (id : SimId) (port : String) :
    Still (Simulator.targets id port : CoordM σ V (List TargetSimulator)) := by
  refine fixes_bind (still_simulator id) fun sim => ?_
  split_ifs
  · exact fixes_bind (still_updateSimulatorTargets id port) fun _ => fixes_readTargets _ id port
  · exact fixes_readTargets _ id port

theorem still_getSimulatorsSourcePort (model : NodeId) (port : String) :
    Still (Coordinator.getSimulatorsSourcePort model port :
      CoordM σ V (List (Option SimId × String))) := by
  refine fixes_bind fixes_get fun c => ?_
  split_ifs
  · exact fixes_bind (still_readGraph _) fun result =>
      fixes_mapM (fun elem => fixes_bind (still_readGraph _) fun _ => fixes_pure _) _
  · exact fixes_pure _

theorem still_getSimulatorsSource (model : NodeId) :
    Still (Coordinator.getSimulatorsSource model : CoordM σ V (List (Option SimId × String))) := by
  refine fixes_bind fixes_get fun c => ?_
  split_ifs
  · refine fixes_bind (still_readGraph _) fun mdl => ?_
    refine fixes_bind (fixes_mapM (fun input => ?_) _) fun _ => fixes_pure _
    exact still_getSimulatorsSourcePort model input.1
  · exact fixes_pure _

theorem still_updateSimulatorsTarget (lst : List (Option SimId × String)) :
    Still (Coordinator.updateSimulatorsTarget lst : CoordM σ V Unit) := by
  refine fixes_bind fixes_get fun c => ?_
  split_ifs
  · refine fixes_forM (fun elem => ?_) lst
    cases elem.1 with
    | some id => exact still_updateSimulatorTargets id elem.2
    | none => exact fixes_pure _
  · exact fixes_pure _

theorem still_removeSimulatorTargetPort (model : NodeId) (port : String) :
    Still (Coordinator.removeSimulatorTargetPort model port : CoordM σ V Unit) := by
  refine fixes_bind (still_readGraph _) fun o => ?_
  cases o with
  | some id => exact still_modifySimulator id fun _ => rfl
  | none => exact fixes_throw _

theorem still_prepareDynamicDeletion (model : NodeId) :
    Still (Coordinator.prepareDynamicDeletion model : CoordM σ V Unit) := fixes_modify fun _ => rfl

theorem still_observe (id : SimId) (time : Time) (pp : List (String × String)) :
    Still (observe id time pp : CoordM σ V Unit) := by
  refine fixes_forM (fun elem => ?_) pp
  refine fixes_bind (still_dynamicsOf id) fun d => ?_
  refine fixes_bind (still_modifySimulator id fun sim => ?_) fun _ => ?_
  · rfl
  · exact fixes_bind (still_ofExcept _) fun _ => fixes_pure _

theorem still_getName (id : SimId) : Still (Simulator.getName id : CoordM σ V String) :=
  fixes_bind (still_simulator id) fun _ => fixes_bind (still_readGraph _) fun _ => fixes_pure _

theorem setState_core (sim : Simulator σ V) (s : σ) : (sim.setState s).core = sim.core := by
  cases h : sim.dynamics <;> simp [Simulator.core, Simulator.setState, h]

theorem still_setState (id : SimId) (s : σ) : Still (modifySimulator id (·.setState s) : CoordM σ V Unit) :=
  still_modifySimulator id fun sim => setState_core sim s

theorem still_timeAdvance (env : Environment σ V) (id : SimId) :
    Still (Simulator.timeAdvance env id) := by
  refine fixes_bind (still_dynamicsOf id) fun d => fixes_bind (still_ofExcept _) fun tn => ?_
  split_ifs
  · exact fixes_bind (still_getName id) fun _ => fixes_bind (fixes_throw _) fun _ => fixes_pure _
  · exact fixes_pure _

/-- What `addExternal` does with a simulator of the bag. -/
def Scheduler.receive (id : SimId) (values : V) (portname : String) : CoordM σ V Unit := do
  modifySimulator id fun sim =>
    { sim with externalEvents := sim.externalEvents ++ [⟨portname, values⟩] }
  note (.external id ⟨portname, values⟩)
  let sim ← simulator id
  let current := (← get).eventTable.currentTime
  match sim.handle with
  | some handle => if current < sim.tn then eraseHandle id handle
  | none => pure ()
  snapshot (.addExternal id) []

end Functions

/-! ## Commands that create no model -/

section Commands

variable {id : SimId}

theorem still_cpled (id : SimId) : Still (Executive.cpled id : CoordM σ V NodeId) := by
  refine fixes_bind (still_simulator id) fun sim => fixes_bind (still_readGraph _) fun mdl => ?_
  cases mdl.parent with
  | some c => exact fixes_pure c
  | none => exact fixes_throw _

theorem still_coupledmodelName (id : SimId) : Still (Executive.coupledmodelName id : CoordM σ V String) :=
  fixes_bind (still_cpled id) fun _ => fixes_bind (still_readGraph _) fun _ => fixes_pure _

theorem still_findModel (id : SimId) (modelName : String) :
    Still (Executive.findModel id modelName : CoordM σ V NodeId) := by
  refine fixes_bind (still_cpled id) fun c => fixes_bind (still_readGraph _) fun o => ?_
  cases o with
  | some mdl => exact fixes_pure mdl
  | none => exact fixes_throw _

theorem still_command_addObservableToView (id : SimId) (model portname view : String) :
    Still (Executive.addObservableToView id model portname view : CoordM σ V Unit) := by
  refine fixes_bind (still_findModel id model) fun mdl => fixes_bind (still_readGraph _) fun m => ?_
  split_ifs
  · exact fixes_bind (fixes_throw _) fun _ => still_addObservableToView mdl portname view
  · exact still_addObservableToView mdl portname view

theorem still_delModel (id : SimId) (modelname : String) :
    Still (Executive.delModel id modelname : CoordM σ V Unit) :=
  fixes_bind (still_findModel id modelname) fun mdl => still_prepareDynamicDeletion mdl

theorem still_rename (mdl : NodeId) (oldname newname : String) : Still (do
    match ← attempt isException (onGraph (BaseModel.rename mdl newname)) with
    | .ok () => pure ()
    | .error e => throw (Executive.renameFailed oldname newname s!": `{what e}' ") :
      CoordM σ V Unit) := by
  refine fixes_bind (fixes_attempt _ (still_onGraph _)) fun r => ?_
  cases r with
  | ok _ => exact fixes_pure _
  | error e => exact fixes_throw _

theorem still_renameModel (id : SimId) (oldname newname : String) :
    Still (Executive.renameModel id oldname newname : CoordM σ V Unit) := by
  refine fixes_bind (still_cpled id) fun c => fixes_bind (still_readGraph _) fun o => ?_
  cases o with
  | none => exact fixes_throw _
  | some mdl =>
    refine fixes_bind (still_readGraph _) fun b => ?_
    split_ifs
    · exact fixes_bind (fixes_throw _) fun _ => still_rename mdl oldname newname
    · exact still_rename mdl oldname newname

theorem still_endOfConnection (c : NodeId) (modelName name : String) :
    Still (Executive.endOfConnection c modelName name : CoordM σ V (Option NodeId)) := by
  unfold Executive.endOfConnection
  split_ifs
  · exact fixes_pure _
  · exact still_readGraph _

theorem still_addConnection (id : SimId) (srcModelName srcPortName dstModelName dstPortName : String) :
    Still (Executive.addConnection id srcModelName srcPortName dstModelName dstPortName :
      CoordM σ V Unit) := by
  refine fixes_bind (still_coupledmodelName id) fun modelName => fixes_bind (still_cpled id) fun c => ?_
  refine fixes_bind (still_endOfConnection c _ _) fun srcModel => ?_
  refine fixes_bind (still_endOfConnection c _ _) fun dstModel => ?_
  split
  · split_ifs
    · exact fixes_bind (still_onGraph _) fun _ => fixes_bind (still_getSimulatorsSourcePort _ _) fun _ =>
        still_updateSimulatorsTarget _
    · refine fixes_bind (still_onGraph _) fun _ => fixes_bind (still_readGraph _) fun lst => ?_
      refine fixes_bind (fixes_mapM (fun elem => ?_) _) fun sources => ?_
      · exact still_getSimulatorsSourcePort _ _
      · exact still_updateSimulatorsTarget _
    · exact fixes_bind (still_onGraph _) fun _ => fixes_bind (still_getSimulatorsSourcePort _ _) fun _ =>
        still_updateSimulatorsTarget _
  · exact fixes_throw _

theorem still_endOfRemoved (c : NodeId) (modelName name : String) :
    Still (Executive.endOfRemoved c modelName name : CoordM σ V (Option NodeId)) := by
  refine fixes_bind (still_readGraph _) fun o => ?_
  cases o with
  | some mdl => exact fixes_pure _
  | none => exact fixes_pure _

theorem still_removeConnection (id : SimId) (srcModelName srcPortName dstModelName dstPortName : String) :
    Still (Executive.removeConnection id srcModelName srcPortName dstModelName dstPortName :
      CoordM σ V Unit) := by
  refine fixes_bind (still_coupledmodelName id) fun modelName => fixes_bind (still_cpled id) fun c => ?_
  refine fixes_bind (still_endOfRemoved c _ _) fun srcModel => ?_
  refine fixes_bind (still_endOfRemoved c _ _) fun dstModel => ?_
  split
  · split_ifs
    · exact fixes_bind (still_getSimulatorsSourcePort _ _) fun _ => fixes_bind (still_onGraph _) fun _ =>
        fixes_bind (fixes_pure _) fun _ => still_updateSimulatorsTarget _
    · exact fixes_bind (still_onGraph _) fun _ => fixes_bind (fixes_pure _) fun _ =>
        still_updateSimulatorsTarget _
    · exact fixes_bind (still_getSimulatorsSourcePort _ _) fun _ => fixes_bind (still_onGraph _) fun _ =>
        fixes_bind (fixes_pure _) fun _ => still_updateSimulatorsTarget _
  · exact fixes_throw _

theorem still_addInputPort (id : SimId) (modelName portName : String) :
    Still (Executive.addInputPort id modelName portName : CoordM σ V Unit) :=
  fixes_bind (still_findModel id modelName) fun _ => still_onGraph _

theorem still_addOutputPort (id : SimId) (modelName portName : String) :
    Still (Executive.addOutputPort id modelName portName : CoordM σ V Unit) :=
  fixes_bind (still_findModel id modelName) fun _ => still_onGraph _

theorem still_removeInputPort (id : SimId) (modelName portName : String) :
    Still (Executive.removeInputPort id modelName portName : CoordM σ V Unit) :=
  fixes_bind (still_findModel id modelName) fun _ =>
    fixes_bind (still_getSimulatorsSourcePort _ _) fun _ => fixes_bind (still_onGraph _) fun _ =>
      still_updateSimulatorsTarget _

theorem still_removeOutputPort (id : SimId) (modelName portName : String) :
    Still (Executive.removeOutputPort id modelName portName : CoordM σ V Unit) := by
  refine fixes_bind (still_findModel id modelName) fun mdl => fixes_bind (still_readGraph _) fun m => ?_
  split_ifs
  · exact fixes_bind (still_onGraph _) fun _ => still_removeSimulatorTargetPort _ _
  · exact fixes_bind (still_getSimulatorsSourcePort _ _) fun _ => fixes_bind (still_onGraph _) fun _ =>
      still_updateSimulatorsTarget _

end Commands

/-! ## The rest of a step -/

section Coordinator

theorem still_depth (id : SimId) : Still (Coordinator.depth id : CoordM σ V ℤ) :=
  fixes_bind (still_dynamicsOf id) fun _ => fixes_bind (still_simulator id) fun _ => still_readGraph _

theorem still_viewRun (view : String) (time : Time) :
    Still (View.run view time : CoordM σ V Unit) := by
  have hloop : ∀ v : View, Still (v.observableList.lst.forM fun elem => do
      let d ← dynamicsOf elem.1
      let value ← ofExcept (d.observation ⟨time, view, elem.2⟩ d.state)
      let sim ← simulator elem.1
      let _ ← readGraph (·.deref sim.atomicModel)
      note (.observed view time [(elem.1, elem.2, value)]) : CoordM σ V Unit) := by
    refine fun v => fixes_forM (fun elem => ?_) _
    exact fixes_bind (still_dynamicsOf _) fun _ => fixes_bind (still_ofExcept _) fun _ =>
      fixes_bind (still_simulator _) fun _ => fixes_bind (still_readGraph _) fun _ => still_note rfl
  refine fixes_bind fixes_get fun c => ?_
  split
  · exact fixes_throw _
  · split_ifs
    · exact fixes_bind (still_note rfl) fun _ => hloop _
    · exact hloop _

theorem still_finalize (time : Time) : Still (Coordinator.finalize time : CoordM σ V Unit) :=
  fixes_bind fixes_get fun _ => fixes_bind (fixes_forM (fun _ => still_viewRun _ time) _) fun _ =>
    fixes_modify fun _ => rfl

theorem still_delAtomicModel (atom : NodeId) :
    Still (Coordinator.delAtomicModel atom : CoordM σ V SimId) := by
  refine fixes_bind (still_readGraph _) fun o => ?_
  cases o with
  | none => exact fixes_throw _
  | some satom =>
    exact fixes_bind (still_simulator satom) fun _ => fixes_bind (fixes_modify fun _ => rfl) fun _ =>
      fixes_pure _

theorem still_delSimulators (mdl : NodeId) :
    Still (Coordinator.delSimulators mdl : CoordM σ V (List SimId)) :=
  fixes_bind (still_readGraph _) fun _ => fixes_mapM still_delAtomicModel _

theorem still_deleteGraph (elem : NodeId) :
    Still (Coordinator.deleteGraph elem : CoordM σ V (List SimId)) := by
  refine fixes_bind (still_getSimulatorsSource elem) fun toupdate => ?_
  refine fixes_bind (still_readGraph _) fun mdl => fixes_bind (still_delSimulators elem) fun lst => ?_
  split
  · exact fixes_bind (still_onGraph _) fun _ => fixes_bind (still_updateSimulatorsTarget _) fun _ =>
      fixes_pure _
  · exact fixes_bind (still_updateSimulatorsTarget _) fun _ => fixes_pure _

end Coordinator

end Vle.Devs
