import Vle.Devs.Commands
import Vle.Devs.TimedObservation

/-!
# The coordinator

`Coordinator::run` is a step of the simulation, in four parts: the functions of the models of the bag
(`calls`), the timed views that are due before the next bag (`observeTimed`), the deletions that the
executives have asked for (`dynamicDeletion`), and the next bag. An exception of a model ends the run,
but for those of the parallel path, which the worker threads absorb.
-/

namespace Vle.Devs

open Vle.Lib Vle.Vpz TimedObservationScheduler

variable {σ V : Type}

/-- `View::run`: the plug-in is given the value of each observable, or nothing when there is none. -/
def View.run (view : String) (time : Time) : CoordM σ V Unit := do
  match (← get).timedViewList.lookup view with
  | none => throw .destroyed
  | some v =>
    if v.observableList.lst.isEmpty then
      note (.observed view time [])
    v.observableList.lst.forM fun (id, portname) => do
      let d ← dynamicsOf id
      let value ← ofExcept (d.observation ⟨time, view, portname⟩ d.state)
      let sim ← simulator id
      let _ ← readGraph (·.deref sim.atomicModel)
      note (.observed view time [(id, portname, value)])

namespace Coordinator

/-- Minus the number of models above a model. -/
def depthLoop (g : Graph) : ℕ → Option NodeId → Except Error ℤ
  | _, none => pure 0
  | 0, some _ => throw .outOfFuel
  | fuel + 1, some parent => do
    return (← depthLoop g fuel (← g.deref parent).parent) - 1

/-- The depth of the model of a simulator, for the order in which executives are called. -/
def depth (id : SimId) : CoordM σ V ℤ := do
  let _ ← dynamicsOf id
  let sim ← simulator id
  readGraph fun g => do depthLoop g (g.nextId + 1) (← g.deref sim.atomicModel).parent

/-- The events that the output functions gave go to the targets of their ports. -/
def dispatchExternalEvent (simulators : List SimId) : CoordM σ V Unit :=
  simulators.forM fun id => do
    let eventList := (← simulator id).result
    eventList.forM fun elem => do
      let x ← Simulator.targets id elem.portName
      x.forM fun target =>
        match target.1 with
        | some dst => Scheduler.addExternal dst elem.attributes target.2
        | none => throw .null
    modifySimulator id fun sim => { sim with result := [] }

section

variable (env : Environment σ V) (fuel : ℕ)

/-- The transition function that a simulator of the bag is to be called with. -/
def process (id : SimId) (time : Time) : CoordM σ V Unit := do
  let sim ← simulator id
  if sim.haveInternalEvent then
    if !sim.haveExternalEvents then
      Simulator.internalTransition env (Executive.perform env fuel) id time
    else
      Simulator.confluentTransitions env (Executive.perform env fuel) id time
  else
    Simulator.externalTransition env (Executive.perform env fuel) id time

/-- `simulator_process`: an exception is caught, and the outcome is not used. -/
def simulatorProcess (id : SimId) (time : Time) : CoordM σ V Unit := do
  let _ ← EState.attempt isException (process env fuel id time)
  return

/-- The next date of a simulator goes to the scheduler. -/
def schedule (id : SimId) : CoordM σ V Unit := do
  let tn := (← simulator id).tn
  if !isInfinity tn then
    Scheduler.addInternal id tn

/-- The part of `run` that calls the models of the bag. -/
def calls : CoordM σ V Unit := do
  let bag := (← get).eventTable.currentBag
  if bag.dynamics ≠ [] ∨ bag.executives ≠ [] then
    modify fun c => { c with currentTime := c.eventTable.currentTime }
  let time := (← get).currentTime
  note (.bag time (bag.dynamics ++ bag.executives))
  bag.dynamics.forM fun id => Simulator.output id time
  dispatchExternalEvent bag.dynamics
  bag.executives.forM fun id => Simulator.output id time
  dispatchExternalEvent bag.executives
  -- The bag has got those that receive an event.
  let executives := (← get).eventTable.currentBag.executives
  let depths ← executives.mapM fun id => do return (id, ← depth id)
  let sorted := env.sort (fun id => ((depths.find? (·.1 = id)).map (·.2)).getD 0) executives
  modifyBag fun bag => { bag with executives := sorted }
  let c ← get
  let dynamics := c.eventTable.currentBag.dynamics
  if c.parallelize then
    (env.jobs c.trace.length dynamics).forM fun id => simulatorProcess env fuel id time
  else
    dynamics.forM fun id => process env fuel id time
  dynamics.forM schedule
  sorted.forM fun id => process env fuel id time
  sorted.forM schedule
  dynamics.forM fun id => flushObservations id time
  sorted.forM fun id => flushObservations id time

end

section

variable (env : Environment σ V)

/-- An observation that is due: the view is run, and comes again after its timestep. -/
def observeElem (elem : ViewEvent) : CoordM σ V Unit := do
  View.run elem.view (date elem.time)
  modify fun c => { c with
    timedObservationScheduler := c.timedObservationScheduler ++ [elem.update] }

/-- The loop over the observations that are due before a date, so many turns at most. -/
def observeLoop (eatuntil : Time) : ℕ → CoordM σ V Unit
  | 0 => throw .outOfFuel
  | n + 1 => do
    let c ← get
    if haveObservationAtTime env.pickView c.timedObservationScheduler eatuntil then
      let (obs, rest) := getObservationAtTime env.pickView c.timedObservationScheduler eatuntil
      modify fun c => { c with timedObservationScheduler := rest }
      match obs.getLast? with
      | some back =>
        modify fun c => { c with currentTime := date back.time }
        obs.forM observeElem
      | none => pure ()
      observeLoop eatuntil n

/-- The turns that the loop takes at most; up to an infinite date it does not end. -/
def turnsUntil (eatuntil : Time) (obs : List ViewEvent) : ℕ :=
  match eatuntil with
  | none => 1
  | some none => 0
  | some (some q) => turns q obs + 1

/-- `finalize`: a last observation of each view. -/
def finalize (time : Time) : CoordM σ V Unit := do
  let c ← get
  c.timedObservationScheduler.forM fun elem => View.run elem.view time
  modify fun c => { c with timedObservationScheduler := [] }

/-- The part of `run` that observes the timed views that are due before the next bag. -/
def observeTimed : CoordM σ V Unit := do
  let c ← get
  let next := c.eventTable.getNextTime
  if next > c.currentTime then
    let eatuntil := min next c.durationTime
    observeLoop env eatuntil (turnsUntil eatuntil c.timedObservationScheduler)
    if isInfinity next ∨ next > c.durationTime then
      modify fun c => { c with currentTime := c.durationTime }
      finalize c.durationTime

end

/-- `removeObservable`, on each view of a list. -/
def removeObservable (id : SimId) (views : AList fun _ : String => View) :
    AList fun _ : String => View :=
  (inOrder views).foldl (fun views v => views.insert v.1 ⟨v.2.observableList.erase id⟩) views

/-- `delAtomicModel`: no view observes the dynamics of the model any more. -/
def delAtomicModel (atom : NodeId) : CoordM σ V SimId := do
  match ← readGraph (getSimulator · atom) with
  | none => throw .null
  | some satom =>
    let _ ← simulator satom
    modify fun c => { c with
      eventViewList := removeObservable satom c.eventViewList
      timedViewList := removeObservable satom c.timedViewList }
    return satom

/-- `delAtomicModel` and `delCoupledModel`. -/
def delSimulators (mdl : NodeId) : CoordM σ V (List SimId) := do
  let lst ← readGraph (·.getAtomicModelList mdl)
  lst.mapM delAtomicModel

/-- A turn of the first loop of `dynamic_deletion`: the model goes, and its simulators are to go. -/
def deleteGraph (elem : NodeId) : CoordM σ V (List SimId) := do
  let toupdate ← getSimulatorsSource elem
  let parent := (← readGraph (·.deref elem)).parent
  let lst ← delSimulators elem
  match parent with
  | some p => onGraph (CoupledModel.delModel p elem)
  | none => pure ()
  updateSimulatorsTarget toupdate
  return lst

/-- A turn of the second loop of `dynamic_deletion`. -/
def deleteSimulator (elem : SimId) : CoordM σ V Unit := do
  Scheduler.delSimulator elem
  if elem ∈ (← get).simulators then
    Simulator.finish elem
    flushObservations elem (← get).currentTime
    modify fun c => { c with
      simulators := c.simulators.erase elem
      sims := Function.update c.sims elem none }

def dynamicDeletion : CoordM σ V Unit := do
  let lst ← (← get).deleteModel.mapM deleteGraph
  modify fun c => { c with deleteModel := [] }
  lst.flatten.forM deleteSimulator

section

variable (env : Environment σ V) (fuel : ℕ)

def makeNextBag : CoordM σ V Unit := do
  Scheduler.makeNextBag env.toPlatform
  modify fun c => { c with currentTime := c.eventTable.currentTime }

/-- `Coordinator::run`. -/
def run : CoordM σ V Unit := do
  calls env fuel
  observeTimed env
  if (← get).deleteModel ≠ [] then
    dynamicDeletion
  makeNextBag env

/-- `buildViews`, with the plug-ins of the views opened. -/
def buildViews (current : ℚ) : CoordM σ V Unit :=
  (inOrder env.views).forM fun elem =>
    if elem.2.enable then
      if elem.2.type = VpzView.TIMED then
        modify fun c => { c with
          timedViewList := c.timedViewList.insert elem.1 {}
          timedObservationScheduler :=
            c.timedObservationScheduler ++ [⟨elem.1, current, elem.2.timestep⟩] }
      else
        modify fun c => { c with eventViewList := c.eventViewList.insert elem.1 {} }
    else pure ()

/-- `addModels`: a simulator for each atomic model of the hierarchy. -/
def addModels (node : Option NodeId) : CoordM σ V Unit := do
  match node with
  | none => pure ()
  | some mdl =>
    let lst ← readGraph (·.getAtomicModelList mdl)
    createModelList env (Executive.perform env fuel) env.conditions lst

/-- `Coordinator::init`. -/
def init (node : Option NodeId) (current duration : ℚ) : CoordM σ V Unit := do
  modify fun c => { c with currentTime := date current, durationTime := date duration }
  buildViews env current
  addModels env fuel node
  modify fun c => { c with isStarted := true }
  Scheduler.init env.toPlatform (date current)

/-- `Coordinator::finish`, up to the results of the plug-ins. -/
def finish : CoordM σ V Unit := do
  let c ← get
  c.simulators.forM fun elem => do
    Simulator.finish elem
    flushObservations elem (← get).currentTime

/-- `RootCoordinator::run`: whether there was a step to do. -/
def rootRun : CoordM σ V Bool := do
  let c ← get
  if isInfinity c.currentTime ∨ c.durationTime < c.currentTime then
    return false
  run env fuel
  return true

end

end Coordinator

end Vle.Devs
