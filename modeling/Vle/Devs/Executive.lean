import Vle.Devs.Scheduler

/-!
# Simulators at work, and executives

The functions of `Simulator` call those of the dynamics. A user's function is a script: `runScript`
runs it, and performs the commands of an executive on the structure. A command that creates a model
initializes it, which runs a script again; the fuel of `perform` bounds how deep that goes.
-/

namespace Vle.Devs

open Vle.Lib Vle.Vpz

variable {σ V : Type}

/-- The members of `vpz::View`; `type` is a set of flags. -/
structure VpzView where
  enable : Bool
  type : ℕ
  timestep : ℚ

namespace VpzView

def TIMED : ℕ := 2
def OUTPUT : ℕ := 4
def INTERNAL : ℕ := 8
def EXTERNAL : ℕ := 16
def CONFLUENT : ℕ := 32
def FINISH : ℕ := 64

/-- Whether a flag is set. -/
def has (v : VpzView) (flag : ℕ) : Bool := v.type &&& flag ≠ 0

end VpzView

/-- A class of models, with the graph that it is kept in. -/
structure Class where
  graph : Graph
  node : NodeId

/-- What a name of the dynamics stands for: it builds the user's object for a model, from initial
values. -/
abbrev Dynamic (σ V : Type) := Graph → NodeId → List (String × V) → Except Error (Dynamics σ V)

/-- The members of `ModelFactory`: the dynamics, the classes, and of the experiment the conditions,
the observables, each with the views of its ports, and the views; and the text of the exception that
`attachDynamics` throws for another one. -/
structure ModelFactory (σ V : Type) where
  dynamics : String → Option (Dynamic σ V)
  classes : String → Option Class
  conditions : Conditions V
  observables : String → Option (List (String × List String))
  views : AList fun _ : String => VpzView
  loadingProblem : String → Error → String

/-- What the kernel is given. -/
structure Environment (σ V : Type) extends Platform, ModelFactory σ V

/-- The exceptions that a `catch` catches. -/
def isException : Error → Bool
  | .devsGraph _ | .modelling _ | .internal _ | .arg _ | .dynamics _ => true
  | .destroyed | .null | .outOfFuel => false

/-- Run a program over the graph. -/
def onGraph {α : Type} (x : GraphM α) : CoordM σ V α := fun c =>
  match x c.graph with
  | .ok a g => .ok a { c with graph := g }
  | .error e g => .error e { c with graph := g }

/-- Read the graph. -/
def readGraph {α : Type} (f : Graph → Except Error α) : CoordM σ V α :=
  EState.inspect fun c => f c.graph

/-- Raise an exception, or go on with a value. -/
def ofExcept {α : Type} (r : Except Error α) : CoordM σ V α := EState.inspect fun _ => r

/-! ## Views -/

/-- `View::run` on a value observed before: the plug-in is given the name of the model. -/
def View.runValue (id : SimId) (time : Time) (o : Observation V) : CoordM σ V Unit := do
  let sim ← simulator id
  let _ ← readGraph (·.deref sim.atomicModel)
  note (.value o.view time id o.portname o.value)

/-- Give the observations of a simulator to their views, and clear them. -/
def flushObservations (id : SimId) (time : Time) : CoordM σ V Unit := do
  let sim ← simulator id
  sim.observations.forM fun obs => View.runValue id time obs
  modifySimulator id fun sim => { sim with observations := [] }

/-- `addObservableToView`: an event view of the name is taken before a timed one. -/
def Coordinator.addObservableToView (model : NodeId) (portname view : String) :
    CoordM σ V Unit := do
  let mdl ← readGraph (·.deref model)
  match mdl.kind with
  | .atomic { simulator := some id, .. } =>
    let _ ← dynamicsOf id
    let c ← get
    match c.eventViewList.lookup view with
    | some v => set { c with
        eventViewList := c.eventViewList.insert view ⟨v.observableList.add id portname⟩ }
    | none =>
      match c.timedViewList.lookup view with
      | some v => set { c with
          timedViewList := c.timedViewList.insert view ⟨v.observableList.add id portname⟩ }
      | none => pure ()
  | _ => throw .null

/-! ## Routing cache -/

/-- The simulator of an atomic model, or the null pointer. -/
def getSimulator (g : Graph) (m : NodeId) : Except Error (Option SimId) := do
  match (← g.deref m).kind with
  | .atomic atom => pure atom.simulator
  | .coupled _ => throw .null

namespace Simulator

/-- The cache entries for what an output port leads to. -/
def freshTargets (g : Graph) (m : NodeId) (port : String) :
    Except Error (List (String × TargetSimulator)) := do
  let result ← g.getAtomicModelsTarget m port .empty
  if result.lst.isEmpty then
    return [(port, (none, ""))]
  else
    result.lst.mapM fun elem => do return (port, (← getSimulator g elem.1, elem.2))

def updateSimulatorTargets (id : SimId) (port : String) : CoordM σ V Unit := do
  modifySimulator id fun sim => { sim with targetList := sim.targetList.filter (·.1 ≠ port) }
  let sim ← simulator id
  let fresh ← readGraph fun g => freshTargets g sim.atomicModel port
  modifySimulator id fun sim => { sim with targetList := sim.targetList ++ fresh }

def targets (id : SimId) (port : String) : CoordM σ V (List TargetSimulator) := do
  if ((← simulator id).equalRange port).isEmpty then
    updateSimulatorTargets id port
  match (← simulator id).equalRange port with
  | (none, _) :: _ => return []
  | x => return x

end Simulator

namespace Coordinator

/-- The simulators and the output ports that lead to an input port. -/
def getSimulatorsSourcePort (model : NodeId) (port : String) :
    CoordM σ V (List (Option SimId × String)) := do
  if (← get).isStarted then
    let result ← readGraph fun g => g.getAtomicModelsSource model port .empty
    result.lst.mapM fun elem => do return (← readGraph (getSimulator · elem.1), elem.2)
  else
    return []

/-- The simulators and the output ports that lead to a model. -/
def getSimulatorsSource (model : NodeId) : CoordM σ V (List (Option SimId × String)) := do
  if (← get).isStarted then
    let mdl ← readGraph (·.deref model)
    let lst ← (inOrder mdl.inPortList).mapM fun input => getSimulatorsSourcePort model input.1
    return lst.flatten
  else
    return []

def updateSimulatorsTarget (lst : List (Option SimId × String)) : CoordM σ V Unit := do
  if (← get).isStarted then
    lst.forM fun elem =>
      match elem.1 with
      | some id => Simulator.updateSimulatorTargets id elem.2
      | none => pure ()

def removeSimulatorTargetPort (model : NodeId) (port : String) : CoordM σ V Unit := do
  match ← readGraph (getSimulator · model) with
  | some id => modifySimulator id (·.removeTargetPort port)
  | none => throw .null

def prepareDynamicDeletion (model : NodeId) : CoordM σ V Unit :=
  modify fun c => { c with deleteModel := c.deleteModel ++ [model] }

/-- The constructor of a simulator sets the pointer in its atomic model. -/
def addModel (model : NodeId) : CoordM σ V SimId := do
  let c ← get
  let id := c.nextSim
  set { c with
    sims := Function.update c.sims id (some { atomicModel := model })
    nextSim := id + 1
    simulators := c.simulators ++ [id] }
  onGraph (Graph.modifyModel model fun mdl =>
    match mdl.kind with
    | .atomic atom => { mdl with kind := .atomic { atom with simulator := some id } }
    | .coupled _ => mdl)
  return id

end Coordinator

/-! ## Observers -/

/-- What `DynamicsObserver` does after a function of the dynamics: the ports are observed one after
the other. The observation of the last one stays without value when `observation` throws. -/
def observe (id : SimId) (time : Time) (pp : List (String × String)) : CoordM σ V Unit :=
  pp.forM fun (view, portname) => do
    let d ← dynamicsOf id
    let value := d.observation ⟨time, view, portname⟩ d.state
    modifySimulator id fun sim =>
      { sim with observations := sim.observations ++ [⟨view, portname, value.toOption⟩] }
    let _ ← ofExcept value

namespace ModelFactory

/-- The ports of an observable, with the names of their views. -/
def getObservable (mf : ModelFactory σ V) (observable : String) :
    Except Error (List (String × List String)) :=
  match mf.observables observable with
  | some lst => .ok lst
  | none => .error (.arg s!"Observable {observable} doest not exist")

def getView (mf : ModelFactory σ V) (viewname : String) : Except Error VpzView :=
  match mf.views.lookup viewname with
  | some view => .ok view
  | none => .error (.arg s!"Unknow view '{viewname}'\n")

/-- Whether a model with this observable is observed by an event view. -/
def haveEventView (mf : ModelFactory σ V) (observable : String) : Except Error Bool := do
  if observable = "" then
    return false
  let lst ← mf.getObservable observable
  -- The loops end with the first event view found.
  (lst.flatMap (·.2)).foldlM (fun found viewname => do
    if found then
      return true
    else
      let view ← mf.getView viewname
      return view.enable && !view.has VpzView.TIMED) false

/-- The ports to observe after each function, for the event views that are open. -/
def assignEventView (mf : ModelFactory σ V) (views : AList fun _ : String => View)
    (observable : String) : Except Error Observed := do
  let lst ← mf.getObservable observable
  let found ← (lst.flatMap fun elem => elem.2.map fun viewname => (viewname, elem.1)).mapM
    fun elem => do return (← mf.getView elem.1, elem)
  let ports := found.filter fun (v, viewname, _) =>
    v.type ≠ VpzView.TIMED ∧ (views.lookup viewname).isSome
  let pp := fun flag => (ports.filter fun elem => elem.1.has flag).map (·.2)
  return {
    ppOutput := pp VpzView.OUTPUT
    ppInternal := pp VpzView.INTERNAL
    ppExternal := pp VpzView.EXTERNAL
    ppConfluent := pp VpzView.CONFLUENT
    ppFinish := pp VpzView.FINISH }

/-- `attachDynamics` and `buildNewDynamics`: build the user's object, and an observer around it if an
event view observes it. Any exception becomes one of loading. -/
def attachDynamics (mf : ModelFactory σ V) (dyn : Dynamic σ V) (name : String) (c : Coordinator σ V)
    (model : NodeId) (events : List (String × V)) (observable : String) :
    Except Error (Dynamics σ V × Observed) :=
  let built := do
    let d ← dyn c.graph model events
    if ← mf.haveEventView observable then
      return (d, ← mf.assignEventView c.eventViewList observable)
    else
      return (d, {})
  match built with
  | .ok r => .ok r
  | .error e => .error (if isException e then .modelling (mf.loadingProblem name e) else e)

/-- The initial values that the conditions give; no two for one name. -/
def initValues (cnds : Conditions V) (conditions : List String) :
    Except Error (List (String × V)) :=
  conditions.foldlM (fun values elem => do
    let vl ← cnds elem
    vl.foldlM (fun values elem => do
      if values.any (·.1 = elem.1) then
        throw (.internal s!"Multiples condition with the same init port name '{elem.1}'")
      return values ++ [elem]) values) []

end ModelFactory

section

variable (env : Environment σ V) (perform : SimId → Command V → CoordM σ V (Option NodeId))

/-- Run a function of the dynamics, which leaves a state. The outcome of a command goes to what
follows, as an exception that may be caught too. -/
def runScript {α : Type} (id : SimId) : Script σ V α → CoordM σ V α
  | .done s a => do
    modifySimulator id (·.setState s)
    return a
  | .throw s e => do
    modifySimulator id (·.setState s)
    throw e
  | .call command next => do
    let r ← EState.attempt isException (perform id command)
    runScript id (next r (← get).graph)

namespace Simulator

/-- The name of the atomic model. -/
def getName (id : SimId) : CoordM σ V String := do
  let sim ← simulator id
  return (← readGraph (·.deref sim.atomicModel)).name

def output (id : SimId) (time : Time) : CoordM σ V Unit := do
  let d ← dynamicsOf id
  let result ← ofExcept (d.output time d.state)
  modifySimulator id fun sim => { sim with result := sim.result ++ result }
  note (.output id time result)
  observe id time (← simulator id).observed.ppOutput

def timeAdvance (id : SimId) : CoordM σ V Time := do
  let d ← dynamicsOf id
  let tn ← ofExcept (d.timeAdvance d.state)
  if tn < 0 then
    throw (.modelling s!"Negative time advance in '{← getName id}' ({env.format tn})")
  return tn

def init (id : SimId) (time : Time) : CoordM σ V Time := do
  let d ← dynamicsOf id
  let tn ← runScript perform id (d.init time d.state)
  note (.init id time (← dynamicsOf id).state)
  if tn < 0 then
    throw (.modelling s!"Negative init function in '{← getName id}' ({env.format tn})")
  modifySimulator id fun sim => { sim with tn := tn + time }
  return tn + time

/-- What the three transitions have in common: call the function with the events received, observe,
clear what has been handled, and set the next date. -/
def transition (kind : Transition) (id : SimId) (time : Time) : CoordM σ V Unit := do
  let events := (← simulator id).events kind
  let d ← dynamicsOf id
  runScript perform id (d.transition kind time events)
  note (.transition kind id time events (← dynamicsOf id).state)
  observe id time ((← simulator id).observed.ofTransition kind)
  modifySimulator id (·.clear kind)
  let ta ← timeAdvance env id
  modifySimulator id fun sim => { sim with tn := ta + time }

def internalTransition (id : SimId) (time : Time) : CoordM σ V Unit :=
  transition env perform .internal id time

def externalTransition (id : SimId) (time : Time) : CoordM σ V Unit :=
  transition env perform .external id time

def confluentTransitions (id : SimId) (time : Time) : CoordM σ V Unit :=
  transition env perform .confluent id time

def finish (id : SimId) : CoordM σ V Unit := do
  let d ← dynamicsOf id
  let (s, what) := d.finish d.state
  modifySimulator id (·.setState s)
  note (.finish id)
  match what with
  | some e => throw e
  | none => observe id infinity (← simulator id).observed.ppFinish

end Simulator

namespace Coordinator

def processInit (id : SimId) : CoordM σ V Unit := do
  let c ← get
  let tn ← Simulator.init env perform id c.currentTime
  if !isInfinity tn then
    Scheduler.addInternal id tn

/-- `ModelFactory::createModel`: a simulator for an atomic model, with its dynamics. -/
def createModel (cnds : Conditions V) (model : NodeId) (dynamics : String)
    (conditions : List String) (observable : String) : CoordM σ V Unit := do
  let dyn ← match env.dynamics dynamics with
    | some dyn => pure dyn
    | none => throw (.arg s!"The dynamics {dynamics} does not exist")
  let id ← addModel model
  let events ← ofExcept (ModelFactory.initValues cnds conditions)
  let c ← get
  let (d, observed) ← ofExcept
    (env.attachDynamics dyn dynamics c model events observable)
  modifySimulator id fun sim => { sim with dynamics := some d, observed }
  if observable ≠ "" then
    let lst ← ofExcept (env.getObservable observable)
    lst.forM fun elem => elem.2.forM fun viewname => addObservableToView model elem.1 viewname
  processInit env perform id

/-- A simulator for each atomic model of a list. -/
def createModelList (cnds : Conditions V) (atomicmodellist : List NodeId) : CoordM σ V Unit :=
  atomicmodellist.forM fun elem => do
    match (← readGraph (·.deref elem)).kind with
    | .atomic atom => createModel env perform cnds elem atom.dynamics atom.conditions atom.observables
    | .coupled _ => throw .null

/-- `ModelFactory::createModelFromClass`. -/
def createModelFromClass (classname : String) (parent : NodeId) (modelname : String)
    (cnds : Conditions V) (inputs outputs : List String) : CoordM σ V NodeId := do
  let classe ← match env.classes classname with
    | some classe => pure classe
    | none => throw (.arg s!"Unknow class '{classname}'")
  let mdl ← onGraph (CoupledModel.clone classe.graph (classe.graph.nextId + 1) classe.node)
  inputs.forM fun elem => onGraph (BaseModel.addInputPort mdl elem)
  outputs.forM fun elem => onGraph (BaseModel.addOutputPort mdl elem)
  let atomicmodellist ← readGraph (·.getAtomicModelList mdl)
  onGraph (CoupledModel.addModelAs parent mdl modelname)
  createModelList env perform cnds atomicmodellist
  return mdl

end Coordinator

end

end Vle.Devs
