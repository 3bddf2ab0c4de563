import Vle.Devs.Executive

/-!
# The commands of an executive

The functions of `Executive`, each on the coupled model that the executive is in. A command that
connects or disconnects models changes the graph, then has the simulators that lead to the changed
place compute their targets again. A deletion is only asked for.
-/

namespace Vle.Devs

open Vle.Lib Vle.Vpz

/-- The text of an exception. -/
def what : Error → String
  | .devsGraph text | .modelling text | .internal text | .arg text | .dynamics text => text
  | .destroyed | .null | .outOfFuel => ""

namespace Executive

variable {σ V : Type}

/-- The coupled model that the executive is in. -/
def cpled (id : SimId) : CoordM σ V NodeId := do
  let sim ← simulator id
  match (← readGraph (·.deref sim.atomicModel)).parent with
  | some c => pure c
  | none => throw .null

def coupledmodelName (id : SimId) : CoordM σ V String := do
  let c ← cpled id
  return (← readGraph (·.deref c)).name

def unknownModel (modelName : String) : Error :=
  .devsGraph s!"Executive error: unknown model `{modelName}'"

/-- A submodel, or the exception that most functions throw when there is none. -/
def findModel (id : SimId) (modelName : String) : CoordM σ V NodeId := do
  let c ← cpled id
  match ← readGraph (·.findModel c modelName) with
  | some mdl => pure mdl
  | none => throw (unknownModel modelName)

def addObservableToView (id : SimId) (model portname view : String) : CoordM σ V Unit := do
  let mdl ← findModel id model
  if (← readGraph (·.deref mdl)).isCoupled then
    throw (.devsGraph s!"Executive error: can not add observable to coupled model {model}")
  Coordinator.addObservableToView mdl portname view

def delModel (id : SimId) (modelname : String) : CoordM σ V Unit := do
  let mdl ← findModel id modelname
  Coordinator.prepareDynamicDeletion mdl

/-- The start of the texts of `renameModel`. -/
def renameFailed (oldname newname reason : String) : Error :=
  .devsGraph s!"Executive error: rename `{oldname}' into `{newname}' failed{reason}"

def renameModel (id : SimId) (oldname newname : String) : CoordM σ V Unit := do
  let c ← cpled id
  match ← readGraph (·.findModel c oldname) with
  | none => throw (renameFailed oldname newname s!", `{oldname}' does not exist")
  | some mdl =>
    if ← readGraph (·.exist c newname) then
      throw (renameFailed oldname newname s!", `{newname}' already exists")
    match ← EState.attempt isException (onGraph (BaseModel.rename mdl newname)) with
    | .ok () => pure ()
    | .error e => throw (renameFailed oldname newname s!": `{what e}' ")

/-- The models at the ends of a connection: the coupled model goes by its own name. -/
def endOfConnection (c : NodeId) (modelName name : String) : CoordM σ V (Option NodeId) :=
  if modelName = name then pure (some c) else readGraph (·.findModel c name)

def addConnection (id : SimId) (srcModelName srcPortName dstModelName dstPortName : String) :
    CoordM σ V Unit := do
  let modelName ← coupledmodelName id
  let c ← cpled id
  let srcModel ← endOfConnection c modelName srcModelName
  let dstModel ← endOfConnection c modelName dstModelName
  match srcModel, dstModel with
  | some src, some dst =>
    let toupdate ←
      if modelName = srcModelName then do
        onGraph (CoupledModel.addInputConnection c srcPortName (some dst) dstPortName)
        Coordinator.getSimulatorsSourcePort src srcPortName
      else if modelName = dstModelName then do
        onGraph (CoupledModel.addOutputConnection c (some src) srcPortName dstPortName)
        let lst ← readGraph (·.getAtomicModelsTarget c dstPortName .empty)
        let sources ← lst.lst.mapM fun elem => Coordinator.getSimulatorsSourcePort elem.1 elem.2
        pure sources.flatten
      else do
        onGraph (CoupledModel.addInternalConnection c (some src) srcPortName (some dst) dstPortName)
        Coordinator.getSimulatorsSourcePort dst dstPortName
    Coordinator.updateSimulatorsTarget toupdate
  | _, _ =>
    throw (.devsGraph
      s!"Executive error: cannot add connection (`{srcModelName}', `{srcPortName}') to (`{dstModelName}', `{dstPortName}'")

/-- Here a submodel that has the name of the coupled model comes first. -/
def endOfRemoved (c : NodeId) (modelName name : String) : CoordM σ V (Option NodeId) := do
  match ← readGraph (·.findModel c name) with
  | some mdl => pure (some mdl)
  | none => pure (if name = modelName then some c else none)

def removeConnection (id : SimId) (srcModelName srcPortName dstModelName dstPortName : String) :
    CoordM σ V Unit := do
  let modelName ← coupledmodelName id
  let c ← cpled id
  let srcModel ← endOfRemoved c modelName srcModelName
  let dstModel ← endOfRemoved c modelName dstModelName
  match srcModel, dstModel with
  | some src, some dst =>
    let toupdate ←
      if c = src then do
        let toupdate ← Coordinator.getSimulatorsSourcePort dst dstPortName
        onGraph (CoupledModel.delInputConnection c srcPortName (some dst) dstPortName)
        pure toupdate
      else if c = dst then do
        onGraph (CoupledModel.delOutputConnection c (some src) srcPortName dstPortName)
        pure []
      else do
        let toupdate ← Coordinator.getSimulatorsSourcePort dst dstPortName
        onGraph (CoupledModel.delInternalConnection c (some src) srcPortName (some dst) dstPortName)
        pure toupdate
    Coordinator.updateSimulatorsTarget toupdate
  | _, _ =>
    throw (.devsGraph
      s!"Executive error: cannot remove connection ({srcModelName}, {srcPortName}) to (`{dstModelName}', `{dstPortName}')")

def addInputPort (id : SimId) (modelName portName : String) : CoordM σ V Unit := do
  let mdl ← findModel id modelName
  onGraph (BaseModel.addInputPort mdl portName)

def addOutputPort (id : SimId) (modelName portName : String) : CoordM σ V Unit := do
  let mdl ← findModel id modelName
  onGraph (BaseModel.addOutputPort mdl portName)

def removeInputPort (id : SimId) (modelName portName : String) : CoordM σ V Unit := do
  let mdl ← findModel id modelName
  let toupdate ← Coordinator.getSimulatorsSourcePort mdl portName
  onGraph (BaseModel.delInputPort mdl portName)
  Coordinator.updateSimulatorsTarget toupdate

def removeOutputPort (id : SimId) (modelName portName : String) : CoordM σ V Unit := do
  let mdl ← findModel id modelName
  if (← readGraph (·.deref mdl)).isAtomic then
    onGraph (BaseModel.delOutputPort mdl portName)
    Coordinator.removeSimulatorTargetPort mdl portName
  else
    -- The output port is looked up among the input ports.
    let toupdate ← Coordinator.getSimulatorsSourcePort mdl portName
    onGraph (BaseModel.delOutputPort mdl portName)
    Coordinator.updateSimulatorsTarget toupdate

section

variable (env : Environment σ V) (perform : SimId → Command V → CoordM σ V (Option NodeId))

def createModel (id : SimId) (name : String) (inputs outputs : List String) (dynamics : String)
    (conds : List String) (observable : String) (debug : Bool) (conditions : Conditions V) :
    CoordM σ V NodeId := do
  let c ← cpled id
  let model ← onGraph (CoupledModel.construct name (some c) (.atomic { debug }))
  inputs.forM fun it => onGraph (BaseModel.addInputPort model it)
  outputs.forM fun it => onGraph (BaseModel.addOutputPort model it)
  Coordinator.createModel env perform conditions model dynamics conds observable
  return model

def createModelFromClass (id : SimId) (classname modelname : String) (inputs outputs : List String)
    (conditions : Conditions V) : CoordM σ V NodeId := do
  let c ← cpled id
  Coordinator.createModelFromClass env perform classname c modelname conditions inputs outputs

end

/-- Run a command. The fuel bounds how deep commands create models whose initialization commands. -/
def perform (env : Environment σ V) : ℕ → SimId → Command V → CoordM σ V (Option NodeId)
  | 0, _, _ => throw .outOfFuel
  | fuel + 1, id, command =>
    match command with
    | .look => return none
    | .createModel name inputs outputs dynamics conds observable debug conditions => do
      return some (← createModel env (perform env fuel) id name inputs outputs dynamics conds
        observable debug conditions)
    | .createModelFromClass classname modelname inputs outputs conditions => do
      return some (← createModelFromClass env (perform env fuel) id classname modelname inputs
        outputs conditions)
    | .delModel modelname => do
      delModel id modelname
      return none
    | .renameModel oldname newname => do
      renameModel id oldname newname
      return none
    | .addConnection srcModelName srcPortName dstModelName dstPortName => do
      addConnection id srcModelName srcPortName dstModelName dstPortName
      return none
    | .removeConnection srcModelName srcPortName dstModelName dstPortName => do
      removeConnection id srcModelName srcPortName dstModelName dstPortName
      return none
    | .addInputPort modelName portName => do
      addInputPort id modelName portName
      return none
    | .addOutputPort modelName portName => do
      addOutputPort id modelName portName
      return none
    | .removeInputPort modelName portName => do
      removeInputPort id modelName portName
      return none
    | .removeOutputPort modelName portName => do
      removeOutputPort id modelName portName
      return none
    | .addObservableToView model portname view => do
      addObservableToView id model portname view
      return none

end Executive

end Vle.Devs
