import Vle.Lib.EState
import Vle.Lib.Search
import Vle.Vpz.ModelPortList
import Mathlib.Data.List.AList

/-!
# The graph of models

Atomic and coupled models live in a heap: a model is named by an identifier, `Graph.model` gives
the object, and an access to a deleted one is the error `destroyed`. A connection is recorded at its
two ends, in the port lists of `BaseModel` and `CoupledModel`; a `Slot` names one of these lists.
The functions that only read take the graph and may fail; the others are programs over it, which
keep the changes made before an exception.
-/

namespace Vle.Vpz

open Vle.Lib

/-- The exceptions, with their texts, and what the language leaves undefined: an access to a deleted
object and one through a null pointer. `outOfFuel` is no outcome of the code. -/
inductive Error where
  | devsGraph (what : String)
  | modelling (what : String)
  | internal (what : String)
  | arg (what : String)
  | dynamics (what : String)
  | destroyed
  | null
  | outOfFuel
  deriving DecidableEq, Repr

/-- The map from port names to connection ends. -/
abbrev ConnectionList := AList fun _ : String => ModelPortList

/-- The map from the names of the submodels to the submodels. -/
abbrev ModelList := AList fun _ : String => NodeId

/-- The entries of a map in the order of the keys, as an iteration meets them. -/
def inOrder {β : Type} (m : AList fun _ : String => β) : List (String × β) :=
  (m.entries.map fun e => (e.1, e.2)).insertionSort fun a b => a.1 ≤ b.1

/-- What stands for the address of a simulator. -/
abbrev SimId := ℕ

/-- The members of `AtomicModel`. -/
structure AtomicModel where
  simulator : Option SimId := none
  conditions : List String := []
  dynamics : String := ""
  observables : String := ""
  debug : Bool := false

/-- The members of `CoupledModel`. -/
structure CoupledModel where
  modelList : ModelList := ∅
  internalInputList : ConnectionList := ∅
  internalOutputList : ConnectionList := ∅

/-- The two classes derived from `BaseModel`. -/
inductive Kind where
  | atomic (atom : AtomicModel)
  | coupled (cpled : CoupledModel)

/-- The members of `BaseModel`, with those of the derived class. -/
structure BaseModel where
  name : String
  parent : Option NodeId
  inPortList : ConnectionList := ∅
  outPortList : ConnectionList := ∅
  x : ℤ := -1
  y : ℤ := -1
  width : ℤ := -1
  height : ℤ := -1
  kind : Kind

/-- The four maps of ports. -/
inductive Side where
  | input
  | output
  | internalInput
  | internalOutput
  deriving DecidableEq, Repr

/-- A port list of a model. -/
structure Slot where
  model : NodeId
  side : Side
  port : String
  deriving DecidableEq, Repr

/-- What a connection end says of the list at the other end: its model and its port. -/
def Slot.entry (s : Slot) : ModelPort := (s.model, s.port)

namespace BaseModel

def isAtomic (m : BaseModel) : Bool :=
  match m.kind with
  | .atomic _ => true
  | .coupled _ => false

def isCoupled (m : BaseModel) : Bool := !m.isAtomic

/-- The submodels; an atomic model has none. -/
def modelList (m : BaseModel) : ModelList :=
  match m.kind with
  | .atomic _ => ∅
  | .coupled c => c.modelList

/-- The port lists of one side; an atomic model has no internal one. -/
def connections (m : BaseModel) : Side → ConnectionList
  | .input => m.inPortList
  | .output => m.outPortList
  | .internalInput =>
    match m.kind with
    | .atomic _ => ∅
    | .coupled c => c.internalInputList
  | .internalOutput =>
    match m.kind with
    | .atomic _ => ∅
    | .coupled c => c.internalOutputList

/-- Replace the port lists of one side. -/
def setConnections (m : BaseModel) (side : Side) (l : ConnectionList) : BaseModel :=
  match side with
  | .input => { m with inPortList := l }
  | .output => { m with outPortList := l }
  | .internalInput =>
    match m.kind with
    | .atomic _ => m
    | .coupled c => { m with kind := .coupled { c with internalInputList := l } }
  | .internalOutput =>
    match m.kind with
    | .atomic _ => m
    | .coupled c => { m with kind := .coupled { c with internalOutputList := l } }

/-- Replace the submodels of a coupled model. -/
def setModelList (m : BaseModel) (l : ModelList) : BaseModel :=
  match m.kind with
  | .atomic _ => m
  | .coupled c => { m with kind := .coupled { c with modelList := l } }

end BaseModel

/-- The heap of the models. -/
structure Graph where
  model : NodeId → Option BaseModel
  nextId : NodeId

/-- A program over the graph. -/
abbrev GraphM (α : Type) := EStateM Error Graph α

namespace Graph

/-- The empty heap. -/
def empty : Graph := ⟨fun _ => none, 0⟩

/-- Write an object. -/
def store (g : Graph) (m : NodeId) (mdl : BaseModel) : Graph :=
  { g with model := Function.update g.model m (some mdl) }

/-- Forget an object. -/
def free (g : Graph) (m : NodeId) : Graph :=
  { g with model := Function.update g.model m none }

/-- Read an object through a pointer to it. -/
def deref (g : Graph) (m : NodeId) : Except Error BaseModel :=
  match g.model m with
  | some mdl => .ok mdl
  | none => .error .destroyed

/-- The port list in a slot, if the model exists and has the port. -/
def portList? (g : Graph) (s : Slot) : Option ModelPortList :=
  (g.model s.model).bind fun mdl => (mdl.connections s.side).lookup s.port

/-- The connection ends recorded in a slot. -/
def entries (g : Graph) (s : Slot) : List ModelPort :=
  ((g.portList? s).getD .empty).lst

/-- The parent of a model. -/
def parent? (g : Graph) (m : NodeId) : Option NodeId :=
  (g.model m).bind (·.parent)

/-- The submodel of a given name. -/
def child? (g : Graph) (c : NodeId) (name : String) : Option NodeId :=
  (g.model c).bind fun mdl => mdl.modelList.lookup name

/-- The text of the exception for a port that a model does not have. -/
def noPort (side : Side) (model port : String) : Error :=
  .devsGraph (match side with
    | .input => s!"Model {model} have no input port {port}"
    | .output => s!"Model {model} have no output port {port}"
    | .internalInput => s!"Coupled model {model} have no input port {port}"
    | .internalOutput => s!"Coupled model {model} have no output port {port}")

/-- The port list in a slot, or the exception of the source's getters. -/
def getPort (g : Graph) (s : Slot) : Except Error ModelPortList := do
  let mdl ← g.deref s.model
  match (mdl.connections s.side).lookup s.port with
  | some l => pure l
  | none => throw (noPort s.side mdl.name s.port)

def getInPort (g : Graph) (m : NodeId) (name : String) : Except Error ModelPortList :=
  g.getPort ⟨m, .input, name⟩

def getOutPort (g : Graph) (m : NodeId) (name : String) : Except Error ModelPortList :=
  g.getPort ⟨m, .output, name⟩

def getInternalInPort (g : Graph) (m : NodeId) (name : String) : Except Error ModelPortList :=
  g.getPort ⟨m, .internalInput, name⟩

def getInternalOutPort (g : Graph) (m : NodeId) (name : String) : Except Error ModelPortList :=
  g.getPort ⟨m, .internalOutput, name⟩

def existInputPort (g : Graph) (m : NodeId) (name : String) : Except Error Bool := do
  return ((← g.deref m).inPortList.lookup name).isSome

def existOutputPort (g : Graph) (m : NodeId) (name : String) : Except Error Bool := do
  return ((← g.deref m).outPortList.lookup name).isSome

/-- The submodel of a given name, or the null pointer. -/
def findModel (g : Graph) (c : NodeId) (name : String) : Except Error (Option NodeId) := do
  return (← g.deref c).modelList.lookup name

/-- Whether there is a submodel of a given name. -/
def exist (g : Graph) (c : NodeId) (name : String) : Except Error Bool := do
  return (← g.findModel c name).isSome

/-! ## Routing

`getAtomicModelsTarget` and `getAtomicModelsSource` keep a stack of port lists, each with the model
that it was read from. An entry is a result when its model is atomic; when its model is the parent
of the source the search goes up, otherwise it goes down. -/

/-- One pass of the loop of `getAtomicModelsSource` over the list `top` of the model `source`. -/
def expandSource (g : Graph) (item : ModelPortList × NodeId) :
    Except Error (List (ModelPort ⊕ (ModelPortList × NodeId))) :=
  let (top, source) := item
  top.lst.mapM fun (mdl, port) => do
    if (← g.deref mdl).isAtomic then
      pure (.inl (mdl, port))
    else if (← g.deref source).parent = some mdl then
      pure (.inr (← g.getInPort mdl port, mdl))
    else
      pure (.inr (← g.getInternalOutPort mdl port, mdl))

/-- One pass of the loop of `getAtomicModelsTarget` over the list `top` of the model `source`. -/
def expandTarget (g : Graph) (item : ModelPortList × NodeId) :
    Except Error (List (ModelPort ⊕ (ModelPortList × NodeId))) :=
  let (top, source) := item
  top.lst.mapM fun (mdl, port) => do
    if (← g.deref mdl).isAtomic then
      pure (.inl (mdl, port))
    else if (← g.deref source).parent = some mdl then
      pure (.inr (← g.getOutPort mdl port, mdl))
    else
      pure (.inr (← g.getInternalInPort mdl port, mdl))

/-- The greatest length of the port lists of a model. -/
def fanOutOf (mdl : BaseModel) : ℕ :=
  ([Side.input, .output, .internalInput, .internalOutput].map fun side =>
    ((mdl.connections side).entries.map fun e => e.2.lst.length).sum).sum

/-- A bound of the length of the port lists. -/
def fanOut (g : Graph) : ℕ :=
  ((List.range g.nextId).map fun m => ((g.model m).map fanOutOf).getD 0).sum

/-- The fuel of the searches: on a tree they visit at most `nextId` levels up, then as many down. -/
def searchFuel (g : Graph) : ℕ := (g.fanOut + 1) ^ (2 * g.nextId + 1) + 1

/-- The atomic models, with their output ports, that lead to the input port `portname` of `m`, added
to `result`. -/
def getAtomicModelsSource (g : Graph) (m : NodeId) (portname : String) (result : ModelPortList) :
    Except Error ModelPortList := do
  let found ← Search.run g.expandSource .outOfFuel g.searchFuel [(← g.getInPort m portname, m)] []
  return found.foldl (fun result e => result.add e.1 e.2) result

/-- The atomic models, with their input ports, that the output port `portname` of `m` leads to,
added to `result`. -/
def getAtomicModelsTarget (g : Graph) (m : NodeId) (portname : String) (result : ModelPortList) :
    Except Error ModelPortList := do
  let found ← Search.run g.expandTarget .outOfFuel g.searchFuel [(← g.getOutPort m portname, m)] []
  return found.foldl (fun result e => result.add e.1 e.2) result

/-- The loop of `getAtomicModelList` over the list of the coupled models still to visit. -/
def atomicModelLoop (g : Graph) : ℕ → List NodeId → List NodeId → Except Error (List NodeId)
  | 0, _, _ => throw .outOfFuel
  | _ + 1, [], list => pure list
  | fuel + 1, m :: coupledModelList, list => do
    let v := inOrder (← g.deref m).modelList
    let models ← v.mapM fun elem => do return (elem.2, (← g.deref elem.2).isAtomic)
    atomicModelLoop g fuel
      (coupledModelList ++ (models.filter fun n => !n.2).map (·.1))
      (list ++ (models.filter (·.2)).map (·.1))

/-- The atomic models at or below a model. On a tree the fuel is enough. -/
def getAtomicModelList (g : Graph) (model : NodeId) : Except Error (List NodeId) := do
  if (← g.deref model).isAtomic then
    return [model]
  else
    atomicModelLoop g (g.nextId + 1) [model] []

/-! ## Changing a model -/

/-- Replace the port list in a slot. -/
def setPort (g : Graph) (s : Slot) (l : ModelPortList) : Graph :=
  match g.model s.model with
  | some mdl => g.store s.model (mdl.setConnections s.side ((mdl.connections s.side).insert s.port l))
  | none => g

/-- Forget the port of a slot. -/
def erasePort (g : Graph) (s : Slot) : Graph :=
  match g.model s.model with
  | some mdl => g.store s.model (mdl.setConnections s.side ((mdl.connections s.side).erase s.port))
  | none => g

/-- Change an object through a pointer to it. -/
def modifyModel (m : NodeId) (f : BaseModel → BaseModel) : GraphM Unit := do
  let mdl ← EState.inspect (·.deref m)
  modify (·.store m (f mdl))

/-- Change the port list in a slot through the reference that a getter returns. -/
def modifyPort (s : Slot) (f : ModelPortList → ModelPortList) : GraphM Unit := do
  let l ← EState.inspect (·.getPort s)
  modify (·.setPort s (f l))

end Graph

/-- The internal side of a coupled model's port. -/
def Side.inner : Side → Side
  | .input => .internalInput
  | .output => .internalOutput
  | side => side

/-- The side at the other end of a connection between siblings. -/
def Side.flip : Side → Side
  | .input => .output
  | .output => .input
  | side => side

namespace BaseModel

open Vle.Vpz.Graph

/-- `addInputPort` and `addOutputPort`: a port of a coupled model also gets an internal list, unless
there is one left of that name. -/
def addPort (side : Side) (m : NodeId) (name : String) : GraphM Unit := do
  let mdl ← EState.inspect (·.deref m)
  if ((mdl.connections side).lookup name).isNone then
    if mdl.isCoupled && ((mdl.connections side.inner).lookup name).isNone then
      modify (·.setPort ⟨m, side.inner, name⟩ .empty)
    modify (·.setPort ⟨m, side, name⟩ .empty)

def addInputPort (m : NodeId) (name : String) : GraphM Unit := addPort .input m name

def addOutputPort (m : NodeId) (name : String) : GraphM Unit := addPort .output m name

/-- `delInputPort` and `delOutputPort`: the other ends forget the model, then the port goes. The
internal list of a coupled model is emptied but stays. -/
def delPort (side : Side) (m : NodeId) (name : String) : GraphM Unit := do
  let lst ← EState.inspect (·.getPort ⟨m, side, name⟩)
  let mdl ← EState.inspect (·.deref m)
  lst.lst.forM fun elem =>
    if mdl.parent ≠ some elem.1 then
      modifyPort ⟨elem.1, side.flip, elem.2⟩ (·.erase m)
    else
      modifyPort ⟨elem.1, side.inner, elem.2⟩ (·.erase m)
  if mdl.isCoupled then
    let intern ← EState.inspect (·.getPort ⟨m, side.inner, name⟩)
    intern.lst.forM fun elem => modifyPort ⟨elem.1, side, elem.2⟩ (·.erase m)
    modifyPort ⟨m, side.inner, name⟩ fun _ => .empty
  modify (·.erasePort ⟨m, side, name⟩)

def delInputPort (m : NodeId) (name : String) : GraphM Unit := delPort .input m name

def delOutputPort (m : NodeId) (name : String) : GraphM Unit := delPort .output m name

/-- `addInPort` and `addOutPort`: the other ends of a port get the model under the name. -/
def addEnds (side : Side) (m : NodeId) (model intern : ModelPortList) (name : String) :
    GraphM Unit := do
  let mdl ← EState.inspect (·.deref m)
  model.lst.forM fun elem =>
    if mdl.parent ≠ some elem.1 then
      modifyPort ⟨elem.1, side.flip, elem.2⟩ (·.add m name)
    else
      modifyPort ⟨elem.1, side.inner, elem.2⟩ (·.add m name)
  if mdl.isCoupled then
    intern.lst.forM fun elem => modifyPort ⟨elem.1, side, elem.2⟩ (·.add m name)

/-- `renameInputPort` and `renameOutputPort`: the port is deleted, and its connections come back under
the new name if no port has it. An internal list that there is of the new name stays as it is. The old
name is that of a port: the iterator is not checked. -/
def renamePort (side : Side) (m : NodeId) (oldName newName : String) : GraphM Unit := do
  let mdl ← EState.inspect (·.deref m)
  match (mdl.connections side).lookup oldName with
  | none => throw .null
  | some connect =>
    let internalConnect ←
      if mdl.isCoupled then EState.inspect (·.getPort ⟨m, side.inner, oldName⟩) else pure .empty
    delPort side m oldName
    let mdl ← EState.inspect (·.deref m)
    if ((mdl.connections side).lookup newName).isNone then
      if mdl.isCoupled && ((mdl.connections side.inner).lookup newName).isNone then
        modify (·.setPort ⟨m, side.inner, newName⟩ internalConnect)
      addEnds side m connect internalConnect newName
      modify (·.setPort ⟨m, side, newName⟩ connect)

def renameInputPort (m : NodeId) (oldName newName : String) : GraphM Unit :=
  renamePort .input m oldName newName

def renameOutputPort (m : NodeId) (oldName newName : String) : GraphM Unit :=
  renamePort .output m oldName newName

end BaseModel

end Vle.Vpz
