import Vle.Vpz.BaseModel

/-!
# Coupled models

The operations of `CoupledModel` on its submodels and connections, and `BaseModel::rename`, which
goes through the parent. Each is called on the coupled model `c`. Models are passed by pointer,
`none` being the null pointer, and the overloads by name look the model up first. `delete` runs the
destructors: that of a coupled model deletes the submodels one after the other.
-/

namespace Vle.Vpz

open Vle.Lib Vle.Vpz.Graph

namespace CoupledModel

/-- The pointer of an argument that must not be null. -/
def nonNull (model : Option NodeId) (what : String) : GraphM NodeId :=
  match model with
  | some m => pure m
  | none => throw (.devsGraph what)

/-! ## Connections -/

def addInputConnection (c : NodeId) (portSrc : String) (dst : Option NodeId) (portDst : String) :
    GraphM Unit := do
  let d ← nonNull dst "Can not add input connection with unknown destination"
  if d = c then
    throw (.devsGraph "Can not add input connection if destination is this coupled model")
  modifyPort ⟨c, .internalInput, portSrc⟩ (·.add d portDst)
  modifyPort ⟨d, .input, portDst⟩ (·.add c portSrc)

def addOutputConnection (c : NodeId) (src : Option NodeId) (portSrc portDst : String) :
    GraphM Unit := do
  let s ← nonNull src "Can not add output connection with unknown origin"
  if s = c then
    throw (.devsGraph "Can not add output connection if source is this coupled model")
  modifyPort ⟨s, .output, portSrc⟩ (·.add c portDst)
  modifyPort ⟨c, .internalOutput, portDst⟩ (·.add s portSrc)

def addInternalConnection (c : NodeId) (src : Option NodeId) (portSrc : String)
    (dst : Option NodeId) (portDst : String) : GraphM Unit := do
  let s ← nonNull src "Cannot add internal connection with unknown origin"
  let d ← nonNull dst "Cannot add internal connection with unknown destination"
  if s = c then
    throw (.devsGraph "Cannot add internal connection if source is this coupled model")
  if d = c then
    throw (.devsGraph "Cannot add internal connection if destination is this coupled model")
  modifyPort ⟨s, .output, portSrc⟩ (·.add d portDst)
  modifyPort ⟨d, .input, portDst⟩ (·.add s portSrc)

def addInputConnectionByName (c : NodeId) (portSrc dst portDst : String) : GraphM Unit := do
  addInputConnection c portSrc (← EState.inspect (·.findModel c dst)) portDst

def addOutputConnectionByName (c : NodeId) (src portSrc portDst : String) : GraphM Unit := do
  addOutputConnection c (← EState.inspect (·.findModel c src)) portSrc portDst

def addInternalConnectionByName (c : NodeId) (src portSrc dst portDst : String) :
    GraphM Unit := do
  let s ← EState.inspect (·.findModel c src)
  let d ← EState.inspect (·.findModel c dst)
  addInternalConnection c s portSrc d portDst

def delInputConnection (c : NodeId) (portSrc : String) (dst : Option NodeId) (portDst : String) :
    GraphM Unit := do
  let d ← nonNull dst "Cannot delete input connection with unknown destination"
  if d = c then
    throw (.devsGraph "Cannot delete input connection if destination is coupled model")
  modifyPort ⟨c, .internalInput, portSrc⟩ (·.remove d portDst)
  modifyPort ⟨d, .input, portDst⟩ (·.remove c portSrc)

def delOutputConnection (c : NodeId) (src : Option NodeId) (portSrc portDst : String) :
    GraphM Unit := do
  let s ← nonNull src "Cannot delete output connection with unknown source"
  if s = c then
    throw (.devsGraph "Cannot delete output connection if source is coupled model")
  modifyPort ⟨s, .output, portSrc⟩ (·.remove c portDst)
  modifyPort ⟨c, .internalOutput, portDst⟩ (·.remove s portSrc)

def delInternalConnection (c : NodeId) (src : Option NodeId) (portSrc : String)
    (dst : Option NodeId) (portDst : String) : GraphM Unit := do
  let s ← nonNull src "Cannot delete internal connection with unknown source"
  if s = c then
    throw (.devsGraph "Cannot delete internal connection if source is coupled model")
  let d ← nonNull dst "Cannot delete internal connection with unknown destination"
  if d = c then
    throw (.devsGraph "Cannot delete internal connection if destination is coupled model")
  modifyPort ⟨s, .output, portSrc⟩ (·.remove d portDst)
  modifyPort ⟨d, .input, portDst⟩ (·.remove s portSrc)

def delInputConnectionByName (c : NodeId) (portSrc dst portDst : String) : GraphM Unit := do
  delInputConnection c portSrc (← EState.inspect (·.findModel c dst)) portDst

def delOutputConnectionByName (c : NodeId) (src portSrc portDst : String) : GraphM Unit := do
  delOutputConnection c (← EState.inspect (·.findModel c src)) portSrc portDst

def delInternalConnectionByName (c : NodeId) (src portSrc dst portDst : String) :
    GraphM Unit := do
  let s ← EState.inspect (·.findModel c src)
  let d ← EState.inspect (·.findModel c dst)
  delInternalConnection c s portSrc d portDst

/-- The four strings of a connection in the list of `setBasicConnections`. -/
structure BasicConnection where
  source : String
  portsource : String
  destination : String
  portdestination : String
  deriving DecidableEq, Repr

/-- The list of `setBasicConnections`, four strings at a time. -/
def basicConnections : List String → List BasicConnection
  | source :: portsource :: destination :: portdestination :: lst =>
    ⟨source, portsource, destination, portdestination⟩ :: basicConnections lst
  | _ => []

/-- Whether an error is a `DevsGraphError`. -/
def isDevsGraphError : Error → Bool
  | .devsGraph _ => true
  | _ => false

/-- The loop of `setBasicConnections`, after the connections `done`: an exception takes these out
again. -/
def setBasicConnectionsLoop (c : NodeId) :
    List BasicConnection → List BasicConnection → GraphM Unit
  | _, [] => pure ()
  | done, it :: lst => do
    let outcome ← EState.attempt isDevsGraphError
      (addInternalConnectionByName c it.source it.portsource it.destination it.portdestination)
    match outcome with
    | .ok () => setBasicConnectionsLoop c (done ++ [it]) lst
    | .error _ =>
      done.forM fun jt =>
        delInternalConnectionByName c jt.source jt.portsource jt.destination jt.portdestination
      throw (.devsGraph
        s!"Cannot displace the connection {it.source} {it.portsource} to {it.destination} {it.portdestination}")

def setBasicConnections (c : NodeId) (lst : List String) : GraphM Unit := do
  if lst.length % 4 ≠ 0 then
    throw (.devsGraph "The basic connections list is malformed.")
  setBasicConnectionsLoop c [] (basicConnections lst)

/-- One pass of the loops of `delAllConnection`, over the port `port` of `m`: each recorded end is
removed where it is recorded a second time, then the list is cleared. -/
def clearPort (c m : NodeId) (side : Side) (port : String) : GraphM Unit := do
  let ins ← EState.inspect (·.getPort ⟨m, side, port⟩)
  ins.lst.forM fun elem =>
    if elem.1 = c then
      modifyPort ⟨c, side.inner, elem.2⟩ (·.remove m port)
    else
      modifyPort ⟨elem.1, side.flip, elem.2⟩ (·.remove m port)
  modifyPort ⟨m, side, port⟩ fun _ => .empty

/-- One of the two loops of `delAllConnection`, over the ports of `m` on one side. -/
def delConnections (c m : NodeId) (side : Side) : GraphM Unit := do
  let mdl ← EState.inspect (·.deref m)
  (inOrder (mdl.connections side)).forM fun it => clearPort c m side it.1

/-- Delete all the connections of the model `m`. -/
def delAllConnection (c m : NodeId) : GraphM Unit := do
  delConnections c m .input
  delConnections c m .output

/-- Delete all the connections of all the submodels. -/
def delAllConnections (c : NodeId) : GraphM Unit := do
  let cpled ← EState.inspect (·.deref c)
  (inOrder cpled.modelList).forM fun it => delAllConnection c it.2

/-! ## Submodels -/

/-- The exception for a name that a submodel already has. -/
def alreadyExists (name cpled : String) : Error :=
  .devsGraph
    s!"Cannot add the model '{name}' into the coupled model '{cpled}' (it already exists)"

def addModel (c m : NodeId) : GraphM Unit := do
  let model ← EState.inspect (·.deref m)
  let cpled ← EState.inspect (·.deref c)
  if (cpled.modelList.lookup model.name).isSome then
    throw (alreadyExists model.name cpled.name)
  modifyModel m fun model => { model with parent := some c }
  modifyModel c fun cpled => cpled.setModelList (cpled.modelList.insert model.name m)

/-- The constructors of `AtomicModel` and `CoupledModel`: a model with a parent is added to it, and
an exception of `addModel` leaves no model. -/
def construct (name : String) (parent : Option NodeId) (kind : Kind) : GraphM NodeId := do
  let g ← get
  set ({ g with nextId := g.nextId + 1 }.store g.nextId { name, parent, kind })
  match parent with
  | some c => EState.onError (·.free g.nextId) (addModel c g.nextId)
  | none => pure ()
  return g.nextId

/-- `addAtomicModel` and `addCoupledModel`: the constructor has already added the model. -/
def addNewModel (c : NodeId) (name : String) (kind : Kind) : GraphM NodeId := do
  let cpled ← EState.inspect (·.deref c)
  if (cpled.modelList.lookup name).isSome then
    throw (alreadyExists name cpled.name)
  let x ← construct name (some c) kind
  modifyModel c fun cpled => cpled.setModelList (cpled.modelList.insert name x)
  return x

def addAtomicModel (c : NodeId) (name : String) : GraphM NodeId :=
  addNewModel c name (.atomic {})

def addCoupledModel (c : NodeId) (name : String) : GraphM NodeId :=
  addNewModel c name (.coupled {})

/-- `delAllModel`, with the destructor to run on a submodel: its connections go, then itself, and
the list forgets it. -/
def delAllModelWith (delete : NodeId → GraphM Unit) (c : NodeId) : GraphM Unit := do
  let cpled ← EState.inspect (·.deref c)
  (inOrder cpled.modelList).forM fun it => do
    delAllConnection c it.2
    delete it.2
    modifyModel c fun cpled => cpled.setModelList (cpled.modelList.erase it.1)
  modifyModel c fun cpled => cpled.setModelList ∅

/-- `delete`: the destructor of a coupled model deletes its submodels. The fuel bounds the depth of
the submodels. -/
def deleteModel : ℕ → NodeId → GraphM Unit
  | 0, _ => throw .outOfFuel
  | fuel + 1, m => do
    let mdl ← EState.inspect (·.deref m)
    if mdl.isCoupled then
      delAllModelWith (deleteModel fuel) m
    modify (·.free m)

def delAllModel (c : NodeId) : GraphM Unit := do
  let g ← get
  delAllModelWith (deleteModel g.nextId) c

def delModel (c m : NodeId) : GraphM Unit := do
  let model ← EState.inspect (·.deref m)
  if (← EState.inspect (·.findModel c model.name)).isSome then
    delAllConnection c m
    modifyModel c fun cpled => cpled.setModelList (cpled.modelList.erase model.name)
    let g ← get
    deleteModel g.nextId m

/-- One of the two loops of `replace`: the ports of the old model on a side go to the new one, with the
ends that are recorded in them. -/
def mergePorts (oldmodel newmodel : NodeId) (side : Side) : GraphM Unit := do
  let old ← EState.inspect (·.deref oldmodel)
  (inOrder (old.connections side)).forM fun it => do
    BaseModel.addPort side newmodel it.1
    modifyPort ⟨newmodel, side, it.1⟩ (·.merge it.2)

def replace (c : NodeId) (oldmodel newmodel : Option NodeId) : GraphM Unit := do
  let o ← nonNull oldmodel "Replace a null model ?"
  let n ← nonNull newmodel "Replace a model by null ?"
  mergePorts o n .input
  mergePorts o n .output
  delModel c o
  addModel c n

def detachModel (c m : NodeId) : GraphM Unit := do
  let model ← EState.inspect (·.deref m)
  let cpled ← EState.inspect (·.deref c)
  match cpled.modelList.lookup model.name with
  | some it =>
    modifyModel it fun it => { it with parent := none }
    modifyModel c fun cpled => cpled.setModelList (cpled.modelList.erase model.name)
  | none =>
    throw (.devsGraph s!"Model {model.name} is not attached to the coupled model {cpled.name}")

def attachModel (c m : NodeId) : GraphM Unit := do
  let model ← EState.inspect (·.deref m)
  if ← EState.inspect (·.exist c model.name) then
    throw (.devsGraph "Cannot attach an already attached model")
  match model.parent with
  | some p => detachModel p m
  | none => pure ()
  modifyModel c fun cpled => cpled.setModelList (cpled.modelList.insert model.name m)
  modifyModel m fun model => { model with parent := some c }

end CoupledModel

/-- `BaseModel::rename`, on a model that is not null. -/
def BaseModel.rename (m : NodeId) (newname : String) : GraphM Unit := do
  let mdl ← EState.inspect (·.deref m)
  match mdl.parent with
  | some p =>
    let parent ← EState.inspect (·.deref p)
    if (parent.modelList.lookup mdl.name).isNone then
      throw (.devsGraph "Cannot rename a model without parent")
    if (parent.modelList.lookup newname).isSome then
      throw (.devsGraph s!"Coupled model {parent.name} already has submodel {newname}")
    modifyModel m fun mdl => { mdl with name := newname }
    modifyModel p fun parent => parent.setModelList (parent.modelList.erase mdl.name)
    CoupledModel.addModel p m
  | none => modifyModel m fun mdl => { mdl with name := newname }

namespace CoupledModel

/-- `addModel` with a new name for the model. -/
def addModelAs (c m : NodeId) (name : String) : GraphM Unit := do
  let cpled ← EState.inspect (·.deref c)
  if (cpled.modelList.lookup name).isSome then
    throw (alreadyExists name cpled.name)
  BaseModel.rename m name
  modifyModel m fun model => { model with parent := some c }
  addModel c m

/-! ## Copies

A class is copied from the graph `g` that it is kept in. -/

/-- `CopyWithoutConnection`: the ports stay, their connections go. -/
def copyWithoutConnection (l : ConnectionList) : ConnectionList :=
  (inOrder l).foldl (fun cnt x => cnt.insert x.1 .empty) l

/-- What the copy constructors make of a model before they copy what is below it. -/
def copyOf (mdl : BaseModel) : BaseModel :=
  { mdl with
    parent := none
    inPortList := copyWithoutConnection mdl.inPortList
    outPortList := copyWithoutConnection mdl.outPortList
    kind := match mdl.kind with
      | .atomic atom => .atomic { atom with simulator := none }
      | .coupled cpled => .coupled { cpled with
          internalInputList := copyWithoutConnection cpled.internalInputList
          internalOutputList := copyWithoutConnection cpled.internalOutputList } }

/-- `copyPort` and `copyInternalPort`: copy the connection ends `src` to a port list, each model
becoming the submodel of `c` of its name, and `parentSrc` becoming `c`. -/
def copyPort (g : Graph) (c : NodeId) (parentSrc : Option NodeId) (src : ModelPortList)
    (dst : Slot) : GraphM Unit :=
  src.lst.forM fun it =>
    if some it.1 = parentSrc then
      modifyPort dst (·.add c it.2)
    else do
      let mdl ← EState.inspect fun _ => g.deref it.1
      match ← EState.inspect (·.findModel c mdl.name) with
      | some dstmodel => modifyPort dst (·.add dstmodel it.2)
      | none => throw .null

/-- `copyConnection` and `copyInternalConnection`: copy the connections of one side of a model. -/
def copyConnection (g : Graph) (c : NodeId) (parentSrc : Option NodeId) (src : ConnectionList)
    (dst : NodeId) (side : Side) : GraphM Unit :=
  (inOrder src).forM fun it => copyPort g c parentSrc it.2 ⟨dst, side, it.1⟩

/-- Copy a model of `g` with what is below it, without a parent. The fuel bounds the depth of the
submodels. -/
def clone (g : Graph) : ℕ → NodeId → GraphM NodeId
  | 0, _ => throw .outOfFuel
  | fuel + 1, m => do
    let mdl ← EState.inspect fun _ => g.deref m
    let h ← get
    let c := h.nextId
    set ({ h with nextId := h.nextId + 1 }.store c (copyOf mdl))
    (inOrder mdl.modelList).forM fun x => do
      let child ← clone g fuel x.2
      modifyModel child fun child => { child with parent := some c }
      modifyModel c fun cpled => cpled.setModelList (cpled.modelList.insert x.1 child)
    copyConnection g c none (mdl.connections .internalInput) c .internalInput
    copyConnection g c none (mdl.connections .internalOutput) c .internalOutput
    (inOrder mdl.modelList).forM fun it => do
      let src ← EState.inspect fun _ => g.deref it.2
      match ← EState.inspect (·.findModel c it.1) with
      | some dst =>
        copyConnection g c (some m) src.inPortList dst .input
        copyConnection g c (some m) src.outPortList dst .output
      | none => throw .null
    return c

end CoupledModel

end Vle.Vpz
