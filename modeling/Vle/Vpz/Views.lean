import Vle.Lib.EState
import Vle.Lib.Registry
import Vle.Vpz.Condition

/-!
# Views, outputs and observables

`vpz::Views` holds the views of an experiment, the outputs that they name and the observables that they
are attached to, each class in a map under the names of its records. Their operations erase entries and
add new ones, and throw in between.
-/

namespace Vle.Vpz

open Lib Lib.EState

/-- How an operation on the views fails: with an exception, or by going on from an iterator to an
erased element. -/
inductive ViewFault where
  | thrown (what : String)
  | erasedIterator
  deriving DecidableEq, Repr

variable {D : Type}

/-- `View`, with its type as a mask of the bits of `View::Type`. -/
structure View (D : Type) where
  name : String
  type : ℕ
  output : String
  timestep : D
  enabled : Bool
  data : String
  deriving DecidableEq, Repr

/-- `Output`. -/
structure Output (D : Type) where
  name : String
  plugin : String
  location : String
  package : String
  data : Option (Value D)

/-- `ObservablePort`, with the views attached to it. -/
structure ObservablePort where
  name : String
  list : List String
  deriving DecidableEq, Repr

/-- `Observable`. -/
structure Observable where
  name : String
  list : Registry String ObservablePort ObservablePort.name

/-- The maps of views, outputs and observables. -/
abbrev ViewList (D : Type) := Registry String (View D) View.name
abbrev Outputs (D : Type) := Registry String (Output D) Output.name
abbrev Observables := Registry String Observable Observable.name

/-- `Views`. -/
structure Views (D : Type) where
  list : ViewList D
  outputs : Outputs D
  observables : Observables

/-- Run a program on a part of a state. -/
def onPart {σ τ α ε : Type} (part : σ → τ) (set : σ → τ → σ) (x : EStateM ε τ α) : EStateM ε σ α :=
  fun s =>
    match x (part s) with
    | .ok a t => .ok a (set s t)
    | .error e t => .error e (set s t)

/-! ## Outputs -/

namespace Output

/-- `setStream`. -/
def setStream (o : Output D) (location plugin package : String) : Except ViewFault (Output D) :=
  if plugin = "" then .error (.thrown s!"Output '{o.name}' have not plugin defined")
  else .ok { o with location := location, plugin := plugin, package := package, data := none }

end Output

namespace Outputs

/-- The programs on the outputs. -/
abbrev OutputsM (D : Type) := EStateM ViewFault (Outputs D)

def get (name : String) : OutputsM D (Output D) := inspect fun m =>
  match m.lookup name with
  | some o => .ok o
  | none => .error (.thrown s!"Unknow output '{name}'\n")

def del (name : String) : OutputsM D Unit := modify fun m => m.erase name

def add (o : Output D) : OutputsM D Unit := fun m =>
  match m.lookup o.name with
  | none => .ok () (m.put o)
  | some _ => .error (.thrown s!"An output have already this name '{o.name}'\n") m

def addStream (name location plugin package : String) : OutputsM D Unit := do
  let o ← inspect fun _ => Output.setStream ⟨name, "", "", "", none⟩ location plugin package
  add o

def rename (oldoutputname newoutputname : String) : OutputsM D Unit := do
  let copy ← get oldoutputname
  del oldoutputname
  addStream newoutputname copy.location copy.plugin copy.package

end Outputs

/-! ## Views -/

/-- `View::TIMED`. -/
def View.TIMED : ℕ := 1 <<< 1

/-- What the constructor of `View` throws for a timed view. -/
def View.badTimestep [ToString D] (name : String) (timestep : D) : ViewFault :=
  .thrown s!"Cannont define the View '{name}' with a timestep '{timestep}'"

/-- The constructor of `View`. -/
def View.make [Zero D] [LE D] [DecidableLE D] [ToString D] (name : String) (type : ℕ)
    (output : String) (timestep : D) (enable : Bool) : Except ViewFault (View D) :=
  if type = View.TIMED ∧ timestep ≤ 0 then .error (View.badTimestep name timestep)
  else .ok ⟨name, type, output, timestep, enable, ""⟩

namespace Views

/-- The programs on the views. -/
abbrev ViewsM (D : Type) := EStateM ViewFault (Views D)

/-- A program on the outputs of the views. -/
def withOutputs {α : Type} (x : EStateM ViewFault (Outputs D) α) : ViewsM D α :=
  onPart Views.outputs (fun v m => { v with outputs := m }) x

def get (name : String) : ViewsM D (View D) := inspect fun v =>
  match v.list.lookup name with
  | some x => .ok x
  | none => .error (.thrown s!"Unknow view '{name}'\n")

def del (name : String) : ViewsM D Unit := modify fun v => { v with list := v.list.erase name }

def add (view : View D) : ViewsM D Unit := fun v =>
  match v.list.lookup view.name with
  | none => .ok () { v with list := v.list.put view }
  | some _ => .error (.thrown s!"View '{view.name}' already exist") v

def isUsedOutput (v : Views D) (name : String) : Bool := v.list.any (·.output == name)

section

variable [Zero D] [LE D] [DecidableLE D] [ToString D]

/-- What `addEventView` and `addTimedView` have in common: they are this with the type and the timestep
of a view. -/
def addView (name : String) (type : ℕ) (timestep : D) (output : String) (enable : Bool) :
    ViewsM D Unit := do
  let v ← getThe (Views D)
  if v.isUsedOutput output then
    throw (.thrown s!"Output '{output}' of view '{name}' is already used")
  let x ← inspect fun _ => View.make name type output timestep enable
  add x

def addEventView (name : String) (type : ℕ) (output : String) (enable : Bool := true) :
    ViewsM D Unit :=
  addView name type 0 output enable

def addTimedView (name : String) (timestep : D) (output : String) (enable : Bool := true) :
    ViewsM D Unit :=
  addView name View.TIMED timestep output enable

/-- The `switch` of the operations below, over the type of a copy. -/
def addCopy (copy : View D) (name output : String) : ViewsM D Unit :=
  if copy.type = View.TIMED then addTimedView name copy.timestep output
  else addEventView name copy.type output

/-- `renameOutput`. The first view with the output is erased, and the loop goes on from an iterator to
it. -/
def renameOutput (oldname newname : String) : ViewsM D Unit := do
  let v ← getThe (Views D)
  match v.list.inOrder.find? (·.output == oldname) with
  | none => return ()
  | some x => do
    let copy ← Views.get x.name
    del x.name
    addCopy copy copy.name newname
    throw .erasedIterator

def renameView (oldname newname : String) : ViewsM D Unit := do
  let copy ← Views.get oldname
  withOutputs (Outputs.rename oldname newname)
  del oldname
  addCopy copy newname newname

def copyOutput (outputname copyname : String) : ViewsM D Unit := do
  let o ← withOutputs (Outputs.get outputname)
  withOutputs (Outputs.addStream copyname o.location o.plugin o.package)
  modify fun v => match v.outputs.lookup copyname with
    | some no => { v with outputs := v.outputs.put { no with data := o.data } }
    | none => v

/-- The loop of `copyView` over the numbers of the copies. There are as many turns as it takes to go
through the names of all outputs. -/
def freshOutput (v : Views D) (output : String) : ℕ → ℕ → String
  | 0, number => output ++ "_" ++ toString number
  | turns + 1, number =>
    let copyoutputname := output ++ "_" ++ toString number
    if (v.outputs.lookup copyoutputname).isSome then freshOutput v output turns (number + 1)
    else copyoutputname

def copyView (viewname copyname : String) : ViewsM D Unit := do
  let view ← Views.get viewname
  let v ← getThe (Views D)
  let copyoutputname := v.freshOutput view.output v.outputs.keys.card 1
  copyOutput view.output copyoutputname
  addCopy view copyname copyoutputname

end

end Views

/-! ## Observables -/

namespace Observables

/-- The programs on the observables. -/
abbrev ObservablesM := EStateM ViewFault Observables

def get (name : String) : ObservablesM Observable := inspect fun m =>
  match m.lookup name with
  | some obs => .ok obs
  | none => .error (.thrown s!"Observable {name} does not exist")

def del (name : String) : ObservablesM Unit := modify fun m => m.erase name

def add (obs : Observable) : ObservablesM Unit := fun m =>
  match m.lookup obs.name with
  | none => .ok () (m.put obs)
  | some _ => .error (.thrown s!"Observable {obs.name} already exist") m

/-- `Observable::add` of a port. -/
def addPort (obs : Observable) (port : ObservablePort) : Except ViewFault Observable :=
  match obs.list.lookup port.name with
  | none => .ok { obs with list := obs.list.put port }
  | some _ => .error (.thrown s!"The observable {obs.name} have already a port {port.name}")

def rename (old_name new_name : String) : ObservablesM Unit := do
  let obs ← get old_name
  let new_obs ← inspect fun _ =>
    obs.list.inOrder.foldlM addPort ⟨new_name, Registry.empty⟩
  del old_name
  add new_obs

end Observables

end Vle.Vpz
