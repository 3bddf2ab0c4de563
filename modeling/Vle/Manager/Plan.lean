import Vle.Value.Value
import Vle.Vpz.Condition

/-!
# Reading an experiment plan

The init structure of a plan gives the inputs, the replicates and the outputs by the names of its
keys. `Plan.prepare` is what `runPlan` does before the first simulation: it reads the plan into
`ManagerObjects` and changes the conditions of the embedded model. A plan is refused through the error
structure, whose code is then not zero.
-/

namespace Vle.Manager

open Vpz

variable {D : Type}

/-- `manager::Error`. -/
structure Error where
  code : ℤ := 0
  message : String := ""
  deriving DecidableEq, Repr

/-- How the manager stops before its end: it fills the error structure, or something escapes. -/
inductive Halt where
  | reported (err : Error)
  | escaped (fault : Fault)
  deriving DecidableEq, Repr

/-- A fault that nothing catches. -/
def escape {α : Type} : Except Fault α → Except Halt α :=
  Except.mapError .escaped

/-- A fault inside a `try`, whose handler puts the text of an exception after `context`. -/
def catching {α : Type} (context : String) : Except Fault α → Except Halt α :=
  Except.mapError fun
    | .thrown what => .reported { code := -1, message := context ++ what }
    | fault => .escaped fault

/-- `utils::tokenize`. -/
def tokenize (str delim : String) (trimEmpty : Bool) : List String :=
  ((str.toList.splitOnP (· ∈ delim.toList)).map String.ofList).filter
    fun tok => !(trimEmpty && tok.isEmpty)

/-- `Manager::parseInput`: the condition and the port that a key names. -/
def parseInput (conf : String) (before : String := "input_") : Option (String × String) :=
  if before.toList.isPrefixOf conf.toList then
    match tokenize (String.ofList (conf.toList.drop before.toList.length)) "." false with
    | [cond, port] => if cond.isEmpty || port.isEmpty then none else some (cond, port)
    | _ => none
  else
    none

/-- `Manager::parseOutput`. -/
def parseOutput (conf : String) : Option String :=
  if "output_".toList.isPrefixOf conf.toList then
    let idout := String.ofList (conf.toList.drop "output_".toList.length)
    if idout.isEmpty then none else some idout
  else
    none

structure ManDefine where
  cond : String
  port : String
  toAdd : Bool

structure ManPropagate where
  cond : String
  port : String

/-- The members of `ManInput`, which are those of `ManReplicate`; `mvalues` is for a distribution. -/
structure ManInput (D : Type) where
  cond : String
  port : String
  nbValues : ℕ
  mvalues : Option (List D) := none

abbrev ManReplicate := ManInput

/-- `getName`, which the four classes have. -/
def getName (cond port : String) : String := cond ++ "." ++ port

/-- The key of a plan, which `runPlan` gets as a map. -/
abbrev Init (D : Type) := AList fun _ : String => Value D

/-- `wrapper_init::get` of a key of the map. -/
def Init.get (init : Init D) (key : String) : Except Fault (Value D) :=
  match init.lookup key with
  | some v => .ok v
  | none => .error (.thrown s!"Map: the key '{key}' does not exist")

def ManPropagate.value (p : ManPropagate) (init : Init D) : Except Fault (Value D) :=
  init.get ("propagate_" ++ getName p.cond p.port)

/-- The values of an input or of a replicate, by the word its key starts with. -/
def valuesAt (before : String) (m : ManInput D) (init : Init D) : Except Fault (Value D) :=
  match m.mvalues with
  | some t => .ok (.tuple t)
  | none => init.get (before ++ getName m.cond m.port)

def ManInput.values (m : ManInput D) (init : Init D) : Except Fault (Value D) :=
  valuesAt "input_" m init

def ManReplicate.values (m : ManReplicate D) (init : Init D) : Except Fault (Value D) :=
  valuesAt "replicate_" m init

/-- The generator of random numbers of the manager. -/
structure Rand (D : Type) where
  State : Type
  getDouble : D → D → State → D × State

/-- So many draws, one after the other. -/
def Rand.draw (rn : Rand D) (min max : D) : ℕ → rn.State → List D × rn.State
  | 0, s => ([], s)
  | n + 1, s =>
    let (d, s) := rn.getDouble min max s
    let (ds, s) := rn.draw min max n s
    (d :: ds, s)

/-- The number of draws and the bounds that a map gives as a uniform distribution, if it does. -/
def uniform (distrib : List (String × Option (Value D))) :
    Except Fault (Option (ℤ × D × D)) := do
  if !Value.mapExist distrib "distribution" then
    return none
  let .string name ← Value.mapGet distrib "distribution" >>= Value.deref | return none
  if name ≠ "uniform" then
    return none
  if !(Value.mapExist distrib "nb" && Value.mapExist distrib "min" &&
      Value.mapExist distrib "max") then
    return none
  let .integer nb ← Value.mapGet distrib "nb" >>= Value.deref | return none
  let .double min ← Value.mapGet distrib "min" >>= Value.deref | return none
  let .double max ← Value.mapGet distrib "max" >>= Value.deref | return none
  return some (nb, min, max)

/-- `valuesFromDistrib`. A negative size is too large for the vector of a `Tuple`. -/
def valuesFromDistrib (rn : Rand D) (distrib : List (String × Option (Value D))) (s : rn.State) :
    Except Fault (Option (List D) × rn.State) := do
  match ← uniform distrib with
  | none => return (none, s)
  | some (nb, min, max) =>
    if nb < 0 then
      throw (.thrown "cannot create std::vector larger than max_size()")
    let (ds, s) := rn.draw min max nb.toNat s
    return (some ds, s)

/-- A size that is put in an `unsigned int`. -/
def toUnsigned (n : ℕ) : ℕ := n % 2 ^ 32

/-- The constructor of `ManInput`. -/
def ManInput.make (rn : Rand D) (cond port : String) (val : Value D) (s : rn.State) :
    Except Fault (ManInput D × rn.State) := do
  if cond.isEmpty || port.isEmpty then
    throw (.thrown s!"[Manager] : the input has wrong form: '{cond}.{port}'")
  match val with
  | .tuple t => return ({ cond, port, nbValues := toUnsigned t.length }, s)
  | .set l => return ({ cond, port, nbValues := toUnsigned l.length }, s)
  | .map m =>
    match ← valuesFromDistrib rn m s with
    | (some t, s) => return ({ cond, port, nbValues := toUnsigned t.length, mvalues := some t }, s)
    | (none, s) => return ({ cond, port, nbValues := 1 }, s)
  | _ => return ({ cond, port, nbValues := 1 }, s)

/-- The constructor of `ManReplicate`, which refuses a single value. -/
def ManReplicate.make (rn : Rand D) (cond port : String) (val : Value D) (s : rn.State) :
    Except Fault (ManReplicate D × rn.State) := do
  let refused : Fault := .thrown (s!"[Manager] : error in configuration of " ++
    s!"'replicate_{cond}.{port}', expect a value::Set or Tuple")
  if cond.isEmpty || port.isEmpty then
    throw (.thrown s!"[Manager] : the replicate has wrong form: '{cond}.{port}'")
  match val with
  | .tuple t => return ({ cond, port, nbValues := toUnsigned t.length }, s)
  | .set l => return ({ cond, port, nbValues := toUnsigned l.length }, s)
  | .map m =>
    match ← valuesFromDistrib rn m s with
    | (some t, s) => return ({ cond, port, nbValues := toUnsigned t.length, mvalues := some t }, s)
    | (none, _) => throw refused
  | _ => throw refused

/-- The constructor of `ManDefine`. -/
def ManDefine.make (cond port : String) (val : Value D) : Except Fault ManDefine :=
  match val with
  | .boolean b => .ok { cond, port, toAdd := b }
  | _ => .error (.thrown s!"[Manager] : the define_X has wrong form: '{cond}.{port}'")

/-- The constructor of `ManPropagate`. -/
def ManPropagate.make (cond port : String) : Except Fault ManPropagate :=
  if cond.isEmpty || port.isEmpty then
    .error (.thrown s!"[Manager] : the propagate input has wrong form: '{cond}.{port}'")
  else
    .ok { cond, port }

/-- `ManagerObjects`, over the type of the outputs. -/
structure ManagerObjects (D O : Type) where
  mDefine : List ManDefine := []
  mPropagate : List ManPropagate := []
  mInputs : List (ManInput D) := []
  mReplicates : List (ManReplicate D) := []
  mOutputs : List O := []

namespace ManagerObjects

variable {O : Type}

def inputsSize (o : ManagerObjects D O) : ℕ :=
  match o.mInputs with
  | [] => 1
  | m :: _ => m.nbValues

def replicasSize (o : ManagerObjects D O) : ℕ :=
  match o.mReplicates with
  | [] => 1
  | m :: _ => m.nbValues

end ManagerObjects

/-- A plan, with what `runPlan` finds around it: the conditions of the embedded model, what
`config_views` says of its views, the number of slots, which is one without parallelization, the
random numbers, and the constructor and the identifier of the outputs. -/
structure Plan (D : Type) where
  init : Init D
  conditions : Conditions D
  views : Error := {}
  slots : ℕ
  slots_pos : 1 ≤ slots
  slots_lt : slots < 2 ^ 32
  rand : Rand D
  seed : rand.State
  Output : Type
  manOutput : String → Value D → Except Fault Output
  getId : Output → String

namespace Plan

/-- One turn of the loop of `init_from_plan`. -/
def addEntry (P : Plan D) (acc : ManagerObjects D P.Output × P.rand.State)
    (entry : String × Value D) : Except Fault (ManagerObjects D P.Output × P.rand.State) := do
  let (o, s) := acc
  let (conf, val) := entry
  if let some (cond, port) := parseInput conf "define_" then
    let d ← ManDefine.make cond port val
    return ({ o with mDefine := o.mDefine ++ [d] }, s)
  if let some (cond, port) := parseInput conf "propagate_" then
    let p ← ManPropagate.make cond port
    return ({ o with mPropagate := o.mPropagate ++ [p] }, s)
  if let some (cond, port) := parseInput conf then
    let (m, s) ← ManInput.make P.rand cond port val s
    return ({ o with mInputs := o.mInputs ++ [m] }, s)
  if let some (cond, port) := parseInput conf "replicate_" then
    let (m, s) ← ManReplicate.make P.rand cond port val s
    return ({ o with mReplicates := o.mReplicates ++ [m] }, s)
  if let some id := parseOutput conf then
    let out ← P.manOutput id val
    return ({ o with mOutputs := o.mOutputs ++ [out] }, s)
  return (o, s)

/-- The entries of the init structure, in the order of its iteration. -/
def entries (P : Plan D) : List (String × Value D) := P.init.entries.map fun e => (e.1, e.2)

/-- `init_from_plan`. The replicates are not sorted. -/
def initFromPlan (P : Plan D) : Except Halt (ManagerObjects D P.Output) := do
  let (o, _) ← catching "[Manager] " (P.entries.foldlM P.addEntry ({}, P.seed))
  return { o with
    mDefine := o.mDefine.insertionSort fun a b => getName a.cond a.port ≤ getName b.cond b.port
    mPropagate :=
      o.mPropagate.insertionSort fun a b => getName a.cond a.port ≤ getName b.cond b.port
    mInputs := o.mInputs.insertionSort fun a b => getName a.cond a.port ≤ getName b.cond b.port
    mOutputs := o.mOutputs.insertionSort fun a b => P.getId a ≤ P.getId b }

/-- `post_define`. -/
def postDefine (defines : List ManDefine) (conds : Conditions D) : Except Halt (Conditions D) :=
  catching "[Manager] error in 'define' settings: " <| defines.foldlM (fun conds d =>
    conds.modify d.cond fun cond =>
      if cond.exist d.port then
        if d.toAdd then cond else cond.del d.port
      else
        if d.toAdd then cond.add d.port else cond) conds

/-- `post_propagates`. -/
def postPropagates (propagates : List ManPropagate) (init : Init D) (conds : Conditions D) :
    Except Halt (Conditions D) :=
  catching "[Manager] error in 'propagate' settings: " <| propagates.foldlM (fun conds p => do
    discard <| conds.get p.cond
    let exp ← p.value init
    conds.modify p.cond (·.setValueToPort p.port exp)) conds

/-- What `runPlan` does before the first simulation: `init_from_plan` and `init_embedded_model`. -/
def prepare (P : Plan D) : Except Halt (ManagerObjects D P.Output × Conditions D) := do
  let o ← P.initFromPlan
  if P.views.code ≠ 0 then
    throw (.reported P.views)
  let conds ← postDefine o.mDefine P.conditions
  let conds ← postPropagates o.mPropagate P.init conds
  return (o, conds)

end Plan

end Vle.Manager
