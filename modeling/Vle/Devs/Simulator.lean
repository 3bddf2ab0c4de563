import Mathlib.Data.Rat.Defs
import Mathlib.Algebra.Order.Monoid.Unbundled.WithTop
import Vle.Vpz.CoupledModel

/-!
# Simulators

A simulator runs the dynamics of one atomic model. Dates are exact numbers, with the two infinities.
A `Dynamics` is the user's object: its state and its functions, about which nothing is known. What
such a function does is a `Script`, since that of an executive can command changes of the structure;
the dynamics of other models command nothing, which is a field of the structure.
-/

namespace Vle.Devs

open Vle.Lib Vle.Vpz

/-- The dates, read as exact numbers. -/
abbrev Time := WithBot (WithTop ℚ)

def infinity : Time := ⊤

def negativeInfinity : Time := ⊥

def isInfinity (time : Time) : Bool := time = infinity ∨ time = negativeInfinity

/-- An event on a port. -/
structure ExternalEvent (V : Type) where
  portName : String
  attributes : V
  deriving DecidableEq

/-- What is to be observed: a view and a port. -/
structure ObservationEvent where
  time : Time
  view : String
  portname : String

/-- A value observed for a view; there is none if `observation` threw an exception. -/
structure Observation (V : Type) where
  view : String
  portname : String
  value : Option V

/-- The initial values that the conditions give. -/
abbrev Conditions (V : Type) := String → Except Error (List (String × V))

/-- The functions of `Executive`, on the coupled model that the executive is in, and `look`, which
only reads the structure. -/
inductive Command (V : Type) where
  | look
  | createModel (name : String) (inputs outputs : List String) (dynamics : String)
      (conds : List String) (observable : String) (debug : Bool) (conditions : Conditions V)
  | createModelFromClass (classname modelname : String) (inputs outputs : List String)
      (conditions : Conditions V)
  | delModel (modelname : String)
  | renameModel (oldname newname : String)
  | addConnection (srcModelName srcPortName dstModelName dstPortName : String)
  | removeConnection (srcModelName srcPortName dstModelName dstPortName : String)
  | addInputPort (modelName portName : String)
  | addOutputPort (modelName portName : String)
  | removeInputPort (modelName portName : String)
  | removeOutputPort (modelName portName : String)
  | addObservableToView (model portname view : String)

/-- What a user's function does: it ends with a new state and a result, or with an exception, after
any commands. It sees the outcome of each and the structure after it, and may catch an exception. -/
inductive Script (σ V α : Type) where
  | done (state : σ) (result : α)
  | throw (state : σ) (what : Error)
  | call (command : Command V) (next : Except Error (Option NodeId) → Graph → Script σ V α)

namespace Script

variable {σ V α : Type}

/-- The script commands nothing. -/
def Plain : Script σ V α → Prop
  | done _ _ | throw _ _ => True
  | call _ _ => False

/-- The script ends without exception and commands nothing. -/
def Quiet : Script σ V α → Prop
  | done _ _ => True
  | throw _ _ | call _ _ => False

/-- The state that a script without command leaves. -/
def state (s₀ : σ) : Script σ V α → σ
  | done s _ | throw s _ => s
  | call _ _ => s₀

/-- The exception that a script without command ends with. -/
def exception : Script σ V α → Option Error
  | throw _ e => some e
  | done _ _ | call _ _ => none

theorem Quiet.plain {s : Script σ V α} (h : s.Quiet) : s.Plain := by
  cases s with
  | done _ _ | throw _ _ => trivial
  | call _ _ => exact h

end Script

/-- The transition functions. -/
inductive Transition where
  | internal
  | external
  | confluent
  deriving DecidableEq, Repr

/-- The user's object. `finish` gives the state it leaves, and the exception it throws if it does. -/
structure Dynamics (σ V : Type) where
  state : σ
  isExecutive : Bool
  init : Time → σ → Script σ V Time
  output : Time → σ → Except Error (List (ExternalEvent V))
  timeAdvance : σ → Except Error Time
  internalTransition : Time → σ → Script σ V Unit
  externalTransition : List (ExternalEvent V) → Time → σ → Script σ V Unit
  confluentTransitions : Time → List (ExternalEvent V) → σ → Script σ V Unit
  finish : σ → σ × Option Error
  observation : ObservationEvent → σ → Except Error V
  plain : isExecutive = false → ∀ t s, (init t s).Plain ∧ (internalTransition t s).Plain ∧
    ∀ l, (externalTransition l t s).Plain ∧ (confluentTransitions t l s).Plain

/-- What a transition does, for the events received. -/
def Dynamics.transition {σ V : Type} (d : Dynamics σ V) (kind : Transition) (time : Time)
    (events : List (ExternalEvent V)) : Script σ V Unit :=
  match kind with
  | .internal => d.internalTransition time d.state
  | .external => d.externalTransition events time d.state
  | .confluent => d.confluentTransitions time events d.state

/-- The ports that `DynamicsObserver` observes after each function, with their event views. -/
structure Observed where
  ppOutput : List (String × String) := []
  ppInternal : List (String × String) := []
  ppExternal : List (String × String) := []
  ppConfluent : List (String × String) := []
  ppFinish : List (String × String) := []

/-- The ports observed after a transition. -/
def Observed.ofTransition (o : Observed) : Transition → List (String × String)
  | .internal => o.ppInternal
  | .external => o.ppExternal
  | .confluent => o.ppConfluent

/-- A cached target: a simulator, or the null pointer, and its input port. -/
abbrev TargetSimulator := Option SimId × String

/-- The members of `Simulator`. The multimap `targetList` keeps the entries of a port in the order of
their insertion, and `handle` is the handle in the scheduler, if there is one. -/
structure Simulator (σ V : Type) where
  atomicModel : NodeId
  dynamics : Option (Dynamics σ V) := none
  observed : Observed := {}
  targetList : List (String × TargetSimulator) := []
  externalEvents : List (ExternalEvent V) := []
  result : List (ExternalEvent V) := []
  observations : List (Observation V) := []
  tn : Time := negativeInfinity
  handle : Option ℕ := none
  haveInternal : Bool := false

namespace Simulator

variable {σ V : Type}

def haveHandle (sim : Simulator σ V) : Bool := sim.handle.isSome

def haveInternalEvent (sim : Simulator σ V) : Bool := sim.haveInternal

def haveExternalEvents (sim : Simulator σ V) : Bool := !sim.externalEvents.isEmpty

def getTn (sim : Simulator σ V) : Time := sim.tn

/-- The entries of a port in the multimap. -/
def equalRange (sim : Simulator σ V) (port : String) : List TargetSimulator :=
  (sim.targetList.filter (·.1 = port)).map (·.2)

/-- The events that a transition is given. -/
def events (sim : Simulator σ V) : Transition → List (ExternalEvent V)
  | .internal => []
  | .external | .confluent => sim.externalEvents

/-- What a transition clears: the events it was given, and the flag of an internal event. -/
def clear (sim : Simulator σ V) : Transition → Simulator σ V
  | .internal => { sim with haveInternal := false }
  | .external => { sim with externalEvents := [] }
  | .confluent => { sim with externalEvents := [], haveInternal := false }

/-- Change the state of the dynamics. -/
def setState (sim : Simulator σ V) (s : σ) : Simulator σ V :=
  { sim with dynamics := sim.dynamics.map fun d => { d with state := s } }

/-- Forget the first entry of a port. -/
def removeTargetPort (sim : Simulator σ V) (port : String) : Simulator σ V :=
  { sim with targetList := sim.targetList.eraseP (·.1 = port) }

end Simulator

end Vle.Devs
