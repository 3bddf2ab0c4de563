import Vle.Lib.Queue
import Vle.Devs.Simulator

/-!
# The scheduler

The objects that the functions of the kernel share are kept in one state, `Coordinator`: the graph of
models, the simulators, the scheduler, the views. A program over it is a `CoordM`. The scheduler keeps
a heap of dated simulators and the current bag. Elements of the heap with equal dates come out in any
order: a `Platform` says which, together with the other choices that the code leaves open.

Two fields are no part of the code. `log` holds the calls of the dynamics, the deliveries of events
and the observations, and `trace` the state of the scheduler after each of its operations.
-/

namespace Vle.Devs

open Vle.Lib Vle.Vpz

/-- A dated simulator, under the handle that the heap gave. -/
structure HeapElement where
  handle : ℕ
  time : Time
  simulator : SimId
  deriving DecidableEq

/-- The simulators to call in a step. -/
structure Bag where
  dynamics : List SimId := []
  executives : List SimId := []
  uniqueSimulators : Finset SimId := ∅

/-- The members of `Scheduler`, and the handle that the heap gives next. -/
structure Scheduler where
  currentBag : Bag := {}
  scheduler : List HeapElement := []
  currentTime : Time := negativeInfinity
  nextHandle : ℕ := 0

/-- The date of the top element of the heap. -/
def Scheduler.getNextTime (s : Scheduler) : Time :=
  (s.scheduler.map (·.time)).foldr min infinity

/-- The members of `ViewEvent`. -/
structure ViewEvent where
  view : String
  time : ℚ
  timestep : ℚ
  deriving DecidableEq

/-- The observables of a view: a multimap from dynamics, each named like its simulator, to ports. -/
structure View where
  observableList : ModelPortList := .empty

/-- The calls of the dynamics, with the states they leave, the deliveries and the observations. -/
inductive Event (σ V : Type) where
  | init (simulator : SimId) (time : Time) (state : σ)
  | bag (time : Time) (simulators : List SimId)
  | output (simulator : SimId) (time : Time) (events : List (ExternalEvent V))
  | external (simulator : SimId) (event : ExternalEvent V)
  | transition (kind : Transition) (simulator : SimId) (time : Time)
      (events : List (ExternalEvent V)) (state : σ)
  | finish (simulator : SimId)
  | value (view : String) (time : Time) (simulator : SimId) (portname : String) (value : Option V)
  | observed (view : String) (time : Time) (values : List (SimId × String × V))

/-- The operations of the scheduler. -/
inductive SchedulerCall where
  | init (time : Time)
  | addInternal (simulator : SimId) (time : Time)
  | addExternal (simulator : SimId)
  | delSimulator (simulator : SimId)
  | makeNextBag
  deriving DecidableEq

/-- An operation of the scheduler, with the elements it popped, and the state it left. -/
structure Snapshot (σ V : Type) where
  call : SchedulerCall
  popped : List HeapElement
  table : Scheduler
  sims : SimId → Option (Simulator σ V)

/-- The members of `Coordinator` and the objects that they refer to. -/
structure Coordinator (σ V : Type) where
  graph : Graph
  sims : SimId → Option (Simulator σ V) := fun _ => none
  nextSim : SimId := 0
  simulators : List SimId := []
  eventTable : Scheduler := {}
  currentTime : Time := 0
  durationTime : Time := 0
  eventViewList : AList fun _ : String => View := ∅
  timedViewList : AList fun _ : String => View := ∅
  timedObservationScheduler : List ViewEvent := []
  deleteModel : List NodeId := []
  isStarted : Bool := false
  parallelize : Bool := false
  log : List (Event σ V) := []
  trace : List (Snapshot σ V) := []

/-- What the code leaves open: which of several equal elements a heap gives first, the order that
`std::sort` gives executives of the same depth, the order in which the threads take the simulators of
a bag (the number tells the calls of a run apart), and how a number is printed. -/
structure Platform where
  pick : List HeapElement → ℕ
  pickView : List ViewEvent → ℕ
  sort : (SimId → ℤ) → List SimId → List SimId
  sort_perm : ∀ depth l, (sort depth l).Perm l
  sort_sorted : ∀ depth l, (sort depth l).Pairwise fun a b => depth a ≤ depth b
  jobs : ℕ → List SimId → List SimId
  jobs_perm : ∀ n l, (jobs n l).Perm l
  format : Time → String

/-- A program of the kernel. -/
abbrev CoordM (σ V α : Type) := EStateM Error (Coordinator σ V) α

section

variable {σ V : Type}

/-- Access to a simulator through a pointer. -/
def simulator (id : SimId) : CoordM σ V (Simulator σ V) :=
  EState.inspect fun c =>
    match c.sims id with
    | some sim => .ok sim
    | none => .error .destroyed

/-- Change a simulator through a pointer. -/
def modifySimulator (id : SimId) (f : Simulator σ V → Simulator σ V) : CoordM σ V Unit := do
  let sim ← simulator id
  modify fun c => { c with sims := Function.update c.sims id (some (f sim)) }

/-- The dynamics of a simulator. -/
def dynamicsOf (id : SimId) : CoordM σ V (Dynamics σ V) := do
  match (← simulator id).dynamics with
  | some d => pure d
  | none => throw .null

def isExecutive (id : SimId) : CoordM σ V Bool := do
  return (← dynamicsOf id).isExecutive

def modifyTable (f : Scheduler → Scheduler) : CoordM σ V Unit :=
  modify fun c => { c with eventTable := f c.eventTable }

def modifyBag (f : Bag → Bag) : CoordM σ V Unit :=
  modifyTable fun s => { s with currentBag := f s.currentBag }

def note (event : Event σ V) : CoordM σ V Unit :=
  modify fun c => { c with log := c.log ++ [event] }

/-- Keep the state of the scheduler in the trace. -/
def snapshot (call : SchedulerCall) (popped : List HeapElement) : CoordM σ V Unit :=
  modify fun c => { c with trace := c.trace ++ [⟨call, popped, c.eventTable, c.sims⟩] }

/-- Erase an element of the heap. -/
def eraseHandle (id : SimId) (handle : ℕ) : CoordM σ V Unit := do
  modifyTable fun s => { s with scheduler := s.scheduler.filter (·.handle ≠ handle) }
  modifySimulator id fun sim => { sim with handle := none }

namespace Scheduler

/-- Add a simulator to the vector of the bag that it belongs to. -/
def push (id : SimId) : CoordM σ V Unit := do
  if ← isExecutive id then
    modifyBag fun bag => { bag with executives := bag.executives ++ [id] }
  else
    modifyBag fun bag => { bag with dynamics := bag.dynamics ++ [id] }

/-- The loops of `init` and `makeNextBag`: the elements of the heap whose dates satisfy the test go to
the bag, which is cleared first. -/
def fillBag (pf : Platform) (test : Time → Bool) : CoordM σ V (List HeapElement) := do
  modifyBag fun _ => {}
  let c ← get
  let heap := c.eventTable.scheduler
  let (popped, rest) := Queue.popWhile (·.time) pf.pick test heap.length heap
  modifyTable fun s => { s with scheduler := rest }
  popped.forM fun e => do
    push e.simulator
    modifyBag fun bag => { bag with uniqueSimulators := insert e.simulator bag.uniqueSimulators }
    modifySimulator e.simulator fun sim => { sim with haveInternal := true, handle := none }
  return popped

def init (pf : Platform) (time : Time) : CoordM σ V Unit := do
  modifyTable fun s => { s with currentTime := time }
  let popped ← fillBag pf (· ≤ time)
  snapshot (.init time) popped

def addInternal (id : SimId) (time : Time) : CoordM σ V Unit := do
  match (← simulator id).handle with
  | some handle =>
    modifyTable fun s => { s with
      scheduler := s.scheduler.map fun e => if e.handle = handle then { e with time } else e }
  | none =>
    let c ← get
    modifyTable fun s => { s with
      scheduler := s.scheduler ++ [⟨s.nextHandle, time, id⟩]
      nextHandle := s.nextHandle + 1 }
    modifySimulator id fun sim => { sim with handle := some c.eventTable.nextHandle }
  snapshot (.addInternal id time) []

def addExternal (id : SimId) (values : V) (portname : String) : CoordM σ V Unit := do
  if id ∉ (← get).eventTable.currentBag.uniqueSimulators then
    modifyBag fun bag => { bag with uniqueSimulators := insert id bag.uniqueSimulators }
    push id
  modifySimulator id fun sim =>
    { sim with externalEvents := sim.externalEvents ++ [⟨portname, values⟩] }
  note (.external id ⟨portname, values⟩)
  -- An event that is not for the current bag is erased.
  let sim ← simulator id
  let current := (← get).eventTable.currentTime
  match sim.handle with
  | some handle => if current < sim.tn then eraseHandle id handle
  | none => pure ()
  snapshot (.addExternal id) []

def delSimulator (id : SimId) : CoordM σ V Unit := do
  if ← isExecutive id then
    modifyBag fun bag => { bag with executives := bag.executives.filter (· ≠ id) }
  else
    modifyBag fun bag => { bag with dynamics := bag.dynamics.filter (· ≠ id) }
  modifyBag fun bag => { bag with uniqueSimulators := bag.uniqueSimulators.erase id }
  match (← simulator id).handle with
  | some handle => eraseHandle id handle
  | none => pure ()
  snapshot (.delSimulator id) []

def makeNextBag (pf : Platform) : CoordM σ V Unit := do
  let time := (← get).eventTable.getNextTime
  modifyTable fun s => { s with currentTime := time }
  let popped ← fillBag pf (· = time)
  snapshot .makeNextBag popped

end Scheduler

end

end Vle.Devs
