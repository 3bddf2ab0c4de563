import Vle.Manager.Plan
import Mathlib.Logic.Relation
import Mathlib.Order.WellFounded

/-!
# The workers of a plan

`runPlan` runs one `thread_worker` in the calling thread, or one in each of several threads. A worker
takes every `slots`-th number below the number of simulations, sets the values of the inputs and of
the replicates in a copy of the model, simulates it, and inserts the result in the outputs while it
holds the mutex. `System.step` is the part of a worker up to the mutex, or the one that holds it. The
simulations and the insertions are those of an `Env`.

`Plan.Completes` says what `runPlan` is for.
-/

namespace Vle.Manager

open Vpz

variable {D : Type}

/-- What a worker takes of the values of a variable, which is one of `size` values. -/
def pick (exp : Value D) (size index : ℕ) : Except Halt (Value D) :=
  match exp with
  | .set s => escape (Value.setGet s index >>= Value.deref)
  | .tuple t => escape (Value.double <$> Value.tupleAt t index)
  | exp =>
    if size = 1 then .ok exp
    else .error (.reported { code := -1, message := "[Manager] error thread" })

/-- Set the values of some variables, the inputs or the replicates, one after the other. -/
def post (values : ManInput D → Except Fault (Value D)) (size index : ℕ) :
    List (ManInput D) → Conditions D → Except Halt (Conditions D)
  | [], conds => .ok conds
  | m :: vars, conds => do
    let exp ← escape (values m)
    let value ← pick exp size index
    let conds ← escape (conds.modify m.cond (·.setValueToPort m.port value))
    post values size index vars conds

/-- A plan that has been prepared. -/
structure Batch (D : Type) where
  init : Init D
  mInputs : List (ManInput D)
  mReplicates : List (ManReplicate D)
  model : Conditions D
  slots : ℕ

namespace Batch

/-- `N` of a worker. -/
def inputsSize (B : Batch D) : ℕ :=
  ({ mInputs := B.mInputs, mReplicates := B.mReplicates } : ManagerObjects D Unit).inputsSize

/-- `M` of a worker. -/
def replicasSize (B : Batch D) : ℕ :=
  ({ mInputs := B.mInputs, mReplicates := B.mReplicates } : ManagerObjects D Unit).replicasSize

/-- The bound of the loop of a worker, a product of `unsigned int`. -/
def bound (B : Batch D) : ℕ := B.replicasSize * B.inputsSize % 2 ^ 32

/-- The conditions of the simulation of a number. -/
def settings (B : Batch D) (i : ℕ) : Except Halt (Conditions D) := do
  let conds ← post (·.values B.init) B.inputsSize (i / B.replicasSize) B.mInputs B.model
  post (ManReplicate.values · B.init) B.replicasSize (i % B.replicasSize) B.mReplicates conds

end Batch

/-- What the workers call: the simulator, which fills an error structure, and the insertion in the
outputs of what it gives for an input; the insertion gets the sizes of the plan and may throw. -/
structure Env (D : Type) where
  View : Type
  simulate : Conditions D → Error × View
  Outputs : Type
  outputs : Outputs
  insertReplicate : Outputs → View → (currInput nbInputs nbReplicates : ℕ) → Except Fault Outputs

/-- The insertions do nothing that the language leaves undefined. -/
def Env.Defined (E : Env D) : Prop :=
  ∀ outputs view i n m fault, E.insertReplicate outputs view i n m = .error fault →
    ∃ what, fault = .thrown what

/-- Where a worker is: at the test of its loop, before it locks the mutex, or at its end. -/
inductive WorkerPc (V : Type) where
  | loop (i : ℕ)
  | ran (i : ℕ) (error : Error) (simresult : V)
  | done
  | escaped (fault : Fault)

/-- The workers, with what they share. `simulated` records the input, the replicate and the conditions
of every simulation, and `inserted` the input and the replicate of every insertion. -/
structure System (E : Env D) where
  err : Error := {}
  workers : ℕ → WorkerPc E.View := .loop
  simulated : List (ℕ × ℕ × Conditions D) := []
  inserted : List (ℕ × ℕ) := []
  outputs : E.Outputs := E.outputs

namespace System

variable {E : Env D}

def goto (s : System E) (w : ℕ) (pc : WorkerPc E.View) : System E :=
  { s with workers := Function.update s.workers w pc }

/-- The text of an error in a simulation or in the aggregation of its result. -/
def message (stage : String) (inputIndex replIndex : ℕ) (what : String) : String :=
  s!"[Manager error] {stage} input={inputIndex}, replicate={replIndex} : {what}"

/-- One step of a worker. -/
def step (B : Batch D) (s : System E) (w : ℕ) : Option (System E) :=
  match s.workers w with
  | .loop i =>
    if i < B.bound then
      match B.settings i with
      | .ok conds =>
        let (error, simresult) := E.simulate conds
        some { s.goto w (.ran i error simresult) with
          simulated := s.simulated ++ [(i / B.replicasSize, i % B.replicasSize, conds)] }
      | .error (.reported err) => some { s.goto w .done with err }
      | .error (.escaped fault) => some (s.goto w (.escaped fault))
    else
      some (s.goto w .done)
  | .ran i error simresult =>
    let inputIndex := i / B.replicasSize
    let replIndex := i % B.replicasSize
    if s.err.code ≠ 0 then
      some (s.goto w .done)
    else if error.code ≠ 0 then
      some { s.goto w .done with err := {
        code := error.code, message := message "simulation" inputIndex replIndex error.message } }
    else
      match E.insertReplicate s.outputs simresult inputIndex B.inputsSize B.replicasSize with
      | .ok outputs => some { s.goto w (.loop ((i + B.slots) % 2 ^ 32)) with
          outputs, inserted := s.inserted ++ [(inputIndex, replIndex)] }
      | .error (.thrown what) => some { s.goto w .done with err := {
          code := -1, message := message "aggregation" inputIndex replIndex what } }
      | .error fault => some (s.goto w (.escaped fault))
  | .done => none
  | .escaped _ => none

/-- A step of one of the workers. -/
def Step (B : Batch D) (s s' : System E) : Prop := ∃ w < B.slots, s.step B w = some s'

/-- The states that the workers can come to. -/
def Reachable (E : Env D) (B : Batch D) (s : System E) : Prop :=
  Relation.ReflTransGen (Step B) {} s

/-- The next step is one of a run that ends. -/
def Terminates (B : Batch D) (s : System E) : Prop := Acc (fun s₂ s₁ => Step B s₁ s₂) s

end System

/-- The values that a variable is given: a single value, or those of a `Set` or of a `Tuple`. -/
def given : Value D → List (Option (Value D))
  | .set s => s
  | .tuple t => t.map fun d => some (.double d)
  | v => [some v]

/-- The size that the variables of more than one value have in common; one if there are none. -/
def CommonSize (values : ManInput D → Except Fault (Value D)) (vars : List (ManInput D)) (n : ℕ) :
    Prop :=
  (∀ m ∈ vars, ∀ v, values m = .ok v → 1 < (given v).length → (given v).length = n) ∧
    ((∀ m ∈ vars, ∀ v, values m = .ok v → (given v).length ≤ 1) → n = 1)

/-- In these conditions a variable has its value of this index, or its only one. -/
def Holds (conds : Conditions D) (m : ManInput D) (l : List (Option (Value D))) (index : ℕ) : Prop :=
  (1 < l.length → ∃ v, l[index]? = some (some v) ∧ conds.port m.cond m.port = some (some v)) ∧
    (l.length = 1 → ∃ v, l = [some v] ∧ conds.port m.cond m.port = some (some v))

/-- The simulations are those of all inputs and replicates, each with its values. -/
def Batch.Simulates (B : Batch D) (simulated : List (ℕ × ℕ × Conditions D)) : Prop :=
  ∃ n m, CommonSize (·.values B.init) B.mInputs n ∧
    CommonSize (ManReplicate.values · B.init) B.mReplicates m ∧
    (simulated.map fun x => (x.1, x.2.1)).Perm (List.range n ×ˢ List.range m) ∧
    ∀ x ∈ simulated,
      (∀ p ∈ B.mInputs, ∀ v, p.values B.init = .ok v → Holds x.2.2 p (given v) x.1) ∧
      ∀ p ∈ B.mReplicates, ∀ v, ManReplicate.values p B.init = .ok v →
        Holds x.2.2 p (given v) x.2.1

/-- Whatever the simulations and the insertions do and whatever the order of the steps, no access
fails, the workers come to their ends, and then an error is reported or all has been simulated. -/
structure Batch.Completes (B : Batch D) : Prop where
  safe : ∀ E : Env D, E.Defined → ∀ s : System E, System.Reachable E B s → ∀ w < B.slots, ∀ fault,
    s.workers w ≠ .escaped fault
  terminates : ∀ E : Env D, E.Defined → ∀ s : System E, System.Reachable E B s → s.Terminates B
  complete : ∀ E : Env D, E.Defined → ∀ s : System E, System.Reachable E B s →
    (∀ s', ¬ System.Step B s s') → s.err.code ≠ 0 ∨ B.Simulates s.simulated

namespace Plan

/-- What the workers get of the plan. -/
def batch (P : Plan D) (o : ManagerObjects D P.Output) (model : Conditions D) : Batch D :=
  { init := P.init, mInputs := o.mInputs, mReplicates := o.mReplicates, model, slots := P.slots }

/-- `runPlan` reports an error, or simulates what the plan asks for. -/
def Completes (P : Plan D) : Prop :=
  match P.prepare with
  | .ok (o, model) => (P.batch o model).Completes
  | .error (.reported err) => err.code ≠ 0
  | .error (.escaped _) => False

end Plan

end Vle.Manager
