import Vle.Value.Value
import Mathlib.Data.List.AList

/-!
# Conditions

A `Condition` maps its ports to values, and `Conditions` names to conditions. The names of the
conditions and of the ports are those of the maps.
-/

namespace Vle.Vpz

variable {D : Type}

/-- The members of `Condition`; a port that has been added has no value yet. -/
structure Condition (D : Type) where
  name : String
  list : AList fun _ : String => Option (Value D) := ∅
  lastPort : String := ""

namespace Condition

def exist (c : Condition D) (portname : String) : Bool := portname ∈ c.list

def add (c : Condition D) (portname : String) : Condition D :=
  { c with list := c.list.insert portname none, lastPort := portname }

def del (c : Condition D) (portname : String) : Condition D :=
  { c with list := c.list.erase portname }

def setValueToPort (c : Condition D) (portname : String) (value : Value D) : Condition D :=
  { c with list := c.list.insert portname (some value), lastPort := portname }

end Condition

/-- The conditions of an experiment. -/
abbrev Conditions (D : Type) := AList fun _ : String => Condition D

namespace Conditions

/-- What `Conditions::get` throws. -/
def missing (condition : String) : Fault :=
  .thrown s!"The condition '{condition}' does not exists"

def get (conds : Conditions D) (condition : String) : Except Fault (Condition D) :=
  match conds.lookup condition with
  | some c => .ok c
  | none => .error (missing condition)

/-- Change a condition through the reference that `get` gives. -/
def modify (conds : Conditions D) (condition : String) (f : Condition D → Condition D) :
    Except Fault (Conditions D) := do
  let c ← conds.get condition
  return conds.insert condition (f c)

/-- `Experiment::defaultSimulationEngineCondName`. -/
def defaultSimulationEngineCondName : String := "simulation_engine"

/-- `del`, which keeps the condition of the simulation engine. -/
def del (conds : Conditions D) (condition : String) : Conditions D :=
  if condition ≠ defaultSimulationEngineCondName then conds.erase condition else conds

/-- `add` of a condition. An insertion in the map leaves an entry that is there. -/
def add (conds : Conditions D) (condition : Condition D) : Conditions D :=
  let conds := conds.del condition.name
  if condition.name ∈ conds then conds else conds.insert condition.name condition

/-- `rename`. It throws before it changes anything. -/
def rename (conds : Conditions D) (oldconditionname newconditionname : String) :
    Except Fault (Conditions D) :=
  if oldconditionname ≠ defaultSimulationEngineCondName ∧
      newconditionname ≠ defaultSimulationEngineCondName then do
    let c ← conds.get oldconditionname
    return (conds.add { c with name := newconditionname }).del oldconditionname
  else .ok conds

/-- The pointer at a port of a condition, if there is such a port. -/
def port (conds : Conditions D) (condition portname : String) : Option (Option (Value D)) :=
  (conds.lookup condition).bind (·.list.lookup portname)

/-- A change through a reference succeeds exactly when the condition is there. -/
theorem modify_eq_ok {conds conds' : Conditions D} {condition : String}
    {f : Condition D → Condition D} :
    conds.modify condition f = .ok conds' ↔
      ∃ c, conds.lookup condition = some c ∧ conds' = conds.insert condition (f c) := by
  unfold modify get
  cases conds.lookup condition with
  | none => simp [bind, Except.bind]
  | some c => simp [bind, Except.bind, pure, Except.pure, eq_comm]

/-- A change through a reference fails exactly when the condition is missing. -/
theorem modify_eq_error {conds : Conditions D} {condition : String} {f : Condition D → Condition D}
    {e : Fault} : conds.modify condition f = .error e ↔
      condition ∉ conds ∧ e = missing condition := by
  unfold modify get
  rw [← AList.lookup_eq_none]
  cases conds.lookup condition with
  | none => simp [bind, Except.bind, eq_comm]
  | some c => simp [bind, Except.bind, pure, Except.pure]

/-- What a port holds once a value has been set to a port. -/
theorem port_setValueToPort (conds : Conditions D) {condition : String} {c : Condition D}
    (hc : conds.lookup condition = some c) (portname : String) (value : Value D)
    (condition' portname' : String) :
    port (conds.insert condition (c.setValueToPort portname value)) condition' portname' =
      if condition' = condition ∧ portname' = portname then some (some value)
      else conds.port condition' portname' := by
  unfold port
  by_cases h : condition' = condition
  · subst h
    rw [AList.lookup_insert, hc]
    by_cases hp : portname' = portname
    · subst hp
      simp [Condition.setValueToPort]
    · simp [Condition.setValueToPort, AList.lookup_insert_ne hp, hp]
  · rw [AList.lookup_insert_ne h, if_neg (fun hh => h hh.1)]

end Conditions

end Vle.Vpz
