import Vle.Value.Value
import Mathlib.Data.List.AList

/-!
# Output plug-ins

The calls that a view makes of an output plug-in, over a type of dates and one of values. A view without
observables calls with empty names. `WellCalled` is what a view promises: the dates of its values do not
decrease, and it gives values for observables that it has announced.
-/

namespace Vle.Oov

variable {T V : Type}

/-- The calls of the interface `oov::Plugin` during a simulation. -/
inductive Call (T V : Type) where
  | onNewObservable (simulator parent port : String) (time : T)
  | onDelObservable (simulator parent port : String) (time : T)
  | onValue (simulator parent port : String) (time : T) (value : Option V)

/-- The name under which the plug-ins know an observable. -/
def buildname (parent simulator port : String) : String := parent ++ ":" ++ simulator ++ "." ++ port

/-- A value given for an observable. -/
structure Given (T V : Type) where
  name : String
  date : T
  value : Option V

namespace Call

/-- The observable that a call announces. -/
def observable : Call T V → Option String
  | onNewObservable simulator parent port _ => some (buildname parent simulator port)
  | _ => none

/-- The value that a call gives. -/
def given : Call T V → Option (Given T V)
  | onValue simulator parent port time value =>
    if simulator = "" then none else some ⟨buildname parent simulator port, time, value⟩
  | _ => none

/-- The date of a call to `onValue`. -/
def date : Call T V → Option T
  | onValue _ _ _ time _ => some time
  | _ => none

end Call

/-- The observables announced, in order. -/
def observables (calls : List (Call T V)) : List String := calls.filterMap Call.observable

/-- The values given, in order. -/
def given (calls : List (Call T V)) : List (Given T V) := calls.filterMap Call.given

/-- The dates of the calls to `onValue`, in order. -/
def dates (calls : List (Call T V)) : List T := calls.filterMap Call.date

/-- What a view promises. -/
structure WellCalled [LE T] (calls : List (Call T V)) : Prop where
  sorted : (dates calls).Pairwise (· ≤ ·)
  known : ∀ done c todo g, calls = done ++ c :: todo → c.given = some g → g.name ∈ observables done

section Calls

variable {calls : List (Call T V)} {c : Call T V}

theorem observables_concat : observables (calls ++ [c]) = observables calls ++ c.observable.toList := by
  unfold observables
  rw [List.filterMap_append]
  cases h : c.observable <;> simp [h]

theorem given_concat : given (calls ++ [c]) = given calls ++ c.given.toList := by
  unfold given
  rw [List.filterMap_append]
  cases h : c.given <;> simp [h]

theorem dates_concat : dates (calls ++ [c]) = dates calls ++ c.date.toList := by
  unfold dates
  rw [List.filterMap_append]
  cases h : c.date <;> simp [h]

/-- The date of a value is that of its call. -/
theorem date_of_given {g : Given T V} (h : c.given = some g) : c.date = some g.date := by
  cases c with
  | onNewObservable simulator parent port time => cases h
  | onDelObservable simulator parent port time => cases h
  | onValue simulator parent port time value =>
    simp only [Call.given] at h
    split_ifs at h
    cases h
    rfl

/-- A first part of the calls is as well called. -/
theorem WellCalled.of_append [LE T] {todo : List (Call T V)} (h : WellCalled (calls ++ todo)) :
    WellCalled calls where
  sorted := by
    have := h.sorted
    unfold dates at this
    rw [List.filterMap_append] at this
    exact (List.pairwise_append.mp this).1
  known done c rest g hcalls hg :=
    h.known done c (rest ++ todo) g (by rw [hcalls, List.append_assoc, List.cons_append]) hg

/-- The date of the last call is not before the others. -/
theorem WellCalled.le_last [LE T] (h : WellCalled (calls ++ [c])) {d e : T} (hd : d ∈ dates calls)
    (he : c.date = some e) : d ≤ e := by
  have := h.sorted
  rw [dates_concat, he] at this
  exact (List.pairwise_append.mp this).2.2 d hd e (by simp)

theorem WellCalled.known_last [LE T] (h : WellCalled (calls ++ [c])) {g : Given T V}
    (hg : c.given = some g) : g.name ∈ observables calls :=
  h.known calls c [] g rfl hg

end Calls

end Vle.Oov
