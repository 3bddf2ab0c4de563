import Vle.Vpz.Edits
import Vle.Vpz.Runs

/-!
# A list of connections at once

`setBasicConnections` adds the connections of a list one after the other, and takes out those it has
added when one throws. A port list is then what it was with the ends added to it in order, and after
that with all ends equal to one of them removed (`Outcome`). So the undo loses the connections that
were there before, and it leaves the end that the connection that throws has already written:
`undoable` says when neither happens.
-/

namespace Vle.Vpz

open Vle.Lib Vle.Vpz.Graph CoupledModel

namespace CoupledModel.BasicConnection

/-- The edit that adds the connection. -/
def edit (q : BasicConnection) : Edit :=
  .addInternalConnectionByName q.source q.portsource q.destination q.portdestination

/-- The two port lists of the connection, if its models are accepted. -/
def ends (g : Graph) (c : NodeId) (q : BasicConnection) : Option (Slot × Slot) := q.edit.ends g c

/-- What the connection adds to a port list, if it does. -/
def endAt (g : Graph) (c : NodeId) (u : Slot) (q : BasicConnection) : Option ModelPort :=
  (q.ends g c).bind fun st =>
    if u = st.1 then some st.2.entry else if u = st.2 then some st.1.entry else none

/-- The connection can be added: its models are accepted and have the ports. -/
def Accepted (g : Graph) (c : NodeId) (q : BasicConnection) : Prop :=
  ∃ s t, q.ends g c = some (s, t) ∧ (g.portList? s).isSome ∧ (g.portList? t).isSome

/-- The connection is recorded at one of its ends. -/
def Recorded (g : Graph) (c : NodeId) (q : BasicConnection) : Prop :=
  ∃ s t, q.ends g c = some (s, t) ∧ (t.entry ∈ g.entries s ∨ s.entry ∈ g.entries t)

end CoupledModel.BasicConnection

namespace Graph

open BasicConnection

/-- What connections add to a port list, in order. -/
def added (g : Graph) (c : NodeId) (qs : List BasicConnection) (u : Slot) : List ModelPort :=
  qs.filterMap (endAt g c u)

/-- A list after a change for each of some ends. -/
def changes (adds : Bool) (es : List ModelPort) (l : ModelPortList) : ModelPortList :=
  es.foldl (change adds) l

/-- What a connection that throws leaves in a port list: the end that it has written. -/
def half (g : Graph) (c : NodeId) (q : BasicConnection) (u : Slot) (l : ModelPortList) :
    ModelPortList :=
  match q.ends g c with
  | some (s, t) => if u = s ∧ (g.portList? t).isNone then change true l t.entry else l
  | none => l

/-- How `setBasicConnections` ends with the connections `qs`: all are added, or one is not accepted and
those before it are added and taken out again. -/
def Outcome (g : Graph) (c : NodeId) (qs : List BasicConnection) :
    EStateM.Result Error Graph Unit → Prop
  | .ok () g' => (∀ q ∈ qs, q.Accepted g c) ∧
      ∀ u, g'.portList? u = (g.portList? u).map (changes true (added g c qs u))
  | .error e g' => (∃ what, e = .devsGraph what) ∧ ∃ done q rest, qs = done ++ q :: rest ∧
      (∀ r ∈ done, r.Accepted g c) ∧ ¬ q.Accepted g c ∧ ∀ u, g'.portList? u =
        (g.portList? u).map fun l =>
          changes false (added g c done u) (half g c q u (changes true (added g c done u) l))

/-! ## One connection -/

/-! ## The list -/

end Graph

namespace CoupledModel

open BasicConnection

/-- What `setBasicConnections` is to do: it adds one connection for each quadruple of the list, at both
its ends, or it throws and leaves every port list as it was. -/
def SetsAll (g : Graph) (c : NodeId) (lst : List String) : Prop :=
  match setBasicConnections c lst g with
  | .ok () g' => (∀ q ∈ basicConnections lst, q.Accepted g c) ∧
      ∀ u, (g'.entries u).Perm (g.entries u ++ added g c (basicConnections lst) u)
  | .error e g' => (∃ what, e = .devsGraph what) ∧ ∀ u, g'.portList? u = g.portList? u

/-- When a connection of the list is not accepted, none of those before it is recorded already, and it
has not a source port and a destination without the port. -/
def Undoable (g : Graph) (c : NodeId) (lst : List String) : Prop :=
  lst.length % 4 = 0 → ∀ done q rest, basicConnections lst = done ++ q :: rest →
    (∀ r ∈ done, r.Accepted g c) → ¬ q.Accepted g c →
      (∀ r ∈ done, ¬ r.Recorded g c) ∧ ¬ q.edit.OneEnded g c

/-- A coupled model with a connection between two submodels. -/
def connectedPair : List Op :=
  [.newCoupledModel "top", .addAtomicModel 0 "a", .addAtomicModel 0 "b", .addOutputPort 1 "o",
    .addInputPort 2 "i", .addInternalConnection 0 "a" "o" "b" "i"]

end CoupledModel

end Vle.Vpz
