import Vle.Vpz.Operations

/-!
# Runs of operations on a hierarchy

A run starts from the empty heap and goes on as long as the operations succeed. `Op.Stated` is what
an operation is given at least: a coupled model as receiver, a model without parent and connection
to `addModel`, one without connection to `detachModel` and `attachModel`. This is not enough.
`Op.Proper` adds that the model given to `delAllConnection`, `delModel` or `detachModel` is a
submodel of the receiver, and that the receiver is not below the model given to `addModel` or
`attachModel`; then every state of every run is symmetric.
-/

namespace Vle.Vpz

open Vle.Lib Vle.Vpz.Graph

/-- The operations on a hierarchy, those of `CoupledModel` with their receiver first. -/
inductive Op where
  | newAtomicModel (name : String)
  | newCoupledModel (name : String)
  | addInputPort (m : NodeId) (name : String)
  | addOutputPort (m : NodeId) (name : String)
  | addAtomicModel (c : NodeId) (name : String)
  | addCoupledModel (c : NodeId) (name : String)
  | addModel (c m : NodeId)
  | addInputConnection (c : NodeId) (portSrc dst portDst : String)
  | addOutputConnection (c : NodeId) (src portSrc portDst : String)
  | addInternalConnection (c : NodeId) (src portSrc dst portDst : String)
  | delInputConnection (c : NodeId) (portSrc dst portDst : String)
  | delOutputConnection (c : NodeId) (src portSrc portDst : String)
  | delInternalConnection (c : NodeId) (src portSrc dst portDst : String)
  | delAllConnection (c m : NodeId)
  | delAllConnections (c : NodeId)
  | delModel (c m : NodeId)
  | delAllModel (c : NodeId)
  | rename (m : NodeId) (newname : String)
  | detachModel (c m : NodeId)
  | attachModel (c m : NodeId)

namespace Op

/-- The program of an operation. -/
def run : Op → GraphM Unit
  | newAtomicModel name => discard (CoupledModel.construct name none (.atomic {}))
  | newCoupledModel name => discard (CoupledModel.construct name none (.coupled {}))
  | addInputPort m name => BaseModel.addInputPort m name
  | addOutputPort m name => BaseModel.addOutputPort m name
  | addAtomicModel c name => discard (CoupledModel.addAtomicModel c name)
  | addCoupledModel c name => discard (CoupledModel.addCoupledModel c name)
  | addModel c m => CoupledModel.addModel c m
  | addInputConnection c p dst q => CoupledModel.addInputConnectionByName c p dst q
  | addOutputConnection c src p q => CoupledModel.addOutputConnectionByName c src p q
  | addInternalConnection c src p dst q => CoupledModel.addInternalConnectionByName c src p dst q
  | delInputConnection c p dst q => CoupledModel.delInputConnectionByName c p dst q
  | delOutputConnection c src p q => CoupledModel.delOutputConnectionByName c src p q
  | delInternalConnection c src p dst q => CoupledModel.delInternalConnectionByName c src p dst q
  | delAllConnection c m => CoupledModel.delAllConnection c m
  | delAllConnections c => CoupledModel.delAllConnections c
  | delModel c m => CoupledModel.delModel c m
  | delAllModel c => CoupledModel.delAllModel c
  | rename m newname => BaseModel.rename m newname
  | detachModel c m => CoupledModel.detachModel c m
  | attachModel c m => CoupledModel.attachModel c m

/-- The coupled model that an operation is called on. -/
def receiver : Op → Option NodeId
  | addAtomicModel c _ | addCoupledModel c _ | addModel c _ | addInputConnection c _ _ _
  | addOutputConnection c _ _ _ | addInternalConnection c _ _ _ _ | delInputConnection c _ _ _
  | delOutputConnection c _ _ _ | delInternalConnection c _ _ _ _ | delAllConnection c _
  | delAllConnections c | delModel c _ | delAllModel c | detachModel c _ | attachModel c _ => some c
  | newAtomicModel _ | newCoupledModel _ | addInputPort _ _ | addOutputPort _ _ | rename _ _ => none

/-- The model to insert or to detach is free of what would have to go with it. -/
def Free (g : Graph) : Op → Prop
  | addModel _ m => g.parent? m = none ∧ g.Unlinked m
  | detachModel _ m | attachModel _ m => g.Unlinked m
  | _ => True

/-- The model given by pointer is where the receiver expects it. -/
def Placed (g : Graph) : Op → Prop
  | delAllConnection c m | delModel c m | detachModel c m => g.parent? m = some c
  | addModel c m | attachModel c m => ¬ g.Below m c
  | _ => True

/-- What an operation is given at least. -/
structure Stated (g : Graph) (op : Op) : Prop where
  receiver : ∀ c ∈ op.receiver, g.coupled? c = true
  free : op.Free g

/-- What an operation needs. -/
structure Proper (g : Graph) (op : Op) : Prop extends Stated g op where
  placed : op.Placed g

end Op

namespace Graph

/-- Whether something is connected around a model can be read off its port lists. -/
theorem unlinked_iff {g : Graph} {m : NodeId} : g.Unlinked m ↔ ∀ mdl ∈ g.model m,
    ∀ side ∈ [Side.input, .output], ∀ e ∈ (mdl.connections side).entries, e.2.lst = [] := by
  constructor
  · intro h mdl hmdl side hside e he
    have := h ⟨m, side, e.1⟩ ⟨rfl, by fin_cases hside <;> exact nofun⟩
    rwa [entries, portList?, Option.mem_def.mp hmdl, Option.bind_some,
      AList.mem_lookup_iff.mpr he] at this
  · rintro h ⟨n, side, p⟩ ⟨rfl, hside⟩
    cases hl : g.portList? ⟨n, side, p⟩ with
    | none => exact entries_of_none hl
    | some l =>
      obtain ⟨mdl, hmdl, hlookup⟩ := Option.bind_eq_some_iff.mp hl
      rw [entries_of_port hl]
      exact h mdl hmdl side (by cases side <;> simp_all [Side.inner]) ⟨p, l⟩
        (AList.mem_lookup_iff.mp hlookup)

instance (g : Graph) (m : NodeId) : Decidable (g.Unlinked m) :=
  decidable_of_iff _ unlinked_iff.symm

end Graph

instance (g : Graph) (op : Op) : Decidable (op.Free g) := by
  cases op <;> unfold Op.Free <;> infer_instance

instance (g : Graph) (op : Op) : Decidable (op.Stated g) :=
  decidable_of_iff ((∀ c ∈ op.receiver, g.coupled? c = true) ∧ op.Free g)
    ⟨fun h => ⟨h.1, h.2⟩, fun h => ⟨h.1, h.2⟩⟩

/-- The states of the runs of operations that meet a condition and succeed. -/
inductive Reachable (guard : Graph → Op → Prop) : Graph → Prop where
  | start : Reachable guard .empty
  | step {g g' : Graph} {op : Op} (hg : Reachable guard g) (hop : guard g op)
      (hrun : op.run g = .ok () g') : Reachable guard g'

namespace Graph

/-- Connections are recorded at both ends and the model lists agree with the names and parents, in
the terms of the four kinds of port lists. -/
structure Symmetric (g : Graph) : Prop where
  key : ∀ c name n, g.child? c name = some n → g.name? n = some name ∧ g.parent? n = some c
  child : ∀ c n, g.parent? n = some c → ∃ name, g.name? n = some name ∧ g.child? c name = some n
  acyclic : ∀ n c, g.parent? n = some c → ¬ g.Below n c
  internal : ∀ c m d p q, g.parent? m = some c → g.parent? d = some c →
    (g.entries ⟨m, .output, p⟩).count (d, q) = (g.entries ⟨d, .input, q⟩).count (m, p)
  input : ∀ c m p q, g.parent? m = some c →
    (g.entries ⟨c, .internalInput, p⟩).count (m, q) = (g.entries ⟨m, .input, q⟩).count (c, p)
  output : ∀ c m p q, g.parent? m = some c →
    (g.entries ⟨m, .output, p⟩).count (c, q) = (g.entries ⟨c, .internalOutput, q⟩).count (m, p)
  recorded : ∀ s, ∀ e ∈ g.entries s, ∃ t, t.entry = e ∧ g.Joined s t ∧ s.entry ∈ g.entries t

theorem WellFormed.symmetric {g : Graph} (h : g.WellFormed) : g.Symmetric where
  key c name n hn := (h.listed c name n).mp hn
  child c n hn := by
    obtain ⟨name, hname⟩ := Option.isSome_iff_exists.mp (name?_of_parent? hn)
    exact ⟨name, hname, (h.listed c name n).mpr ⟨hname, hn⟩⟩
  acyclic _ _ hn := h.forest.not_below hn
  internal _ _ _ p q hm hd := h.linked.symm _ _ (.internal p q hm hd)
  input _ _ p q hm := h.linked.symm _ _ (.input p q hm)
  output _ _ p q hm := h.linked.symm _ _ (.output p q hm)
  recorded s e he := by
    obtain ⟨t, rfl, hst⟩ := h.linked.joined s e he
    exact ⟨t, rfl, hst, (h.linked.mem_comm hst).mp he⟩

/-- The empty heap. -/
theorem Consistent.empty : Graph.empty.Consistent := by
  have hentries : ∀ s, Graph.empty.entries s = [] := fun _ => rfl
  refine ⟨⟨⟨⟨nofun, nofun, ⟨fun _ => 0, nofun⟩⟩, fun s t _ => ?_, fun s e he => ?_, nofun, ?_⟩,
    fun c name n => ⟨nofun, fun h => nomatch h.1⟩⟩, nofun⟩
  · rw [hentries, hentries]
    rfl
  · rw [hentries] at he
    cases he
  · intro m side p _ he
    exact absurd (hentries _) he

/-- Each operation that is given what it needs keeps the hierarchy. -/
theorem Consistent.step {g g' : Graph} (h : g.Consistent) {op : Op} (hop : op.Proper g)
    (hg' : op.run g = .ok () g') : g'.Consistent := by
  obtain ⟨⟨hreceiver, hfree⟩, hplaced⟩ := hop
  have hdiscard : ∀ {α : Type} {x : GraphM α}, (discard x) g = .ok () g' →
      ∃ a, x g = .ok a g' := by
    intro α x hx
    change EStateM.map (Function.const α ()) x g = _ at hx
    unfold EStateM.map at hx
    cases hxg : x g with
    | ok a g₁ => rw [hxg] at hx; cases hx; exact ⟨a, rfl⟩
    | error e g₁ => rw [hxg] at hx; cases hx
  cases op with
  | newAtomicModel name =>
    obtain ⟨x, hx⟩ := hdiscard hg'
    exact (h.construct (by rintro _ ⟨⟩) (.inl rfl) hx).1
  | newCoupledModel name =>
    obtain ⟨x, hx⟩ := hdiscard hg'
    exact (h.construct (by rintro _ ⟨⟩) (.inr rfl) hx).1
  | addInputPort m name => exact (h.addPort (by decide) hg').1
  | addOutputPort m name => exact (h.addPort (by decide) hg').1
  | addAtomicModel c name =>
    obtain ⟨x, hx⟩ := hdiscard hg'
    exact h.addNewModel (hreceiver c rfl) (.inl rfl) hx
  | addCoupledModel c name =>
    obtain ⟨x, hx⟩ := hdiscard hg'
    exact h.addNewModel (hreceiver c rfl) (.inr rfl) hx
  | addModel c m => exact (h.addModel (hreceiver c rfl) hfree.1 hplaced hg').1
  | addInputConnection c p dst q => exact h.addInputConnection hg'
  | addOutputConnection c src p q => exact h.addOutputConnection hg'
  | addInternalConnection c src p dst q => exact h.addInternalConnection hg'
  | delInputConnection c p dst q => exact h.delInputConnection hg'
  | delOutputConnection c src p q => exact h.delOutputConnection hg'
  | delInternalConnection c src p dst q => exact h.delInternalConnection hg'
  | delAllConnection c m => exact (h.delAllConnection hplaced hg').1
  | delAllConnections c => exact h.delAllConnections hg'
  | delModel c m => exact h.delModel hplaced hg'
  | delAllModel c => exact h.delAllModel (hreceiver c rfl) hg'
  | rename m newname => exact h.rename hg'
  | detachModel c m => exact (h.detachModel hplaced hfree hg').1
  | attachModel c m => exact h.attachModel (hreceiver c rfl) hfree hplaced hg'

end Graph

/-- Every state of every run of operations that are given what they need is consistent. -/
theorem Reachable.consistent {g : Graph} (h : Reachable (fun g op => op.Proper g) g) :
    g.Consistent := by
  induction h with
  | start => exact Consistent.empty
  | step _ hop hrun ih => exact ih.step hop hrun

/-- The state after a list of operations, when each is given what is stated and succeeds. -/
def stateAfter : List Op → Graph → Option Graph
  | [], g => some g
  | op :: ops, g =>
    if op.Stated g then
      match op.run g with
      | .ok _ g' => stateAfter ops g'
      | .error _ _ => none
    else none

theorem Reachable.stateAfter {ops : List Op} {g g' : Graph}
    (h : Reachable (fun g op => op.Stated g) g) (hops : stateAfter ops g = some g') :
    Reachable (fun g op => op.Stated g) g' := by
  induction ops generalizing g with
  | nil => cases hops; exact h
  | cons op ops ih =>
    rw [Vpz.stateAfter] at hops
    split_ifs at hops with hop
    cases hrun : op.run g with
    | ok _ g₁ => rw [hrun] at hops; exact ih (h.step hop hrun) hops
    | error _ _ => rw [hrun] at hops; cases hops

/-- The model `2` is two levels below the receiver `0` of `delAllConnection`, which takes its
parent `1` for a sibling. -/
def grandchildCleared : List Op :=
  [.newCoupledModel "top", .addCoupledModel 0 "c", .addAtomicModel 1 "a", .addInputPort 1 "p",
    .addOutputPort 1 "p", .addInputPort 2 "i", .addInputConnection 1 "p" "a" "i",
    .delAllConnection 0 2]

/-- The model `3` has the name of a submodel of the receiver of `delModel`, but another parent. -/
def namesakeDeleted : List Op :=
  [.newCoupledModel "top", .addCoupledModel 0 "c", .addAtomicModel 0 "a", .addAtomicModel 1 "a",
    .delModel 0 3]

/-- The model `3` has the name of a connected submodel of the receiver of `detachModel`. -/
def namesakeDetached : List Op :=
  [.newCoupledModel "top", .addAtomicModel 0 "a", .addAtomicModel 0 "b", .newAtomicModel "a",
    .addOutputPort 1 "o", .addInputPort 2 "i", .addInternalConnection 0 "a" "o" "b" "i",
    .detachModel 0 3]

/-- A model added to itself. -/
def addedToItself : List Op := [.newCoupledModel "top", .addModel 0 0]

/-- A model attached to one of its submodels. -/
def attachedBelow : List Op :=
  [.newCoupledModel "top", .addCoupledModel 0 "c", .attachModel 1 0]

/-- A run that meets what is stated ends in a state that is not symmetric. -/
def EndsAsymmetric (ops : List Op) : Prop :=
  ∃ g, stateAfter ops .empty = some g ∧ Reachable (fun g op => op.Stated g) g ∧ ¬ g.Symmetric

end Vle.Vpz
