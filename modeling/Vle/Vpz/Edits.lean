import Vle.Vpz.Symmetry

/-!
# Edits of connections and their exceptions

The operations that add or delete one connection check their arguments, then write the port list at
one end and the one at the other end, and each getter may throw. `Edit.ends` names the two lists, in
the order of the writes. When the second getter throws, the first list is already written: an edit is
all or nothing exactly when it is not one-ended (`Edit.allOrNothing_iff`).
-/

namespace Vle.Vpz

open Vle.Lib Vle.Vpz.Graph

namespace Graph

/-- What an edit does to a port list: it adds a connection end or removes it. -/
def change (adds : Bool) (l : ModelPortList) (e : ModelPort) : ModelPortList :=
  if adds then l.add e.1 e.2 else l.remove e.1 e.2

/-- The writes of an edit at its two ends. -/
def editEnds (adds : Bool) (s t : Slot) : GraphM Unit := do
  modifyPort s (change adds · t.entry)
  modifyPort t (change adds · s.entry)

end Graph

/-- The edits of connections, those by pointers and those by names. -/
inductive Edit where
  | addInputConnection (portSrc : String) (dst : Option NodeId) (portDst : String)
  | addOutputConnection (src : Option NodeId) (portSrc portDst : String)
  | addInternalConnection (src : Option NodeId) (portSrc : String) (dst : Option NodeId)
      (portDst : String)
  | delInputConnection (portSrc : String) (dst : Option NodeId) (portDst : String)
  | delOutputConnection (src : Option NodeId) (portSrc portDst : String)
  | delInternalConnection (src : Option NodeId) (portSrc : String) (dst : Option NodeId)
      (portDst : String)
  | addInputConnectionByName (portSrc dst portDst : String)
  | addOutputConnectionByName (src portSrc portDst : String)
  | addInternalConnectionByName (src portSrc dst portDst : String)
  | delInputConnectionByName (portSrc dst portDst : String)
  | delOutputConnectionByName (src portSrc portDst : String)
  | delInternalConnectionByName (src portSrc dst portDst : String)

namespace Edit

/-- The program of an edit of the coupled model `c`. -/
def run (c : NodeId) : Edit → GraphM Unit
  | addInputConnection p d q => CoupledModel.addInputConnection c p d q
  | addOutputConnection s p q => CoupledModel.addOutputConnection c s p q
  | addInternalConnection s p d q => CoupledModel.addInternalConnection c s p d q
  | delInputConnection p d q => CoupledModel.delInputConnection c p d q
  | delOutputConnection s p q => CoupledModel.delOutputConnection c s p q
  | delInternalConnection s p d q => CoupledModel.delInternalConnection c s p d q
  | addInputConnectionByName p d q => CoupledModel.addInputConnectionByName c p d q
  | addOutputConnectionByName s p q => CoupledModel.addOutputConnectionByName c s p q
  | addInternalConnectionByName s p d q => CoupledModel.addInternalConnectionByName c s p d q
  | delInputConnectionByName p d q => CoupledModel.delInputConnectionByName c p d q
  | delOutputConnectionByName s p q => CoupledModel.delOutputConnectionByName c s p q
  | delInternalConnectionByName s p d q => CoupledModel.delInternalConnectionByName c s p d q

/-- Whether an edit adds a connection. -/
def Adds : Edit → Bool
  | addInputConnection .. | addOutputConnection .. | addInternalConnection ..
  | addInputConnectionByName .. | addOutputConnectionByName .. | addInternalConnectionByName .. => true
  | delInputConnection .. | delOutputConnection .. | delInternalConnection ..
  | delInputConnectionByName .. | delOutputConnectionByName .. | delInternalConnectionByName .. => false

/-- The port lists of an input connection of `c`, if its arguments are accepted. -/
def inputEnds (c : NodeId) (portSrc : String) (dst : Option NodeId) (portDst : String) :
    Option (Slot × Slot) :=
  dst.bind fun d => if d = c then none else
    some (⟨c, .internalInput, portSrc⟩, ⟨d, .input, portDst⟩)

/-- The port lists of an output connection of `c`, if its arguments are accepted. -/
def outputEnds (c : NodeId) (src : Option NodeId) (portSrc portDst : String) :
    Option (Slot × Slot) :=
  src.bind fun s => if s = c then none else
    some (⟨s, .output, portSrc⟩, ⟨c, .internalOutput, portDst⟩)

/-- The port lists of an internal connection of `c`, if its arguments are accepted. -/
def internalEnds (c : NodeId) (src : Option NodeId) (portSrc : String) (dst : Option NodeId)
    (portDst : String) : Option (Slot × Slot) :=
  src.bind fun s => dst.bind fun d => if s = c then none else if d = c then none else
    some (⟨s, .output, portSrc⟩, ⟨d, .input, portDst⟩)

/-- The port lists that an edit writes, in the order of the writes, if its arguments are accepted. -/
def ends (g : Graph) (c : NodeId) : Edit → Option (Slot × Slot)
  | addInputConnection p d q | delInputConnection p d q => inputEnds c p d q
  | addOutputConnection s p q | delOutputConnection s p q => outputEnds c s p q
  | addInternalConnection s p d q | delInternalConnection s p d q => internalEnds c s p d q
  | addInputConnectionByName p d q | delInputConnectionByName p d q => inputEnds c p (g.child? c d) q
  | addOutputConnectionByName s p q | delOutputConnectionByName s p q =>
    outputEnds c (g.child? c s) p q
  | addInternalConnectionByName s p d q | delInternalConnectionByName s p d q =>
    internalEnds c (g.child? c s) p (g.child? c d) q

/-- The two ends of an edit are different lists. -/
theorem ends_ne {g : Graph} {c : NodeId} {e : Edit} {s t : Slot} (h : e.ends g c = some (s, t)) :
    s ≠ t := by
  have hinput : ∀ {p d q}, inputEnds c p d q = some (s, t) → s ≠ t := fun {p d q} h => by
    obtain ⟨d, -, h⟩ := Option.bind_eq_some_iff.mp h
    split_ifs at h
    cases h
    exact nofun
  have houtput : ∀ {s' p q}, outputEnds c s' p q = some (s, t) → s ≠ t := fun {s' p q} h => by
    obtain ⟨s', -, h⟩ := Option.bind_eq_some_iff.mp h
    split_ifs at h
    cases h
    exact nofun
  have hinternal : ∀ {s' p d q}, internalEnds c s' p d q = some (s, t) → s ≠ t := fun {s' p d q} h => by
    obtain ⟨s', -, h⟩ := Option.bind_eq_some_iff.mp h
    obtain ⟨d, -, h⟩ := Option.bind_eq_some_iff.mp h
    split_ifs at h
    cases h
    exact nofun
  cases e
  all_goals first | exact hinput h | exact houtput h | exact hinternal h

/-- An edit that throws leaves every port list as it was. -/
def AllOrNothing (g : Graph) (c : NodeId) (e : Edit) : Prop :=
  ∀ what g', e.run c g = .error (.devsGraph what) g' → ∀ u, g'.portList? u = g.portList? u

/-- An edit that has something to write at its first end, and at its second end a model without the
port. -/
def OneEnded (g : Graph) (c : NodeId) (e : Edit) : Prop :=
  ∃ s t, e.ends g c = some (s, t) ∧ (g.portList? s).isSome ∧ (g.name? t.model).isSome ∧
    g.portList? t = none ∧ (e.Adds = false → t.entry ∈ g.entries s)

end Edit

namespace Graph

/-- A program on the coupled model `c` that comes to the writes of an edit, or throws before them. -/
def ComesTo (c : NodeId) (x : GraphM Unit) (adds : Bool) (g : Graph) (ends : Option (Slot × Slot)) :
    Prop :=
  match ends with
  | some (s, t) => x g = editEnds adds s t g
  | none => ∃ e, x g = .error e g ∧ ((g.model c).isSome → ∃ what, e = .devsGraph what)

/-- A check of a pointer, then what follows. -/
theorem comesTo_nonNull {c : NodeId} {p : Option NodeId} {what : String} {k : NodeId → GraphM Unit}
    {adds : Bool} {g : Graph} {ends : NodeId → Option (Slot × Slot)}
    (hk : ∀ m, ComesTo c (k m) adds g (ends m)) :
    ComesTo c (CoupledModel.nonNull p what >>= k) adds g (p.bind ends) := by
  cases p with
  | none => exact ⟨_, rfl, fun _ => ⟨what, rfl⟩⟩
  | some m => exact hk m

/-- A check of a model, then what follows. -/
theorem comesTo_guard {m c : NodeId} {what : String} {k : Unit → GraphM Unit} {adds : Bool} {g : Graph}
    {ends : Option (Slot × Slot)} (hk : ComesTo c (k ()) adds g ends) :
    ComesTo c (if m = c then throw (.devsGraph what) >>= k else k ()) adds g
      (if m = c then none else ends) := by
  split_ifs with h
  · exact ⟨_, rfl, fun _ => ⟨what, rfl⟩⟩
  · exact hk

/-- A look-up by name, then what follows. -/
theorem comesTo_find {c : NodeId} {name : String} {k : Option NodeId → GraphM Unit} {adds : Bool}
    {g : Graph} (ends : Option NodeId → Option (Slot × Slot)) (hnone : ends none = none)
    (hk : ∀ p, ComesTo c (k p) adds g (ends p)) :
    ComesTo c (EState.inspect (·.findModel c name) >>= k) adds g (ends (g.child? c name)) := by
  cases hc : g.model c with
  | none =>
    have hchild : g.child? c name = none := by
      rw [child?, hc]
      rfl
    rw [hchild, hnone]
    refine ⟨.destroyed, ?_, fun h => by rw [hc] at h; cases h⟩
    change EStateM.bind _ _ g = _
    rw [EStateM.bind, EState.inspect, findModel, deref, hc]
    rfl
  | some mdl =>
    have hfind : g.findModel c name = .ok (g.child? c name) := by
      rw [findModel, deref_eq_ok.mpr hc, child?, hc]
      rfl
    have hrun := EState.inspect_bind_run (f := (·.findModel c name)) (g := k) hfind
    have := hk (g.child? c name)
    unfold ComesTo at this ⊢
    rwa [hrun]

/-- The edits by pointers check their arguments, then come to the writes. -/
theorem addInputConnection_comesTo (g : Graph) (c : NodeId) (p : String) (d : Option NodeId)
    (q : String) : ComesTo c (CoupledModel.addInputConnection c p d q) true g (Edit.inputEnds c p d q) :=
  comesTo_nonNull fun _ => comesTo_guard rfl

theorem addOutputConnection_comesTo (g : Graph) (c : NodeId) (s : Option NodeId) (p q : String) :
    ComesTo c (CoupledModel.addOutputConnection c s p q) true g (Edit.outputEnds c s p q) :=
  comesTo_nonNull fun _ => comesTo_guard rfl

theorem addInternalConnection_comesTo (g : Graph) (c : NodeId) (s : Option NodeId) (p : String)
    (d : Option NodeId) (q : String) :
    ComesTo c (CoupledModel.addInternalConnection c s p d q) true g (Edit.internalEnds c s p d q) :=
  comesTo_nonNull fun _ => comesTo_nonNull fun _ => comesTo_guard (comesTo_guard rfl)

theorem delInputConnection_comesTo (g : Graph) (c : NodeId) (p : String) (d : Option NodeId)
    (q : String) :
    ComesTo c (CoupledModel.delInputConnection c p d q) false g (Edit.inputEnds c p d q) :=
  comesTo_nonNull fun _ => comesTo_guard rfl

theorem delOutputConnection_comesTo (g : Graph) (c : NodeId) (s : Option NodeId) (p q : String) :
    ComesTo c (CoupledModel.delOutputConnection c s p q) false g (Edit.outputEnds c s p q) :=
  comesTo_nonNull fun _ => comesTo_guard rfl

/-- `delInternalConnection` checks the source before it looks at the destination. -/
theorem delInternalConnection_comesTo (g : Graph) (c : NodeId) (s : Option NodeId) (p : String)
    (d : Option NodeId) (q : String) :
    ComesTo c (CoupledModel.delInternalConnection c s p d q) false g (Edit.internalEnds c s p d q) := by
  have h : ComesTo c (CoupledModel.delInternalConnection c s p d q) false g
      (s.bind fun s => if s = c then none else d.bind fun d => if d = c then none else
        some (⟨s, .output, p⟩, ⟨d, .input, q⟩)) :=
    comesTo_nonNull fun _ => comesTo_guard (comesTo_nonNull fun _ => comesTo_guard rfl)
  convert h using 1
  unfold Edit.internalEnds
  cases s <;> cases d <;> simp

/-- Every edit checks its arguments, then comes to the writes. -/
theorem edit_comesTo (g : Graph) (c : NodeId) (e : Edit) :
    ComesTo c (e.run c) e.Adds g (e.ends g c) := by
  cases e with
  | addInputConnection p d q => exact addInputConnection_comesTo g c p d q
  | addOutputConnection s p q => exact addOutputConnection_comesTo g c s p q
  | addInternalConnection s p d q => exact addInternalConnection_comesTo g c s p d q
  | delInputConnection p d q => exact delInputConnection_comesTo g c p d q
  | delOutputConnection s p q => exact delOutputConnection_comesTo g c s p q
  | delInternalConnection s p d q => exact delInternalConnection_comesTo g c s p d q
  | addInputConnectionByName p d q =>
    exact comesTo_find (fun r => Edit.inputEnds c p r q) rfl fun r =>
      addInputConnection_comesTo g c p r q
  | addOutputConnectionByName s p q =>
    exact comesTo_find (fun r => Edit.outputEnds c r p q) rfl fun r =>
      addOutputConnection_comesTo g c r p q
  | addInternalConnectionByName s p d q =>
    exact comesTo_find (fun r => Edit.internalEnds c r p (g.child? c d) q) rfl fun r =>
      comesTo_find (fun r' => Edit.internalEnds c r p r' q) (by cases r <;> rfl) fun r' =>
        addInternalConnection_comesTo g c r p r' q
  | delInputConnectionByName p d q =>
    exact comesTo_find (fun r => Edit.inputEnds c p r q) rfl fun r =>
      delInputConnection_comesTo g c p r q
  | delOutputConnectionByName s p q =>
    exact comesTo_find (fun r => Edit.outputEnds c r p q) rfl fun r =>
      delOutputConnection_comesTo g c r p q
  | delInternalConnectionByName s p d q =>
    exact comesTo_find (fun r => Edit.internalEnds c r p (g.child? c d) q) rfl fun r =>
      comesTo_find (fun r' => Edit.internalEnds c r p r' q) (by cases r <;> rfl) fun r' =>
        delInternalConnection_comesTo g c r p r' q

/-! ## The writes -/

/-- A getter throws for a model that does not have the port. -/
theorem getPort_devsGraph {g : Graph} {s : Slot} :
    (∃ what, g.getPort s = .error (.devsGraph what)) ↔
      (g.name? s.model).isSome ∧ g.portList? s = none := by
  unfold getPort deref name? portList?
  cases hm : g.model s.model with
  | none => simp [bind, Except.bind]
  | some mdl =>
    cases hl : (mdl.connections s.side).lookup s.port with
    | none => simp [bind, Except.bind, hl, throw, throwThe, MonadExceptOf.throw, noPort]
    | some l => simp [bind, Except.bind, hl, pure, Except.pure]

/-- A write to a port list that is not there leaves the graph. -/
theorem modifyPort_eq_error {s : Slot} {f : ModelPortList → ModelPortList} {g g' : Graph} {e : Error} :
    modifyPort s f g = .error e g' ↔ g.getPort s = .error e ∧ g' = g := by
  change EStateM.bind _ _ g = _ ↔ _
  rw [EStateM.bind, EState.inspect]
  cases hs : g.getPort s with
  | ok l => simp
  | error e' =>
    simp only [EStateM.Result.error.injEq, Except.error.injEq]
    exact and_congr_right fun _ => eq_comm

/-- Port lists are the same when their entries are. -/
theorem modelPortList_ext {l l' : ModelPortList} (h : l.lst = l'.lst) : l = l' := by
  cases l
  cases l'
  cases h
  rfl

/-- An addition changes a list, and a removal when there is something to remove. -/
theorem change_eq_self_iff {adds : Bool} {l : ModelPortList} {e : ModelPort} :
    change adds l e = l ↔ adds = false ∧ e ∉ l.lst := by
  unfold change
  cases adds with
  | true =>
    simp only [if_true, reduceCtorEq, false_and, iff_false]
    intro h
    have hlen := (l.add_perm e.1 e.2).length_eq
    rw [h, List.length_cons] at hlen
    omega
  | false =>
    simp only [Bool.false_eq_true, if_false, true_and]
    constructor
    · intro h he
      rw [← h, ModelPortList.remove_lst] at he
      exact absurd rfl (of_decide_eq_true (List.mem_filter.mp he).2)
    · intro he
      refine modelPortList_ext ?_
      rw [ModelPortList.remove_lst]
      refine List.filter_eq_self.mpr fun a ha => decide_eq_true ?_
      rintro rfl
      exact he ha

section EditEnds

variable (adds : Bool) {s t : Slot} {g : Graph}

/-- The writes of an edit when the first end is not there: the graph stays. -/
theorem editEnds_no_first (hs : g.portList? s = none) : ∃ e, editEnds adds s t g = .error e g ∧
    ((g.name? s.model).isSome → ∃ what, e = .devsGraph what) := by
  cases hget : g.getPort s with
  | ok l =>
    rw [getPort_eq_ok.mp hget] at hs
    cases hs
  | error e =>
    refine ⟨e, ?_, fun hname => ?_⟩
    · change EStateM.bind _ _ g = _
      rw [EStateM.bind, modifyPort_eq_error.mpr ⟨hget, rfl⟩]
    · obtain ⟨what, hwhat⟩ := getPort_devsGraph.mpr ⟨hname, hs⟩
      rw [hget] at hwhat
      cases hwhat
      exact ⟨what, rfl⟩

/-- The writes of an edit when the second end is not there: the first one is written. -/
theorem editEnds_half {l : ModelPortList} (hs : g.portList? s = some l) (ht : g.portList? t = none) :
    ∃ e g', editEnds adds s t g = .error e g' ∧
      ((g.name? t.model).isSome ↔ ∃ what, e = .devsGraph what) ∧ Rewired g g' ∧
      ∀ u, g'.portList? u = if u = s then some (change adds l t.entry) else g.portList? u := by
  obtain ⟨g₁, hg₁⟩ := modifyPort_total (change adds · t.entry) (Option.isSome_of_eq_some hs)
  obtain ⟨l', hl', hr, hport⟩ := modifyPort_ok hg₁
  obtain rfl := Option.some.inj (hs.symm.trans hl')
  have hnone : g₁.portList? t = none := by
    have := hr.ports t
    rw [ht] at this
    exact Option.not_isSome_iff_eq_none.mp (by rw [this]; exact Bool.false_ne_true)
  cases hget : g₁.getPort t with
  | ok l₁ =>
    rw [getPort_eq_ok.mp hget] at hnone
    cases hnone
  | error e =>
    refine ⟨e, g₁, (EState.bind_run hg₁).trans (modifyPort_eq_error.mpr ⟨hget, rfl⟩), ?_, hr, hport⟩
    have hiff := getPort_devsGraph (g := g₁) (s := t)
    rw [hget, hr.name?, and_iff_left hnone] at hiff
    simpa using hiff.symm

/-- The writes of an edit when both ends are there. -/
theorem editEnds_both (hne : s ≠ t) (hs : (g.portList? s).isSome) (ht : (g.portList? t).isSome) :
    ∃ g', editEnds adds s t g = .ok () g' ∧ Rewired g g' ∧ ∀ u, g'.portList? u =
      if u = s then (g.portList? s).map (change adds · t.entry)
      else if u = t then (g.portList? t).map (change adds · s.entry) else g.portList? u := by
  obtain ⟨g₁, hg₁⟩ := modifyPort_total (change adds · t.entry) hs
  obtain ⟨l₁, hl₁, hr₁, hport₁⟩ := modifyPort_ok hg₁
  obtain ⟨g₂, hg₂⟩ := modifyPort_total (change adds · s.entry) (hr₁.ports t ▸ ht)
  obtain ⟨l₂, hl₂, hr₂, hport₂⟩ := modifyPort_ok hg₂
  refine ⟨g₂, (EState.bind_run hg₁).trans hg₂, hr₁.trans hr₂, fun u => ?_⟩
  rw [hport₁, if_neg hne.symm] at hl₂
  rw [hport₂, hport₁, hl₁, hl₂]
  by_cases hus : u = s
  · rw [if_neg (by rw [hus]; exact hne), if_pos hus, if_pos hus]
    rfl
  · rw [if_neg hus, if_neg hus]
    rfl

end EditEnds

end Graph

namespace Edit

/-- An edit that throws leaves every port list exactly when it is not one-ended. -/
theorem allOrNothing_iff (g : Graph) (c : NodeId) (e : Edit) :
    e.AllOrNothing g c ↔ ¬ e.OneEnded g c := by
  have hcomes := edit_comesTo g c e
  constructor
  · rintro hall ⟨s, t, hends, hs, hname, ht, hdel⟩
    obtain ⟨l, hl⟩ := Option.isSome_iff_exists.mp hs
    rw [hends] at hcomes
    change e.run c g = editEnds e.Adds s t g at hcomes
    obtain ⟨e', g', hrun, hwhat, -, hport⟩ := editEnds_half e.Adds hl ht
    obtain ⟨what, rfl⟩ := hwhat.mp hname
    have hs' := hport s
    rw [if_pos rfl, hall what g' (hcomes.trans hrun) s, hl] at hs'
    obtain ⟨hadds, hmem⟩ := change_eq_self_iff.mp (Option.some.inj hs').symm
    exact hmem (entries_of_port hl ▸ hdel hadds)
  · intro hone what g' hrun u
    cases hends : e.ends g c with
    | none =>
      rw [hends] at hcomes
      obtain ⟨e', hrun', -⟩ := hcomes
      rw [hrun'] at hrun
      cases hrun
      rfl
    | some st =>
      obtain ⟨s, t⟩ := st
      rw [hends] at hcomes
      change e.run c g = editEnds e.Adds s t g at hcomes
      rw [hcomes] at hrun
      cases hs : g.portList? s with
      | none =>
        obtain ⟨e', hrun', -⟩ := editEnds_no_first e.Adds (t := t) hs
        rw [hrun'] at hrun
        cases hrun
        rfl
      | some l =>
        have ht : g.portList? t = none := by
          by_contra ht
          obtain ⟨g'', hok, -⟩ := editEnds_both e.Adds (ends_ne hends)
            (Option.isSome_of_eq_some hs)
            (Option.isSome_iff_ne_none.mpr ht)
          rw [hok] at hrun
          cases hrun
        obtain ⟨e', g'', hrun', hwhat, -, hport⟩ := editEnds_half e.Adds hs ht
        rw [hrun'] at hrun
        cases hrun
        -- the first end is written, but with what it held
        have hsame : change e.Adds l t.entry = l := by
          rw [change_eq_self_iff]
          by_contra hchange
          refine hone ⟨s, t, hends, Option.isSome_of_eq_some hs, hwhat.mpr ⟨what, rfl⟩, ht, fun hadds => ?_⟩
          rw [entries_of_port hs]
          by_contra hmem
          exact hchange ⟨hadds, hmem⟩
        rw [hport, hsame]
        split_ifs with hu
        · rw [hu, hs]
        · rfl

/-- A coupled model with two submodels, the second of which has no port, seen after an internal connection
is added to it: the first one records it. -/
theorem not_allOrNothing : ∃ g : Graph,
    (do
      let top ← CoupledModel.construct "top" none (.coupled {})
      let a ← CoupledModel.addAtomicModel top "a"
      let _ ← CoupledModel.addAtomicModel top "b"
      BaseModel.addOutputPort a "o") Graph.empty = .ok () g ∧
    g.portList? ⟨1, .output, "o"⟩ = some .empty ∧
    ¬ (addInternalConnectionByName "a" "o" "b" "i").AllOrNothing g 0 := by
  refine ⟨_, rfl, rfl, fun hall => ?_⟩
  have := congrArg (Option.map ModelPortList.lst) (hall _ _ rfl ⟨1, .output, "o"⟩)
  revert this
  decide

end Edit

end Vle.Vpz
