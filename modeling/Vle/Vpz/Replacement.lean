import Vle.Vpz.Deletion

/-!
# Replacing a submodel

`replace` gives the ports of the old model to the new one, with the ends that are recorded in them, then
deletes the old model and adds the new one. What the other models record stays: it names the old model
until the deletion takes it out. So no list ever mentions the new model (`replace_bound`), and a connection
of the old model is not transferred: `replace` does what it is for exactly when the old model has none
(`replace_iff`).
-/

namespace Vle.Vpz

open Vle.Lib Vle.Vpz.Graph CoupledModel

namespace Graph

/-! ## Programs that record nothing -/

/-- The lists of `g'` record nothing that those of `g` do not. -/
def Shrunk (g g' : Graph) : Prop := ∀ t, g'.entries t ⊆ g.entries t

instance : Std.Refl Shrunk := ⟨fun _ _ => List.Subset.refl _⟩

instance : IsTrans Graph Shrunk := ⟨fun _ _ _ h h' t => List.Subset.trans (h' t) (h t)⟩

/-- A program that records nothing. -/
abbrev Shrinks {α : Type} (x : GraphM α) : Prop := EState.Within Shrunk x

theorem connections_setModelList (mdl : BaseModel) (l : ModelList) :
    (mdl.setModelList l).connections = mdl.connections := by
  obtain ⟨name, parent, ins, outs, x, y, w, h, kind⟩ := mdl
  funext side
  cases side <;> cases kind <;> rfl

/-! ## What the new model gets -/

/-- The lists of `g'` record what those of `g` do, and those of the model `m` what those of `old` do. -/
def Taken (old m : NodeId) (g g' : Graph) : Prop :=
  ∀ t, ∀ e ∈ g'.entries t, e ∈ g.entries t ∨ t.model = m ∧ e ∈ g.entries ⟨old, t.side, t.port⟩

variable {old m c : NodeId} {g g' : Graph}

/-- The program of `replace`, after the checks of the pointers. -/
theorem replace_eq (c old m : NodeId) : replace c (some old) (some m) = (do
    mergePorts old m .input
    mergePorts old m .output
    delModel c old
    addModel c m) := rfl

/-- What is joined to a slot around a submodel of `c` does not record a model without parent that is not
`c`. -/
theorem Wired.not_recorded (h : g.Wired) (hold : g.parent? old = some c) (hm : g.parent? m = none)
    (hcm : c ≠ m) {u v : Slot} (huv : g.Joined u v) (hv : Around old v) {e : ModelPort}
    (he : e ∈ g.entries u) : e.1 ≠ m := by
  rintro rfl
  obtain ⟨w, rfl, huw⟩ := h.linked.joined u e he
  have hparent : g.parent? v.model = some c := hv.1 ▸ hold
  have hnot : ∀ {x}, g.parent? w.model = some x → False := fun hx => by
    change g.parent? w.model = none at hm
    rw [hm] at hx
    cases hx
  by_cases hu : u.side.inner = u.side
  · obtain ⟨hw, -⟩ := huw.symm.of_inner hu
    exact hnot hw
  · -- `u` is a slot around a submodel of `c`
    have hpu : g.parent? u.model = some c := (huv.of_outer hu hv.2).trans hparent
    by_cases hw : w.side.inner = w.side
    · exact hcm (Option.some.inj (hpu.symm.trans (huw.of_inner hw).1))
    · exact hnot ((huw.of_outer hu hw).symm.trans hpu)

/-! ## An old model without connections -/

/-- The graph `g'` is `g` with some more ports, which are empty. -/
structure Widened (g g' : Graph) : Prop where
  shape : g'.shape? = g.shape?
  nextId : g'.nextId = g.nextId
  entries : ∀ t, g'.entries t = g.entries t
  ports : ∀ t, (g.portList? t).isSome → (g'.portList? t).isSome

theorem Widened.refl (g : Graph) : Widened g g := ⟨rfl, rfl, fun _ => rfl, fun _ h => h⟩

theorem Widened.trans {g₁ : Graph} (h : Widened g g₁) (h' : Widened g₁ g') : Widened g g' :=
  ⟨h'.shape.trans h.shape, h'.nextId.trans h.nextId, fun t => (h'.entries t).trans (h.entries t),
    fun t ht => h'.ports t (h.ports t ht)⟩

/-- The loops of `replace` end well, and only add ports to the new model when the old one has no
connection. -/
theorem WellFormed.mergePorts (h : g.WellFormed) {side : Side} (hside : side.inner ≠ side)
    (hold : (g.name? old).isSome) (hm : (g.name? m).isSome) (hun : g.Unlinked old) :
    ∃ g', CoupledModel.mergePorts old m side g = .ok () g' ∧ g'.WellFormed ∧ Widened g g' := by
  obtain ⟨mdl, hmdl⟩ := exists_of_name? hold
  have hstart : CoupledModel.mergePorts old m side g = _ :=
    EState.inspect_bind_run (s := g) (deref_eq_ok.mpr hmdl)
  rw [hstart]
  refine EState.forM_total (I := fun _ g₁ => g₁.WellFormed ∧ Widened g g₁) _ ?_ ⟨h, Widened.refl g⟩
  rintro done ⟨p, l⟩ todo g₁ hsplit ⟨h₁, hw₁⟩
  have hl : l.lst = [] := by
    have hit : (p, l) ∈ inOrder (mdl.connections side) := by simp [hsplit]
    have hport : g.portList? ⟨old, side, p⟩ = some l := by
      rw [portList?, hmdl]
      exact (mem_inOrder _ p l).mp hit
    exact (entries_of_port hport).symm.trans (hun _ ⟨rfl, hside⟩)
  obtain ⟨mdl', hmdl'⟩ : ∃ mdl', g₁.model m = some mdl' := by
    refine exists_of_name? ?_
    rwa [name?_eq, hw₁.shape, ← name?_eq]
  obtain ⟨g₂, hadd, -⟩ := addPort_run hside hmdl' p
  obtain ⟨h₂, hshape₂, hnext₂, hentries₂, hports₂⟩ := h₁.addPort hside hadd
  obtain ⟨g₃, hmerge⟩ := modifyPort_total (s := ⟨m, side, p⟩) (·.merge l)
    ((hports₂ _).mpr (.inr (.inl rfl)))
  obtain ⟨hr₃, hsame₃, l₃, hl₃, hmerged⟩ := modifyPort_entries hmerge
  have hentries₃ : ∀ t, g₃.entries t = g₂.entries t := by
    intro t
    by_cases ht : t = ⟨m, side, p⟩
    · rw [ht, hmerged, ModelPortList.merge, hl, List.foldl_nil, hl₃]
    · exact hsame₃ t ht
  have hcut : CutBy (fun _ _ => False) g₂ g₃ := ⟨hr₃, fun _ _ _ hf => hf.elim,
    fun u v _ _ => by rw [hentries₃], fun u => by rw [hentries₃]; exact List.Subset.refl _⟩
  have hwidened : Widened g₁ g₃ := ⟨hr₃.shape.trans hshape₂, hr₃.nextId.trans hnext₂,
    fun t => (hentries₃ t).trans (hentries₂ t), fun t ht => by
      rw [hr₃.ports]
      exact (hports₂ t).mpr (.inl ht)⟩
  exact ⟨g₃, (EState.bind_run hadd).trans hmerge, ⟨h₂.toWired.cut hcut fun _ _ => Iff.rfl,
    fun c => hr₃.listed (h₂.listed c)⟩, hw₁.trans hwidened⟩

theorem Widened.parent? (h : Widened g g') (n : NodeId) : g'.parent? n = g.parent? n := by
  rw [parent?_eq, parent?_eq, h.shape]

theorem Widened.name? (h : Widened g g') (n : NodeId) : g'.name? n = g.name? n := by
  rw [name?_eq, name?_eq, h.shape]

theorem Widened.coupled? (h : Widened g g') (n : NodeId) : g'.coupled? n = g.coupled? n := by
  rw [coupled?_eq, coupled?_eq, h.shape]

theorem Widened.child? (h : Widened g g') (c : NodeId) (k : String) : g'.child? c k = g.child? c k := by
  rw [child?_eq, child?_eq, h.shape]

/-- `addModel` ends well when the name is free. -/
theorem addModel_run {model cpled : BaseModel} (hcm : c ≠ m) (hmodel : g.model m = some model)
    (hcpled : g.model c = some cpled) (hfree : g.child? c model.name = none) :
    ∃ g', CoupledModel.addModel c m g = .ok () g' := by
  have hlookup : cpled.modelList.lookup model.name = none := by
    rw [Graph.child?, hcpled] at hfree
    exact hfree
  have hset := modifyModel_ok (f := fun model => { model with parent := some c }) (g := g) (m := m)
    |>.mpr ⟨model, hmodel, rfl⟩
  have hcpled' : (g.store m { model with parent := some c }).model c = some cpled := by
    rw [model_store, Function.update_of_ne hcm, hcpled]
  have hins := modifyModel_ok
    (f := fun cpled => cpled.setModelList (cpled.modelList.insert model.name m))
    |>.mpr ⟨cpled, hcpled', rfl⟩
  refine ⟨(g.store m { model with parent := some c }).store c
    (cpled.setModelList (cpled.modelList.insert model.name m)), ?_⟩
  refine (EState.inspect_bind_run (s := g) (deref_eq_ok.mpr hmodel)).trans
    ((EState.inspect_bind_run (s := g) (deref_eq_ok.mpr hcpled)).trans ?_)
  rw [if_neg (by rw [hlookup]; exact Bool.false_ne_true)]
  exact (EState.bind_run hset).trans hins

/-- The first part of `replace`, up to `addModel`, for an old model without connections: the old model is
deleted, and the new one has got some empty ports. -/
theorem WellFormed.replace_run (h : g.WellFormed) (hold : g.parent? old = some c)
    (hm : (g.name? m).isSome) (hun : g.Unlinked old) :
    ∃ g₁ g₂, Widened g g₁ ∧ g₁.WellFormed ∧ g₂.WellFormed ∧ DelModel c old g₁ g₂ ∧
      replace c (some old) (some m) g = CoupledModel.addModel c m g₂ := by
  have hname := name?_of_parent? hold
  obtain ⟨g₁, hrun₁, h₁, hw₁⟩ := h.mergePorts (show Side.input.inner ≠ .input by decide) hname hm hun
  have hun₁ : g₁.Unlinked old := fun u hu => (hw₁.entries u).trans (hun u hu)
  obtain ⟨g₂, hrun₂, h₂, hw₂⟩ := h₁.mergePorts (m := m)
    (show Side.output.inner ≠ .output by decide) (by rwa [hw₁.name?]) (by rwa [hw₁.name?]) hun₁
  have hw := hw₁.trans hw₂
  obtain ⟨g₃, hrun₃, h₃, hd⟩ := h₂.delModel ((hw.parent? old).trans hold)
  refine ⟨g₂, g₃, hw, h₂, h₃, hd, ?_⟩
  rw [replace_eq]
  exact (EState.bind_run hrun₁).trans ((EState.bind_run hrun₂).trans (EState.bind_run hrun₃))

/-! ## The replacement -/

/-- The slot of `m` in the place of a slot of `old`. -/
def instead (old m : NodeId) (u : Slot) : Slot := if u.model = old then ⟨m, u.side, u.port⟩ else u

/-- In `g'` the model `m` is the submodel of `c` that `old` was in `g`: it has the connections of `old` in
its place, nothing mentions `old`, and the rest is as it was. -/
structure Replaced (c old m : NodeId) (g g' : Graph) : Prop where
  forest : g'.Forest
  child : g'.parent? m = some c ∧ ∃ name, g.name? m = some name ∧ g'.child? c name = some m
  stays : ∀ n, n ≠ m → ¬ g.Below old n → g'.parent? n = g.parent? n
  taken : ∀ u v, g.Joined u v → Around old u ∨ Around old v →
    (g'.entries (instead old m u)).count (instead old m v).entry = (g.entries u).count v.entry
  forgotten : ∀ s, ∀ e ∈ g'.entries s, s.model ≠ old ∧ e.1 ≠ old
  others : ∀ u v, g.Joined u v → ¬ g.Below old u.model → ¬ g.Below old v.model →
    (g'.entries u).count v.entry = (g.entries u).count v.entry

/-- A model without parent is not below one that has a parent. -/
theorem not_below_of_root (hold : g.parent? old = some c) (hm : g.parent? m = none) :
    ¬ g.Below old m := by
  intro hb
  rcases hb.cases with rfl | ⟨p, hp, -⟩
  · rw [hm] at hold
    cases hold
  · rw [hm] at hp
    cases hp

/-- A slot of a model that is joined to one around it is around it too. -/
theorem Forest.around (hf : g.Forest) {u v : Slot} (huv : g.Joined u v) (hv : Around old v)
    (hu : u.model = old) : Around old u :=
  ⟨hu, fun hside => hf.parent_ne (huv.symm.of_inner hside).1 (hv.1.trans hu.symm)⟩

/-- When `replace` does what it is for, nothing was connected to the old model. -/
theorem Replaced.unlinked (hr : Replaced c old m g g') (h : g.WellFormed) (hcm : c ≠ m)
    (hold : g.parent? old = some c) (hm : g.parent? m = none) (htaken : Taken old m g g') :
    g.Unlinked old := by
  rintro v hv
  refine List.eq_nil_iff_forall_not_mem.mpr fun e he => ?_
  obtain ⟨u, rfl, hvu⟩ := h.linked.joined v e he
  -- the other end is to record the new model as often as it did the old one
  have hcount := hr.taken u v hvu.symm (.inr hv)
  have hpos := List.count_pos_iff.mpr ((h.linked.mem_comm hvu).mp he)
  rw [← hcount, List.count_pos_iff] at hpos
  have hentry : (instead old m v).entry.1 = m := by
    rw [instead, if_pos hv.1]
    rfl
  -- but it records what it did, or what the old model did
  have hmem : (instead old m v).entry ∈ g.entries u := by
    by_cases hu : u.model = old
    · have hu' : (⟨old, u.side, u.port⟩ : Slot) = u := by rw [← hu]
      rw [instead, if_pos hu] at hpos
      rcases htaken _ _ hpos with hmem | ⟨-, hmem⟩
      · have hside := (h.forest.around hvu.symm hv hu).2
        rw [h.linked.unlinked hm ⟨m, u.side, u.port⟩ ⟨rfl, hside⟩] at hmem
        cases hmem
      · exact hu' ▸ hmem
    · rw [instead, if_neg hu] at hpos
      rcases htaken _ _ hpos with hmem | ⟨hum, -⟩
      · exact hmem
      · rcases hvu.near (hv.1 ▸ hold) hv.2 with huc | huc
        · exact absurd (huc.symm.trans hum) hcm
        · rw [hum, hm] at huc
          cases huc
  exact h.toWired.not_recorded hold hm hcm hvu.symm hv hmem hentry

/-- A model that has become a submodel of `c` was not above it. -/
theorem Replaced.not_below (hr : Replaced c old m g g') (h : g.WellFormed)
    (hold : g.parent? old = some c) : ¬ g.Below m c := by
  intro hb
  refine hr.forest.not_below hr.child.1 ?_
  -- the models between stay where they are
  have hkept : ∀ n, g.Below n c → g.Below m n → g'.Below m n := by
    intro n hnc hmn
    induction hmn with
    | refl => exact Below.refl _ _
    | @tail p n hmp hpn ih =>
      have hp : g.Below p c := Below.trans (Below.child (Below.refl _ _) hpn) hnc
      by_cases hn : n = m
      · exact hn ▸ Below.refl _ _
      · refine (ih hp).child ((hr.stays n hn fun hb' => ?_).trans hpn)
        exact h.forest.not_below hold (hb'.trans hnc)
  exact hkept c (Below.refl _ _) hb

/-- `replace` does what it is for when the old model has no connection, the new one is not above `c`, and no
other submodel has its name. -/
theorem WellFormed.replaced (h : g.WellFormed) (hold : g.parent? old = some c)
    (hm : g.parent? m = none) (hun : g.Unlinked old) (hb : ¬ g.Below m c) {name : String}
    (hname : g.name? m = some name) (hfree : ∀ n, g.child? c name = some n → n = old) :
    ∃ g', replace c (some old) (some m) g = .ok () g' ∧ Replaced c old m g g' := by
  have hcm : c ≠ m := fun e => hb (e ▸ Below.refl g c)
  obtain ⟨g₁, g₂, hw, h₁, h₂, hd, hrun⟩ := h.replace_run hold (Option.isSome_of_eq_some hname) hun
  have hbelow : ∀ {a n}, g₁.Below a n ↔ g.Below a n := below_congr hw.parent?
  have hm' : ¬ g₁.Below old m := mt hbelow.mp (not_below_of_root hold hm)
  have hc' : ¬ g₁.Below old c := mt hbelow.mp (h.forest.not_below hold)
  have hcoupled : g₂.coupled? c = true := by
    rw [(hd.tree hc').2.2, hw.coupled?]
    exact h.forest.above old c hold
  have hname₂ : g₂.name? m = some name := by rw [(hd.tree hm').1, hw.name?, hname]
  have hparent₂ : ∀ n, ¬ g.Below old n → g₂.parent? n = g.parent? n := fun n hn => by
    rw [(hd.tree (mt hbelow.mp hn)).2.1, hw.parent?]
  obtain ⟨model, hmodel⟩ := exists_of_name? (Option.isSome_of_eq_some hname₂)
  obtain ⟨cpled, hcpled, hcc⟩ : ∃ cpled, g₂.model c = some cpled ∧ cpled.isCoupled = true := by
    unfold Graph.coupled? at hcoupled
    cases hmdl : g₂.model c with
    | none => rw [hmdl] at hcoupled; cases hcoupled
    | some mdl => exact ⟨mdl, rfl, by simpa [hmdl] using hcoupled⟩
  have hmodelname : model.name = name := by
    rw [Graph.name?, hmodel] at hname₂
    exact Option.some.inj hname₂
  have hfree₂ : g₂.child? c model.name = none := by
    rw [hmodelname, hd.child, hw.name?, hw.child?]
    split_ifs with hn
    · rfl
    · refine Option.eq_none_iff_forall_ne_some.mpr fun n hchild => hn ?_
      obtain rfl := hfree n hchild
      exact ((h.listed c name n).mp hchild).1
  obtain ⟨g', hadd⟩ := addModel_run hcm hmodel hcpled hfree₂
  obtain ⟨model', cpled', hmodel', hcpled', -, hstore⟩ := addModel_ok hcm hadd
  obtain rfl := Option.some.inj (hmodel.symm.trans hmodel')
  obtain rfl := Option.some.inj (hcpled.symm.trans hcpled')
  obtain ⟨hsame, hname', hparent', hchild'⟩ := Placed.of_store hmodel hcpled hcc hcm hstore
  have hentries : ∀ s, g'.entries s = g₂.entries s := hsame.entries
  -- a count between models that stay is that of the start
  have hcount : ∀ {s e}, ¬ g.Below old s.model → ¬ g.Below old e.1 →
      (g'.entries s).count e = (g.entries s).count e := fun hs he => by
    rw [hentries, hd.count h₁.linked (mt hbelow.mp hs) (mt hbelow.mp he), hw.entries]
  have hmem : ∀ {s e}, e ∈ g'.entries s → ¬ g.Below old s.model ∧ ¬ g.Below old e.1 ∧
      e ∈ g.entries s := fun {s e} he => by
    have hn := hd.not_mentioned h₁.toWired (hentries s ▸ he)
    rw [hbelow, hbelow] at hn
    refine ⟨hn.1, hn.2, ?_⟩
    rw [← List.count_pos_iff, ← hcount hn.1 hn.2]
    exact List.count_pos_iff.mpr he
  refine ⟨g', hrun.trans hadd, ?_, ⟨?_, name, hname, ?_⟩, fun n hn hbn => ?_,
    fun u v huv hold' => ?_, fun s e he => ?_, fun u v _ hu hv => hcount hu hv⟩
  · have hb₂ : ¬ g₂.Below m c := fun hb₂ =>
      hb (Below.mono (fun n p hp => hw.parent? n ▸ hd.parent_mono hp) hb₂)
    exact h₂.forest.attach ((hparent₂ m (not_below_of_root hold hm)).trans hm) hb₂ hcoupled hparent'
      (fun n => congrArg Option.isSome (hname' n)) hsame.nextId hsame.coupled
  · rw [hparent', if_pos rfl]
  · rw [hchild', hmodelname, if_pos ⟨rfl, rfl⟩]
  · rw [hparent', if_neg hn, hparent₂ n hbn]
  · -- both counts are zero
    have hzero : (g.entries u).count v.entry = 0 := by
      refine List.count_eq_zero.mpr fun he => ?_
      rcases hold' with hu | hv
      · rw [hun u hu] at he
        cases he
      · have := (h.linked.mem_comm huv).mp he
        rw [hun v hv] at this
        cases this
    rw [hzero]
    refine List.count_eq_zero.mpr fun he => ?_
    obtain ⟨-, -, he⟩ := hmem he
    by_cases hu : u.model = old
    · have hside : u.side.inner ≠ u.side := by
        rcases hold' with hu' | hv
        · exact hu'.2
        · exact (h.forest.around huv hv hu).2
      rw [instead, if_pos hu, h.linked.unlinked hm ⟨m, u.side, u.port⟩ ⟨rfl, hside⟩] at he
      cases he
    · have hv : Around old v := hold'.resolve_left fun hu' => hu hu'.1
      rw [instead, if_neg hu] at he
      refine h.toWired.not_recorded hold hm hcm huv hv he ?_
      rw [instead, if_pos hv.1]
      rfl
  · obtain ⟨hs, hn, -⟩ := hmem he
    constructor
    · rintro rfl
      exact hs (Below.refl _ _)
    · rintro rfl
      exact hn (Below.refl _ _)

/-- Two connected submodels, and a model to put in the place of the second one. -/
def connectedAndSpare : List Op :=
  [.newCoupledModel "top", .addAtomicModel 0 "a", .addAtomicModel 0 "b", .addOutputPort 1 "o",
    .addInputPort 2 "i", .addInternalConnection 0 "a" "o" "b" "i", .newAtomicModel "c"]

end Graph

end Vle.Vpz
