import Vle.Vpz.Hierarchy

/-!
# The operations keep the hierarchy

Each operation of `BaseModel` and `CoupledModel` that ends well keeps the graph well formed, and
keeps the two sides of a coupled model's port together (`Consistent`). The operations that take a
model by pointer need something of it: for `delModel`, `detachModel` and `delAllConnection` it is a
submodel of the receiver; for `addModel` and `attachModel` the receiver is not below it.
-/

namespace Vle.Vpz

open Vle.Lib Vle.Vpz.Graph

namespace Graph

/-- A hierarchy whose coupled models have both sides of each port. -/
structure Consistent (g : Graph) : Prop extends WellFormed g where
  paired : ∀ m side p, side.inner ≠ side → (g.portList? ⟨m, side.inner, p⟩).isSome →
    (g.portList? ⟨m, side, p⟩).isSome

theorem Consistent.rewire {g g' : Graph} (h : g.Consistent) (hw : g'.Wired) (hr : Rewired g g') :
    g'.Consistent :=
  ⟨⟨hw, fun c => hr.listed (h.listed c)⟩, fun m side p hside hp => by
    rw [hr.ports] at hp ⊢
    exact h.paired m side p hside hp⟩

theorem Consistent.cut {g g' : Graph} (h : g.Consistent) {C : Slot → Slot → Prop}
    (hcut : CutBy C g g') (hC : ∀ u v, C u v ↔ C v u) : g'.Consistent :=
  h.rewire (h.toWired.cut hcut hC) hcut.rewired

/-- The slot of a coupled model's port seen from outside exists with the slot itself. -/
theorem Consistent.outside {g : Graph} (h : g.Consistent) {s : Slot}
    (hs : (g.portList? s).isSome) : (g.portList? (outside s)).isSome := by
  obtain ⟨m, side, p⟩ := s
  cases side with
  | input | output => exact hs
  | internalInput => exact h.paired m .input p (by decide) hs
  | internalOutput => exact h.paired m .output p (by decide) hs

theorem findModel_ok {g : Graph} {c : NodeId} {name : String} {r : Option NodeId}
    (h : g.findModel c name = .ok r) : r = g.child? c name := by
  unfold findModel deref at h
  unfold child?
  cases hc : g.model c with
  | none => rw [hc] at h; cases h
  | some mdl => rw [hc] at h; cases h; rfl

/-- A lookup by name that a program needs gives a submodel. -/
theorem WellFormed.lookup {g g₁ : Graph} (h : g.WellFormed) {c : NodeId} {name what : String}
    {r : Option NodeId} {m : NodeId} (hr : g.findModel c name = .ok r)
    (hm : CoupledModel.nonNull r what g = .ok m g₁) : g₁ = g ∧ g.parent? m = some c := by
  cases r with
  | none => cases hm
  | some m' =>
    cases hm
    exact ⟨rfl, ((h.listed c name m).mp (findModel_ok hr).symm).2⟩

/-! ## Connections -/

/-- Connecting two joined slots. -/
theorem Consistent.connect {g g' : Graph} (h : g.Consistent) {s t : Slot} (hj : g.Joined s t)
    (hg' : (do modifyPort s (·.add t.model t.port); modifyPort t (·.add s.model s.port)) g =
      .ok () g') : g'.Consistent := by
  obtain ⟨⟨⟩, g₁, h₁, h₂⟩ := EState.bind_eq_ok.mp hg'
  obtain ⟨l₁, hl₁, hr₁, -⟩ := modifyPort_ok h₁
  obtain ⟨l₂, hl₂, -⟩ := modifyPort_ok h₂
  obtain ⟨hw, hr, -⟩ := h.toWired.connect hj h₁ h₂ (h.outside (by rw [hl₁]; rfl))
    (h.outside (by rw [← hr₁.ports, hl₂]; rfl))
  exact h.rewire hw hr

/-- Disconnecting two joined slots. -/
theorem Consistent.disconnect {g g' : Graph} (h : g.Consistent) {s t : Slot} (hj : g.Joined s t)
    (hg' : (do modifyPort s (·.remove t.model t.port); modifyPort t (·.remove s.model s.port)) g =
      .ok () g') : g'.Consistent := by
  obtain ⟨⟨⟩, g₁, h₁, h₂⟩ := EState.bind_eq_ok.mp hg'
  exact h.cut (h.toWired.disconnect hj h₁ h₂) (samePair_comm s t)

/-- A guard that throws when its condition holds has failed in a successful run. -/
theorem guard_ok {α β : Type} {p : Prop} [Decidable p] {e : Error} {k : α → GraphM β}
    {x : GraphM β} {g g' : Graph} {b : β}
    (h : (if p then throw e >>= k else x) g = .ok b g') : ¬ p ∧ x g = .ok b g' := by
  by_cases hp : p
  · rw [if_pos hp] at h
    cases h
  · rw [if_neg hp] at h
    exact ⟨hp, h⟩

theorem Consistent.addInputConnection {g g' : Graph} (h : g.Consistent) {c : NodeId}
    {portSrc dst portDst : String}
    (hg' : CoupledModel.addInputConnectionByName c portSrc dst portDst g = .ok () g') :
    g'.Consistent := by
  obtain ⟨r, g₁, hfind, hadd⟩ := EState.bind_eq_ok.mp hg'
  obtain ⟨hr, rfl⟩ := EState.inspect_eq_ok.mp hfind
  obtain ⟨d, g₂, hd, hrest⟩ := EState.bind_eq_ok.mp hadd
  obtain ⟨rfl, hparent⟩ := h.lookup hr hd
  exact h.connect (.inl (.input portSrc portDst hparent)) (guard_ok hrest).2

theorem Consistent.addOutputConnection {g g' : Graph} (h : g.Consistent) {c : NodeId}
    {src portSrc portDst : String}
    (hg' : CoupledModel.addOutputConnectionByName c src portSrc portDst g = .ok () g') :
    g'.Consistent := by
  obtain ⟨r, g₁, hfind, hadd⟩ := EState.bind_eq_ok.mp hg'
  obtain ⟨hr, rfl⟩ := EState.inspect_eq_ok.mp hfind
  obtain ⟨s, g₂, hs, hrest⟩ := EState.bind_eq_ok.mp hadd
  obtain ⟨rfl, hparent⟩ := h.lookup hr hs
  exact h.connect (.inl (.output portSrc portDst hparent)) (guard_ok hrest).2

theorem Consistent.addInternalConnection {g g' : Graph} (h : g.Consistent) {c : NodeId}
    {src portSrc dst portDst : String}
    (hg' : CoupledModel.addInternalConnectionByName c src portSrc dst portDst g = .ok () g') :
    g'.Consistent := by
  obtain ⟨r, g₁, hfind, hadd⟩ := EState.bind_eq_ok.mp hg'
  obtain ⟨hr, rfl⟩ := EState.inspect_eq_ok.mp hfind
  obtain ⟨r', g₁', hfind', hadd'⟩ := EState.bind_eq_ok.mp hadd
  obtain ⟨hr', rfl⟩ := EState.inspect_eq_ok.mp hfind'
  obtain ⟨s, g₂, hs, hrest⟩ := EState.bind_eq_ok.mp hadd'
  obtain ⟨rfl, hparent⟩ := h.lookup hr hs
  obtain ⟨d, g₃, hd, hrest'⟩ := EState.bind_eq_ok.mp hrest
  obtain ⟨rfl, hparent'⟩ := h.lookup hr' hd
  exact h.connect (.inl (.internal portSrc portDst hparent hparent'))
    (guard_ok (guard_ok hrest').2).2

theorem Consistent.delInputConnection {g g' : Graph} (h : g.Consistent) {c : NodeId}
    {portSrc dst portDst : String}
    (hg' : CoupledModel.delInputConnectionByName c portSrc dst portDst g = .ok () g') :
    g'.Consistent := by
  obtain ⟨r, g₁, hfind, hadd⟩ := EState.bind_eq_ok.mp hg'
  obtain ⟨hr, rfl⟩ := EState.inspect_eq_ok.mp hfind
  obtain ⟨d, g₂, hd, hrest⟩ := EState.bind_eq_ok.mp hadd
  obtain ⟨rfl, hparent⟩ := h.lookup hr hd
  exact h.disconnect (.inl (.input portSrc portDst hparent)) (guard_ok hrest).2

theorem Consistent.delOutputConnection {g g' : Graph} (h : g.Consistent) {c : NodeId}
    {src portSrc portDst : String}
    (hg' : CoupledModel.delOutputConnectionByName c src portSrc portDst g = .ok () g') :
    g'.Consistent := by
  obtain ⟨r, g₁, hfind, hadd⟩ := EState.bind_eq_ok.mp hg'
  obtain ⟨hr, rfl⟩ := EState.inspect_eq_ok.mp hfind
  obtain ⟨s, g₂, hs, hrest⟩ := EState.bind_eq_ok.mp hadd
  obtain ⟨rfl, hparent⟩ := h.lookup hr hs
  exact h.disconnect (.inl (.output portSrc portDst hparent)) (guard_ok hrest).2

theorem Consistent.delInternalConnection {g g' : Graph} (h : g.Consistent) {c : NodeId}
    {src portSrc dst portDst : String}
    (hg' : CoupledModel.delInternalConnectionByName c src portSrc dst portDst g = .ok () g') :
    g'.Consistent := by
  obtain ⟨r, g₁, hfind, hadd⟩ := EState.bind_eq_ok.mp hg'
  obtain ⟨hr, rfl⟩ := EState.inspect_eq_ok.mp hfind
  obtain ⟨r', g₁', hfind', hadd'⟩ := EState.bind_eq_ok.mp hadd
  obtain ⟨hr', rfl⟩ := EState.inspect_eq_ok.mp hfind'
  obtain ⟨s, g₂, hs, hrest⟩ := EState.bind_eq_ok.mp hadd'
  obtain ⟨rfl, hparent⟩ := h.lookup hr hs
  obtain ⟨d, g₃, hd, hrest'⟩ := EState.bind_eq_ok.mp (guard_ok hrest).2
  obtain ⟨rfl, hparent'⟩ := h.lookup hr' hd
  exact h.disconnect (.inl (.internal portSrc portDst hparent hparent')) (guard_ok hrest').2

/-- `delAllConnection` on a submodel of `c`. -/
theorem Consistent.delAllConnection {g g' : Graph} (h : g.Consistent) {c m : NodeId}
    (hm : g.parent? m = some c) (hg' : CoupledModel.delAllConnection c m g = .ok () g') :
    g'.Consistent ∧ Rewired g g' := by
  obtain ⟨g₁, hg₁, hcut, -⟩ := h.toWired.delAllConnection hm
  obtain rfl : g₁ = g' := by rw [hg₁] at hg'; cases hg'; rfl
  exact ⟨h.cut hcut fun u v => or_comm, hcut.rewired⟩

theorem Consistent.delAllConnections {g g' : Graph} (h : g.Consistent) {c : NodeId}
    (hg' : CoupledModel.delAllConnections c g = .ok () g') : g'.Consistent := by
  obtain ⟨cpled, g₁, hget, hloop⟩ := EState.bind_eq_ok.mp hg'
  obtain ⟨hcpled, rfl⟩ := EState.inspect_eq_ok.mp hget
  rw [deref_eq_ok] at hcpled
  refine (EState.forM_preserves (I := fun g₂ => g₂.Consistent ∧ Rewired g₁ g₂) _ ?_
    ⟨h, Rewired.refl g₁⟩ hloop).1
  rintro ⟨name, m⟩ hit g₂ g₃ ⟨h₂, hr₂⟩ hg₃
  have hm : g₁.parent? m = some c := by
    refine ((h.listed c name m).mp ?_).2
    rw [child?, hcpled, Option.bind_some, (mem_inOrder _ name m).mp hit]
  obtain ⟨h₃, hr₃⟩ := h₂.delAllConnection ((hr₂.parent? m).trans hm) hg₃
  exact ⟨h₃, hr₂.trans hr₃⟩

/-! ## Ports -/

/-- The sides of a port seen from outside have different internal sides. -/
theorem inner_inj {side side' : Side} (h : side.inner ≠ side) (h' : side'.inner ≠ side')
    (he : side.inner = side'.inner) : side = side' := by
  cases side <;> cases side' <;> simp_all [Side.inner]

theorem inner_inner (side : Side) : side.inner.inner = side.inner := by cases side <;> rfl

/-- A new port with an empty list. -/
theorem setPort_new {g : Graph} {s : Slot} {mdl : BaseModel} (hm : g.model s.model = some mdl)
    (hside : mdl.HasSide s.side) (hnone : g.portList? s = none) :
    (∀ t, (g.setPort s .empty).entries t = g.entries t) ∧
      ∀ t, ((g.setPort s .empty).portList? t).isSome ↔ (g.portList? t).isSome ∨ t = s := by
  have hport := portList?_setPort hm hside .empty
  refine ⟨fun t => ?_, fun t => ?_⟩ <;> by_cases ht : t = s
  · rw [entries_of_port (by rw [hport, if_pos ht]), entries_of_none (ht ▸ hnone)]
    rfl
  · rw [entries, hport, if_neg ht, entries]
  · simp [hport, ht]
  · simp [hport, ht]

/-- `addInputPort` and `addOutputPort` end well on a model that is there: an empty port is added, with an
internal one if the model is coupled, unless there is a port of that name. -/
theorem addPort_run {g : Graph} {side : Side} (hside : side.inner ≠ side) {m : NodeId}
    {mdl : BaseModel} (hmdl : g.model m = some mdl) (name : String) :
    ∃ g', BaseModel.addPort side m name g = .ok () g' ∧ g'.shape? = g.shape? ∧ g'.nextId = g.nextId ∧
      (∀ t, g'.entries t = g.entries t) ∧ ∀ t, (g'.portList? t).isSome ↔
        (g.portList? t).isSome ∨ g.portList? ⟨m, side, name⟩ = none ∧
          (t = ⟨m, side, name⟩ ∨ g.coupled? m = true ∧ t = ⟨m, side.inner, name⟩) := by
  have hcoupled : g.coupled? m = mdl.isCoupled := by rw [coupled?, hmdl]; rfl
  have hport : ∀ sd, g.portList? ⟨m, sd, name⟩ = (mdl.connections sd).lookup name := by
    intro sd
    rw [portList?, hmdl]
    rfl
  have hstart : BaseModel.addPort side m name g = _ :=
    EState.inspect_bind_run (s := g) (deref_eq_ok.mpr hmdl)
  rw [hstart]
  cases hlookup : (mdl.connections side).lookup name with
  | some l =>
    refine ⟨g, rfl, rfl, rfl, fun _ => rfl, fun t => ?_⟩
    rw [hport, hlookup]
    simp
  | none =>
    have hnone : g.portList? ⟨m, side, name⟩ = none := by rw [hport, hlookup]
    have houter : mdl.HasSide side := fun e => absurd e hside
    by_cases hinner : mdl.isCoupled = true ∧ (mdl.connections side.inner).lookup name = none
    · obtain ⟨hc, hi⟩ := hinner
      have hnone' : g.portList? ⟨m, side.inner, name⟩ = none := by rw [hport, hi]
      obtain ⟨he₁, hp₁⟩ := setPort_new (s := ⟨m, side.inner, name⟩) hmdl (fun _ => hc) hnone'
      obtain ⟨mdl', hmdl'⟩ : ∃ mdl', (g.setPort ⟨m, side.inner, name⟩ .empty).model m =
          some mdl' := by
        simp [setPort, hmdl]
      have hnone₁ : (g.setPort ⟨m, side.inner, name⟩ .empty).portList? ⟨m, side, name⟩ = none := by
        have := hp₁ ⟨m, side, name⟩
        rw [hnone] at this
        simpa [hside.symm] using this
      obtain ⟨he₂, hp₂⟩ := setPort_new (s := ⟨m, side, name⟩) hmdl' (fun e => absurd e hside) hnone₁
      refine ⟨(g.setPort ⟨m, side.inner, name⟩ .empty).setPort ⟨m, side, name⟩ .empty, by
        simp [hc, hi], by simp, by simp, fun t => (he₂ t).trans (he₁ t), fun t => ?_⟩
      rw [hp₂, hp₁, hcoupled, hnone]
      simp only [hc]
      tauto
    · obtain ⟨he, hp⟩ := setPort_new (s := ⟨m, side, name⟩) hmdl houter hnone
      have hskip : ¬ (mdl.isCoupled && ((mdl.connections side.inner).lookup name).isNone) = true := by
        simpa using hinner
      refine ⟨g.setPort ⟨m, side, name⟩ .empty, by simp [hskip], by simp, by simp, he, fun t => ?_⟩
      rw [hp, hcoupled, hnone]
      constructor
      · rintro (ht | ht)
        · exact .inl ht
        · exact .inr ⟨rfl, .inl ht⟩
      · rintro (ht | ⟨-, ht | ⟨hc, rfl⟩⟩)
        · exact .inl ht
        · exact .inr ht
        · refine .inl ?_
          rw [hport]
          exact Option.isSome_iff_ne_none.mpr fun e => hinner ⟨hc, e⟩

/-- What `addInputPort` and `addOutputPort` do. -/
theorem WellFormed.addPort {g g' : Graph} (h : g.WellFormed) {side : Side}
    (hside : side.inner ≠ side) {m : NodeId} {name : String}
    (hg' : BaseModel.addPort side m name g = .ok () g') :
    g'.WellFormed ∧ g'.shape? = g.shape? ∧ g'.nextId = g.nextId ∧
      (∀ t, g'.entries t = g.entries t) ∧ ∀ t, (g'.portList? t).isSome ↔
        (g.portList? t).isSome ∨ t = ⟨m, side, name⟩ ∨
          g.coupled? m = true ∧ t = ⟨m, side.inner, name⟩ := by
  obtain ⟨mdl, g₁, hget, -⟩ := EState.bind_eq_ok.mp hg'
  obtain ⟨hmdl, rfl⟩ := EState.inspect_eq_ok.mp hget
  rw [deref_eq_ok] at hmdl
  obtain ⟨g₂, hrun, hshape, hnext, hentries, hadded⟩ := addPort_run hside hmdl name
  rw [hg'] at hrun
  cases hrun
  -- a port that is there already has its internal side if the model is coupled
  have hports : ∀ t, (g'.portList? t).isSome ↔ (g₁.portList? t).isSome ∨ t = ⟨m, side, name⟩ ∨
      g₁.coupled? m = true ∧ t = ⟨m, side.inner, name⟩ := by
    intro t
    rw [hadded]
    constructor
    · exact Or.imp_right And.right
    · rintro (ht | ht)
      · exact .inl ht
      · cases hs : g₁.portList? ⟨m, side, name⟩ with
        | none => exact .inr ⟨rfl, ht⟩
        | some l =>
          have hsome : (g₁.portList? ⟨m, side, name⟩).isSome := by rw [hs]; rfl
          rcases ht with rfl | ⟨hc, rfl⟩
          · exact .inl hsome
          · exact .inl (h.linked.inner m side name hc hsome)
  refine ⟨?_, hshape, hnext, hentries, hports⟩
  have hname : ∀ n, g'.name? n = g₁.name? n := fun n => by rw [name?_eq, name?_eq, hshape]
  have hparent : ∀ n, g'.parent? n = g₁.parent? n := fun n => by
    rw [parent?_eq, parent?_eq, hshape]
  have hcoupled' : ∀ n, g'.coupled? n = g₁.coupled? n := fun n => by
    rw [coupled?_eq, coupled?_eq, hshape]
  have hjoined : ∀ {s t}, g'.Joined s t ↔ g₁.Joined s t := joined_congr hparent
  refine ⟨⟨h.forest.mono (fun n c hc => hparent n ▸ hc) (fun n hn => hname n ▸ hn) hnext
    fun _ c _ => hcoupled' c, ?_, ?_, ?_, ?_⟩, fun c k n => ?_⟩
  · intro s t hst
    rw [hentries, hentries]
    exact h.linked.count_comm (hjoined.mp (.inl hst))
  · intro s e he
    rw [hentries] at he
    obtain ⟨t, ht, hst⟩ := h.linked.joined s e he
    exact ⟨t, ht, hjoined.mpr hst⟩
  · intro n sd p hc hp
    rw [hcoupled'] at hc
    rw [hports] at hp ⊢
    rcases hp with hp | hp | ⟨hc', hp⟩
    · exact .inl (h.linked.inner n sd p hc hp)
    · cases hp
      exact .inr (.inr ⟨hc, rfl⟩)
    · cases hp
      exact .inr (.inr ⟨hc', by rw [inner_inner]⟩)
  · intro n sd p hsd he
    rw [hentries] at he
    exact (hports _).mpr (.inl (h.linked.outer n sd p hsd he))
  · rw [child?_eq, hshape, ← child?_eq, hname, hparent]
    exact h.listed c k n

/-- They keep the two sides of a port together. -/
theorem Consistent.addPort {g g' : Graph} (h : g.Consistent) {side : Side}
    (hside : side.inner ≠ side) {m : NodeId} {name : String}
    (hg' : BaseModel.addPort side m name g = .ok () g') :
    g'.Consistent ∧ g'.shape? = g.shape? ∧ g'.nextId = g.nextId ∧
      (∀ t, g'.entries t = g.entries t) ∧ ∀ t, (g'.portList? t).isSome ↔
        (g.portList? t).isSome ∨ t = ⟨m, side, name⟩ ∨
          g.coupled? m = true ∧ t = ⟨m, side.inner, name⟩ := by
  obtain ⟨hwell, hshape, hnext, hentries, hports⟩ := h.toWellFormed.addPort hside hg'
  refine ⟨⟨hwell, fun n sd p hsd hp => ?_⟩, hshape, hnext, hentries, hports⟩
  rw [hports] at hp ⊢
  rcases hp with hp | hp | ⟨hc', hp⟩
  · exact .inl (h.paired n sd p hsd hp)
  · obtain ⟨rfl, he, rfl⟩ := Slot.mk.inj hp
    rw [← he, inner_inner] at hside
    exact absurd rfl hside
  · obtain ⟨rfl, he, rfl⟩ := Slot.mk.inj hp
    rw [inner_inj hsd hside he]
    exact .inr (.inl rfl)

/-! ## Models -/

/-- Nothing is connected around a model without parent. -/
theorem Linked.unlinked {g : Graph} (h : g.Linked) {m : NodeId} (hm : g.parent? m = none) :
    g.Unlinked m := by
  intro u hu
  refine List.eq_nil_iff_forall_not_mem.mpr fun e he => ?_
  obtain ⟨t, -, hut⟩ := h.joined u e he
  have hnone : g.parent? u.model = none := hu.1.symm ▸ hm
  by_cases ht : t.side.inner = t.side
  · rw [(hut.of_inner ht).1] at hnone
    cases hnone
  · have hne : ∀ {n c}, g.parent? n = some c → n = u.model → False := by
      rintro n c hn rfl
      rw [hnone] at hn
      cases hn
    rcases hut with (⟨p, q, hs, hd⟩ | ⟨p, q, hs⟩ | ⟨p, q, hs⟩) |
      (⟨p, q, hs, hd⟩ | ⟨p, q, hs⟩ | ⟨p, q, hs⟩)
    · exact hne hs rfl
    · exact hu.2 rfl
    · exact hne hs rfl
    · exact hne hd rfl
    · exact hne hs rfl
    · exact hu.2 rfl

theorem Consistent.paired_of_same {g g' : Graph} (h : g.Consistent) (hsame : SamePorts g g') :
    ∀ m side p, side.inner ≠ side → (g'.portList? ⟨m, side.inner, p⟩).isSome →
      (g'.portList? ⟨m, side, p⟩).isSome := by
  intro m side p hside hp
  rw [hsame.ports] at hp ⊢
  exact h.paired m side p hside hp

/-- `g'` is `g` with the model `m`, of a given name, among the submodels of `c`. -/
structure Placed (c m : NodeId) (name : String) (g g' : Graph) : Prop where
  same : SamePorts g g'
  names : ∀ n, g'.name? n = g.name? n
  parents : ∀ n, g'.parent? n = if n = m then some c else g.parent? n
  children : ∀ c' k, g'.child? c' k = if c' = c ∧ k = name then some m else g.child? c' k

/-- `g'` is `g` with the submodel `m` of `c`, of a given name, made a model without parent. -/
structure Unplaced (c m : NodeId) (name : String) (g g' : Graph) : Prop where
  same : SamePorts g g'
  names : ∀ n, g'.name? n = g.name? n
  parents : ∀ n, g'.parent? n = if n = m then none else g.parent? n
  children : ∀ c' k, g'.child? c' k = if c' = c ∧ k = name then none else g.child? c' k

/-- A model without parent gets one that is not below it. -/
theorem Consistent.place {g g' : Graph} (h : g.Consistent) {m c : NodeId} {name : String}
    (hp : Placed c m name g g') (hm : g.parent? m = none) (hb : ¬ g.Below m c)
    (hc : g.coupled? c = true) (hmname : g.name? m = some name)
    (hfree : g.child? c name = none) : g'.Consistent := by
  obtain ⟨hsame, hname, hparent, hchild⟩ := hp
  have hforest := h.forest.attach hm hb hc hparent (fun n => congrArg Option.isSome (hname n))
    hsame.nextId hsame.coupled
  refine ⟨⟨h.toWired.reparent hforest hsame (· = m) (fun n hn => (hparent n).trans (if_neg hn)) ?_,
    fun c' k n => ?_⟩, h.paired_of_same hsame⟩
  · rintro n rfl
    exact h.linked.unlinked hm
  · rw [hchild, hname, hparent]
    have hlist := h.listed c' k n
    by_cases hn : n = m
    · subst hn
      rw [if_pos rfl]
      split_ifs with hck
      · rw [hck.1, hck.2]
        simp [hmname]
      · rw [hlist, hm]
        simp only [reduceCtorEq, and_false, false_iff]
        rintro ⟨hk, hc'⟩
        exact hck ⟨(Option.some.inj hc').symm, Option.some.inj (hk.symm.trans hmname)⟩
    · rw [if_neg hn]
      split_ifs with hck
      · obtain ⟨rfl, rfl⟩ := hck
        rw [← hlist, hfree]
        simpa using fun e => hn e.symm
      · exact hlist

/-- A model around which nothing is connected loses its parent. -/
theorem Consistent.unplace {g g' : Graph} (h : g.Consistent) {m c : NodeId} {name : String}
    (hp : Unplaced c m name g g') (hm : g.parent? m = some c) (hun : g.Unlinked m)
    (hmname : g.name? m = some name) : g'.Consistent := by
  obtain ⟨hsame, hname, hparent, hchild⟩ := hp
  have hparent' : ∀ n p, g'.parent? n = some p → g.parent? n = some p := by
    intro n p hp
    rw [hparent] at hp
    split_ifs at hp
    exact hp
  have hforest := h.forest.mono hparent' (fun n hn => hname n ▸ hn) hsame.nextId
    fun _ p _ => hsame.coupled p
  refine ⟨⟨h.toWired.reparent hforest hsame (· = m) (fun n hn => (hparent n).trans (if_neg hn)) ?_,
    fun c' k n => ?_⟩, h.paired_of_same hsame⟩
  · rintro n rfl
    exact hun
  · rw [hchild, hname, hparent]
    have hlist := h.listed c' k n
    by_cases hn : n = m
    · subst hn
      rw [if_pos rfl]
      simp only [reduceCtorEq, and_false, iff_false]
      split_ifs with hck
      · simp
      · rw [hlist]
        rintro ⟨hk, hp⟩
        exact hck ⟨Option.some.inj (hp.symm.trans hm), Option.some.inj (hk.symm.trans hmname)⟩
    · rw [if_neg hn]
      split_ifs with hck
      · obtain ⟨rfl, rfl⟩ := hck
        rw [← hlist, (h.listed c' k m).mpr ⟨hmname, hm⟩]
        simpa using fun e => hn e.symm
      · exact hlist

/-- A new model, without parent, port or submodel. -/
theorem Consistent.fresh {g : Graph} (h : g.Consistent) (mdl : BaseModel)
    (hp : mdl.parent = none) (hports : ∀ side, mdl.connections side = ∅)
    (hlist : mdl.modelList = ∅) :
    let g' := { g with nextId := g.nextId + 1 }.store g.nextId mdl
    g'.Consistent ∧ g.model g.nextId = none ∧ (∀ c k, g'.child? c k = g.child? c k) ∧
      ∀ n c, g'.parent? n = some c → n ≠ g.nextId ∧ c ≠ g.nextId := by
  intro g'
  have hg' : g' = { g with nextId := g.nextId + 1 }.store g.nextId mdl := rfl
  have hnone : g.model g.nextId = none := by
    cases hm : g.model g.nextId with
    | none => rfl
    | some mdl =>
      have := h.forest.bound g.nextId (by rw [Graph.name?, hm]; rfl)
      exact absurd this (lt_irrefl _)
  have hport : ∀ s, g'.portList? s = g.portList? s := by
    intro s
    rw [hg', portList?, portList?, model_store]
    by_cases hs : s.model = g.nextId
    · rw [hs, Function.update_self, Option.bind_some, hports, hnone]
      rfl
    · rw [Function.update_of_ne hs]
  have hparent : ∀ n, g'.parent? n = g.parent? n := by
    intro n
    rw [hg', parent?_store]
    split_ifs with hn
    · rw [hn, hp, Graph.parent?, hnone]
      rfl
    · rfl
  have hchild : ∀ c k, g'.child? c k = g.child? c k := by
    intro c k
    rw [hg', child?_store]
    split_ifs with hc
    · rw [hc, hlist, Graph.child?, hnone]
      rfl
    · rfl
  have hcoupled : ∀ n, n ≠ g.nextId → g'.coupled? n = g.coupled? n := by
    intro n hn
    rw [hg', coupled?_store, if_neg hn]
    rfl
  have hname : ∀ n, n ≠ g.nextId → g'.name? n = g.name? n := by
    intro n hn
    rw [hg', name?_store, if_neg hn]
    rfl
  have hold : ∀ n c, g.parent? n = some c → n ≠ g.nextId ∧ c ≠ g.nextId := by
    intro n c hn
    refine ⟨?_, ?_⟩
    · rintro rfl
      rw [Graph.parent?, hnone] at hn
      cases hn
    · rintro rfl
      have := h.forest.above n _ hn
      rw [Graph.coupled?, hnone] at this
      cases this
  have hjoined : ∀ {s t}, g'.Joined s t ↔ g.Joined s t := joined_congr hparent
  have hentries : ∀ s, g'.entries s = g.entries s := by
    intro s
    rw [Graph.entries, Graph.entries, hport]
  have hexists : ∀ s : Slot, (g.portList? s).isSome → s.model ≠ g.nextId := by
    rintro s hs e
    rw [Graph.portList?, e, hnone] at hs
    cases hs
  refine ⟨⟨⟨⟨⟨fun n hn => ?_, fun n c hc => ?_, ?_⟩, ?_, ?_, ?_, ?_⟩, fun c k n => ?_⟩, ?_⟩, hnone,
    hchild, fun n c hn => hold n c (hparent n ▸ hn)⟩
  · change n < g.nextId + 1
    by_cases e : n = g.nextId
    · exact e ▸ Nat.lt_succ_self _
    · rw [hname n e] at hn
      exact Nat.lt_succ_of_lt (h.forest.bound n hn)
  · rw [hparent] at hc
    rw [hcoupled c (hold n c hc).2]
    exact h.forest.above n c hc
  · obtain ⟨rank, hrank⟩ := h.forest.acyclic
    exact ⟨rank, fun n c hc => hrank n c (hparent n ▸ hc)⟩
  · intro s t hst
    rw [hentries, hentries]
    exact h.linked.count_comm (hjoined.mp (.inl hst))
  · intro s e he
    rw [hentries] at he
    obtain ⟨t, ht, hst⟩ := h.linked.joined s e he
    exact ⟨t, ht, hjoined.mpr hst⟩
  · intro n side p hc hs
    rw [hport] at hs ⊢
    exact h.linked.inner n side p (hcoupled n (hexists _ hs) ▸ hc) hs
  · intro n side p hside he
    rw [hentries] at he
    rw [hport]
    exact h.linked.outer n side p hside he
  · rw [hchild, hparent, h.listed c k n]
    refine and_congr_left fun hn => ?_
    rw [hname n (hold n c hn).1]
  · intro n side p hside hs
    rw [hport] at hs ⊢
    exact h.paired n side p hside hs

/-- What writing the parent of `m` and the list of `c` changes. -/
theorem samePorts_move {g : Graph} {m c : NodeId} {model cpled : BaseModel}
    (hm : g.model m = some model) (hc : g.model c = some cpled) (hcc : cpled.isCoupled = true)
    (hcm : c ≠ m) (parent : Option NodeId) (l : ModelList) {g' : Graph}
    (hg' : g' = (g.store m { model with parent }).store c (cpled.setModelList l)) :
    SamePorts g g' ∧ (∀ n, g'.name? n = g.name? n) ∧
      (∀ n, g'.parent? n = if n = m then parent else g.parent? n) ∧
      ∀ c' k, g'.child? c' k = if c' = c then l.lookup k else g.child? c' k := by
  set g₁ := g.store m { model with parent } with hg₁
  have hc₁ : g₁.model c = some cpled := by rw [hg₁, model_store, Function.update_of_ne hcm, hc]
  obtain ⟨hsame, hname, hparent⟩ := samePorts_setModelList hc₁ l
  rw [← hg'] at hsame hname hparent
  have hcoupled : ∀ n, g₁.coupled? n = g.coupled? n := by
    intro n
    rw [hg₁, coupled?_store]
    split_ifs with e
    · rw [e, coupled?, hm]; rfl
    · rfl
  refine ⟨⟨fun s => ?_, fun n => (hsame.coupled n).trans (hcoupled n), hsame.nextId⟩,
    fun n => ?_, fun n => ?_, fun c' k => ?_⟩
  · rw [hsame.ports]
    exact portList?_store hm (by funext side; cases side <;> rfl) s
  · rw [hname, hg₁, name?_store]
    split_ifs with e
    · rw [e, Graph.name?, hm]; rfl
    · rfl
  · rw [hparent, hg₁, parent?_store]
  · rw [hg', child?_store, BaseModel.modelList_setModelList hcc]
    split_ifs with e
    · rfl
    · rw [hg₁, child?_store]
      split_ifs with e'
      · rw [e', Graph.child?, hm]; rfl
      · rfl

theorem Placed.of_store {g g' : Graph} {m c : NodeId} {model cpled : BaseModel}
    (hm : g.model m = some model) (hc : g.model c = some cpled) (hcc : cpled.isCoupled = true)
    (hcm : c ≠ m) (hg' : g' = (g.store m { model with parent := some c }).store c
      (cpled.setModelList (cpled.modelList.insert model.name m))) :
    Placed c m model.name g g' := by
  obtain ⟨hsame, hname, hparent, hchild⟩ := samePorts_move hm hc hcc hcm _ _ hg'
  refine ⟨hsame, hname, hparent, fun c' k => ?_⟩
  rw [hchild]
  by_cases hc' : c' = c
  · rw [if_pos hc']
    by_cases hk : k = model.name
    · rw [hk, AList.lookup_insert, if_pos ⟨hc', rfl⟩]
    · rw [AList.lookup_insert_ne hk, if_neg (by tauto), hc', child?, hc]
      rfl
  · rw [if_neg hc', if_neg (by tauto)]

/-- What a successful `addModel` has done. -/
theorem addModel_ok {g g' : Graph} {c m : NodeId} (hcm : c ≠ m)
    (hg' : CoupledModel.addModel c m g = .ok () g') :
    ∃ model cpled, g.model m = some model ∧ g.model c = some cpled ∧ g.child? c model.name = none ∧
      g' = (g.store m { model with parent := some c }).store c
        (cpled.setModelList (cpled.modelList.insert model.name m)) := by
  obtain ⟨model, g₁, hget, hrest⟩ := EState.bind_eq_ok.mp hg'
  obtain ⟨hmodel, rfl⟩ := EState.inspect_eq_ok.mp hget
  obtain ⟨cpled, g₂, hget₂, hrest₂⟩ := EState.bind_eq_ok.mp hrest
  obtain ⟨hcpled, rfl⟩ := EState.inspect_eq_ok.mp hget₂
  rw [deref_eq_ok] at hmodel hcpled
  obtain ⟨hfree, hrest₃⟩ := guard_ok hrest₂
  obtain ⟨⟨⟩, g₃, hparent, hinsert⟩ := EState.bind_eq_ok.mp hrest₃
  obtain ⟨model', hm', rfl⟩ := modifyModel_ok.mp hparent
  obtain rfl : model = model' := Option.some.inj (hmodel.symm.trans hm')
  obtain ⟨cpled', hc', hg₃⟩ := modifyModel_ok.mp hinsert
  rw [model_store, Function.update_of_ne hcm] at hc'
  obtain rfl : cpled = cpled' := Option.some.inj (hcpled.symm.trans hc')
  refine ⟨model, cpled, hmodel, hcpled, ?_, hg₃⟩
  rw [child?, hcpled]
  simpa using hfree

theorem isCoupled_of_coupled? {g : Graph} {c : NodeId} {cpled : BaseModel}
    (hc : g.coupled? c = true) (hcpled : g.model c = some cpled) : cpled.isCoupled = true := by
  simpa [coupled?, hcpled] using hc

/-- `addModel` on a model without parent that has not `c` below it. -/
theorem Consistent.addModel {g g' : Graph} (h : g.Consistent) {c m : NodeId}
    (hc : g.coupled? c = true) (hm : g.parent? m = none) (hb : ¬ g.Below m c)
    (hg' : CoupledModel.addModel c m g = .ok () g') :
    g'.Consistent ∧ ∃ name, g.name? m = some name ∧ Placed c m name g g' := by
  have hcm : c ≠ m := by
    rintro rfl
    exact hb (Below.refl _ _)
  obtain ⟨model, cpled, hmodel, hcpled, hfree, hstore⟩ := addModel_ok hcm hg'
  have hplaced := Placed.of_store hmodel hcpled (isCoupled_of_coupled? hc hcpled) hcm hstore
  have hname : g.name? m = some model.name := by rw [Graph.name?, hmodel]; rfl
  exact ⟨h.place hplaced hm hb hc hname hfree, _, hname, hplaced⟩

/-- Writing a list of submodels that says what the present one does. -/
theorem Consistent.relist {g : Graph} (h : g.Consistent) {c : NodeId} {cpled : BaseModel}
    (hc : g.model c = some cpled) (hcc : cpled.isCoupled = true) {l : ModelList}
    (hl : ∀ k, l.lookup k = g.child? c k) : (g.store c (cpled.setModelList l)).Consistent := by
  obtain ⟨hsame, hname, hparent⟩ := samePorts_setModelList hc l
  refine ⟨⟨h.toWired.relist hsame hname hparent, fun c' k n => ?_⟩, h.paired_of_same hsame⟩
  rw [hname, hparent, child?_store, BaseModel.modelList_setModelList hcc, ← h.listed c' k n]
  split_ifs with e
  · rw [hl, e]
  · rfl

/-- The constructors keep the hierarchy: a new model that is given a parent is added to it. -/
theorem Consistent.construct {g g' : Graph} (h : g.Consistent) {name : String} {x : NodeId}
    {parent : Option NodeId} {kind : Kind} (hparent : ∀ c, parent = some c → g.coupled? c = true)
    (hkind : kind = .atomic {} ∨ kind = .coupled {})
    (hg' : CoupledModel.construct name parent kind g = .ok x g') :
    g'.Consistent ∧ ∀ c, parent = some c → g'.coupled? c = true ∧ g'.child? c name = some x := by
  obtain ⟨_, _, hget, hrest⟩ := EState.bind_eq_ok.mp hg'
  cases hget
  obtain ⟨⟨⟩, g₁, hset, hrest₁⟩ := EState.bind_eq_ok.mp hrest
  -- The new model, as if it had been made without parent.
  set mdl : BaseModel := { name, parent := none, kind } with hmdl
  set g₀ : Graph := { g with nextId := g.nextId + 1 }.store g.nextId mdl with hg₀
  obtain ⟨h₀, hnone, hchild, hold⟩ := h.fresh mdl rfl
    (by intro side; rcases hkind with rfl | rfl <;> cases side <;> rfl)
    (by rcases hkind with rfl | rfl <;> rfl)
  rw [← hg₀] at h₀ hchild hold
  cases parent with
  | none =>
    cases hset
    cases hrest₁
    exact ⟨h₀, nofun⟩
  | some c =>
    obtain ⟨⟨⟩, g₂, hadd, hret⟩ := EState.bind_eq_ok.mp hrest₁
    cases hret
    rw [EState.onError_eq_ok] at hadd
    have hc := hparent c rfl
    have hcx : c ≠ g.nextId := by
      rintro rfl
      rw [coupled?, hnone] at hc
      cases hc
    have hmdl₀ : g₀.model g.nextId = some mdl := by rw [hg₀, model_store, Function.update_self]
    obtain rfl : { g with nextId := g.nextId + 1 }.store g.nextId
        { name, parent := some c, kind } = g₁ := by simpa using hset
    obtain ⟨model, cpled, hmodel, hcpled, hfree, hstore⟩ := addModel_ok hcx hadd
    rw [model_store, Function.update_self] at hmodel
    cases hmodel
    rw [model_store, Function.update_of_ne hcx] at hcpled
    have hcpled₀ : g₀.model c = some cpled := by
      rw [hg₀, model_store, Function.update_of_ne hcx]
      exact hcpled
    have hcc : cpled.isCoupled = true := isCoupled_of_coupled? hc hcpled
    have hplaced : Placed c g.nextId name g₀ g' := by
      refine Placed.of_store hmdl₀ hcpled₀ hcc hcx (hstore.trans ?_)
      simp [hg₀, hmdl, Graph.store]
    have hc₀ : g₀.coupled? c = true := by rw [coupled?, hcpled₀]; exact hcc
    have hleaf : ∀ n, g₀.Below g.nextId n → n = g.nextId := by
      intro n hn
      induction hn with
      | refl => rfl
      | tail _ hp ih => exact absurd ih (hold _ _ hp).2
    refine ⟨h₀.place hplaced ?_ (fun hb => hcx (hleaf c hb)) hc₀ ?_ ?_, ?_⟩
    · rw [Graph.parent?, hmdl₀]; rfl
    · rw [Graph.name?, hmdl₀]; rfl
    · rw [child?, hcpled₀]
      rw [child?, model_store, Function.update_of_ne hcx, hcpled] at hfree
      exact hfree
    · rintro _ ⟨⟩
      refine ⟨(hplaced.same.coupled c).trans hc₀, ?_⟩
      rw [hplaced.children, if_pos ⟨rfl, rfl⟩]

/-- `addAtomicModel` and `addCoupledModel`, which insert the new model a second time. -/
theorem Consistent.addNewModel {g g' : Graph} (h : g.Consistent) {c x : NodeId} {name : String}
    {kind : Kind} (hc : g.coupled? c = true) (hkind : kind = .atomic {} ∨ kind = .coupled {})
    (hg' : CoupledModel.addNewModel c name kind g = .ok x g') : g'.Consistent := by
  obtain ⟨cpled, g₁, hget, hrest⟩ := EState.bind_eq_ok.mp hg'
  obtain ⟨-, rfl⟩ := EState.inspect_eq_ok.mp hget
  obtain ⟨y, g₂, hnew, hrest₂⟩ := EState.bind_eq_ok.mp (guard_ok hrest).2
  obtain ⟨⟨⟩, g₃, hinsert, hret⟩ := EState.bind_eq_ok.mp hrest₂
  cases hret
  obtain ⟨h₂, hchild⟩ := h.construct (by rintro _ ⟨⟩; exact hc) hkind hnew
  obtain ⟨hc₂, hx⟩ := hchild c rfl
  obtain ⟨cpled₂, hcpled₂, rfl⟩ := modifyModel_ok.mp hinsert
  refine h₂.relist hcpled₂ (isCoupled_of_coupled? hc₂ hcpled₂) fun k => ?_
  by_cases hk : k = name
  · rw [hk, AList.lookup_insert, hx]
  · rw [AList.lookup_insert_ne hk, child?, hcpled₂]
    rfl

/-- `delModel` on a submodel of `c`. -/
theorem Consistent.delModel {g g' : Graph} (h : g.Consistent) {c m : NodeId}
    (hm : g.parent? m = some c) (hg' : CoupledModel.delModel c m g = .ok () g') :
    g'.Consistent := by
  obtain ⟨g₁, hg₁, hwf, ⟨g₂, hcut, -, hremoved, -⟩, -⟩ := h.toWellFormed.delModel hm
  obtain rfl : g₁ = g' := by rw [hg₁] at hg'; cases hg'; rfl
  refine ⟨hwf, fun n side p hside hp => ?_⟩
  have hn : ¬ g₂.Below m n := fun hb => by
    rw [portList?, hremoved.gone n hb] at hp
    cases hp
  rw [hremoved.ports _ hn, hcut.rewired.ports] at hp ⊢
  exact h.paired n side p hside hp

/-- `delAllModel` on a coupled model. -/
theorem Consistent.delAllModel {g g' : Graph} (h : g.Consistent) {c : NodeId}
    (hc : g.coupled? c = true) (hg' : CoupledModel.delAllModel c g = .ok () g') :
    g'.Consistent := by
  obtain ⟨cpled, hcpled⟩ : ∃ cpled, g.model c = some cpled := by
    refine Option.isSome_iff_exists.mp ?_
    unfold coupled? at hc
    cases hm : g.model c with
    | none => rw [hm] at hc; cases hc
    | some mdl => rfl
  obtain ⟨rank, hrank, hbound⟩ := h.forest.exists_rank
  obtain ⟨g₁, hg₁, hempty⟩ := h.toWired.delAllModelWith hcpled (isCoupled_of_coupled? hc hcpled)
    (fun c' _ => h.listed c') (CoupledModel.deleteModel g.nextId)
    fun y hy g₂ h₂ hparent₂ hname₂ hy₂ hlisted₂ =>
      h₂.deleteModel (N := g.nextId) rank g.nextId (fun n c hn => hrank n c (hparent₂ n c hn))
        (fun n hn => hbound n (hname₂ n hn)) hy₂ (Nat.le_add_left _ _) hlisted₂
  obtain rfl : g₁ = g' := by
    have := hg'.symm.trans hg₁
    cases this
    rfl
  have hparent : ∀ it ∈ inOrder cpled.modelList, g.parent? it.2 = some c := by
    rintro ⟨k, y⟩ hit
    refine ((h.listed c k y).mp ?_).2
    rw [child?, hcpled, Option.bind_some, (mem_inOrder _ k y).mp hit]
  -- No submodel is left.
  have hnone : ∀ n, g₁.parent? n ≠ some c := by
    intro n hn
    have hp := hempty.parent?_mono hn
    obtain ⟨k, hk⟩ := Option.isSome_iff_exists.mp (name?_of_parent? hp)
    have hlookup := (h.listed c k n).mpr ⟨hk, hp⟩
    rw [child?, hcpled, Option.bind_some] at hlookup
    have hgone := hempty.gone (k, n) ((mem_inOrder _ k n).mpr hlookup) n (Below.refl g n)
    rw [Graph.parent?, hgone] at hn
    cases hn
  refine ⟨⟨hempty.wired, fun c' => ?_⟩, fun n side p hside hp => ?_⟩
  · by_cases hc' : c' = c
    · subst hc'
      refine fun k n => ⟨fun hk => ?_, fun hk => absurd hk.2 (hnone n)⟩
      rw [hempty.child] at hk
      split_ifs at hk with hdone
      rw [child?, hcpled, Option.bind_some] at hk
      exact absurd (List.mem_map_of_mem ((mem_inOrder _ k n).mpr hk)) hdone
    · by_cases hup : ∀ it ∈ inOrder cpled.modelList, ¬ g.Below it.2 c'
      · exact hempty.listed (h.listed c') hc' hparent hup
      · push Not at hup
        obtain ⟨it, hit, hb⟩ := hup
        have hgone := hempty.gone it hit c' hb
        intro k n
        rw [child?, hgone]
        simp only [Option.bind_none, reduceCtorEq, false_iff]
        intro hk
        have hn := hempty.gone it hit n (hb.child (hempty.parent?_mono hk.2))
        rw [Graph.parent?, hn] at hk
        cases hk.2
  · have hn : (g₁.name? n).isSome := by
      rw [Graph.name?, Option.isSome_map]
      rw [portList?] at hp
      cases hm : g₁.model n with
      | none => rw [hm] at hp; cases hp
      | some mdl => rfl
    rw [hempty.ports _ hn] at hp ⊢
    exact h.paired n side p hside hp

/-- A submodel, found by its name in the list of its parent. -/
theorem Consistent.lookup_name {g : Graph} (h : g.Consistent) {c m : NodeId} {model cpled : BaseModel}
    (hm : g.model m = some model) (hc : g.model c = some cpled) (hp : g.parent? m = some c) :
    cpled.modelList.lookup model.name = some m := by
  have := (h.listed c model.name m).mpr ⟨by rw [Graph.name?, hm]; rfl, hp⟩
  rwa [child?, hc] at this

/-- `detachModel` on a submodel around which nothing is connected. -/
theorem Consistent.detachModel {g g' : Graph} (h : g.Consistent) {c m : NodeId}
    (hp : g.parent? m = some c) (hun : g.Unlinked m)
    (hg' : CoupledModel.detachModel c m g = .ok () g') :
    g'.Consistent ∧ ∃ name, g.name? m = some name ∧ Unplaced c m name g g' := by
  obtain ⟨model, g₁, hget, hrest⟩ := EState.bind_eq_ok.mp hg'
  obtain ⟨hmodel, rfl⟩ := EState.inspect_eq_ok.mp hget
  obtain ⟨cpled, g₂, hget₂, hrest₂⟩ := EState.bind_eq_ok.mp hrest
  obtain ⟨hcpled, rfl⟩ := EState.inspect_eq_ok.mp hget₂
  rw [deref_eq_ok] at hmodel hcpled
  rw [h.lookup_name hmodel hcpled hp] at hrest₂
  obtain ⟨⟨⟩, g₃, hparent, herase⟩ := EState.bind_eq_ok.mp hrest₂
  obtain ⟨model', hm', rfl⟩ := modifyModel_ok.mp hparent
  obtain rfl : model = model' := Option.some.inj (hmodel.symm.trans hm')
  have hcm : c ≠ m := (h.forest.parent_ne hp).symm
  obtain ⟨cpled', hc', hg₃⟩ := modifyModel_ok.mp herase
  rw [model_store, Function.update_of_ne hcm] at hc'
  obtain rfl : cpled = cpled' := Option.some.inj (hcpled.symm.trans hc')
  have hcc := isCoupled_of_coupled? (h.forest.above m c hp) hcpled
  obtain ⟨hsame, hname, hparent', hchild⟩ := samePorts_move hmodel hcpled hcc hcm _ _ hg₃
  have hmname : g₂.name? m = some model.name := by rw [Graph.name?, hmodel]; rfl
  have hunplaced : Unplaced c m model.name g₂ g' := by
    refine ⟨hsame, hname, hparent', fun c' k => ?_⟩
    rw [hchild]
    by_cases e : c' = c
    · rw [if_pos e]
      by_cases hk : k = model.name
      · rw [hk, AList.lookup_erase, if_pos ⟨e, rfl⟩]
      · rw [AList.lookup_erase_ne hk, if_neg (by tauto), e, child?, hcpled]
        rfl
    · rw [if_neg e, if_neg (by tauto)]
  exact ⟨h.unplace hunplaced hp hun hmname, _, hmname, hunplaced⟩

/-- Where nothing is connected around a model, it may leave its parent and get another one. -/
theorem Consistent.attach {g g' : Graph} (h : g.Consistent) {c m : NodeId}
    (hc : g.coupled? c = true) (hm : g.parent? m = none) (hb : ¬ g.Below m c) {name : String}
    (hname : g.name? m = some name) (hfree : g.child? c name = none)
    (hg' : (do
      modifyModel c fun cpled => cpled.setModelList (cpled.modelList.insert name m)
      modifyModel m fun model => { model with parent := some c }) g = .ok () g') :
    g'.Consistent := by
  obtain ⟨⟨⟩, g₁, hinsert, hparent⟩ := EState.bind_eq_ok.mp hg'
  obtain ⟨cpled, hcpled, rfl⟩ := modifyModel_ok.mp hinsert
  obtain ⟨model, hmodel, hstore⟩ := modifyModel_ok.mp hparent
  have hcm : c ≠ m := by
    rintro rfl
    exact hb (Below.refl _ _)
  rw [model_store, Function.update_of_ne hcm.symm] at hmodel
  have hmname : model.name = name := by simpa [Graph.name?, hmodel] using hname
  have hplaced : Placed c m model.name g g' := by
    refine Placed.of_store hmodel hcpled (isCoupled_of_coupled? hc hcpled) hcm (hstore.trans ?_)
    -- The two objects are written in the other order.
    simp only [Graph.store, hmname]
    rw [Function.update_comm hcm]
  exact h.place hplaced hm hb hc (hmname ▸ hname) (hmname ▸ hfree)

/-- `attachModel` on a model around which nothing is connected and that has not `c` below it. -/
theorem Consistent.attachModel {g g' : Graph} (h : g.Consistent) {c m : NodeId}
    (hc : g.coupled? c = true) (hun : g.Unlinked m) (hb : ¬ g.Below m c)
    (hg' : CoupledModel.attachModel c m g = .ok () g') : g'.Consistent := by
  obtain ⟨model, g₁, hget, hrest⟩ := EState.bind_eq_ok.mp hg'
  obtain ⟨hmodel, rfl⟩ := EState.inspect_eq_ok.mp hget
  rw [deref_eq_ok] at hmodel
  obtain ⟨exist, g₂, hget₂, hrest₂⟩ := EState.bind_eq_ok.mp hrest
  obtain ⟨hexist, rfl⟩ := EState.inspect_eq_ok.mp hget₂
  obtain ⟨hfresh, hrest₃⟩ := guard_ok hrest₂
  have hfree : g₂.child? c model.name = none := by
    obtain ⟨r, hr, hsome⟩ : ∃ r, g₂.findModel c model.name = .ok r ∧ r.isSome = exist := by
      unfold Graph.exist at hexist
      cases hr : g₂.findModel c model.name with
      | error e => rw [hr] at hexist; cases hexist
      | ok r => rw [hr] at hexist; cases hexist; exact ⟨r, rfl, rfl⟩
    rw [← findModel_ok hr]
    rw [← hsome] at hfresh
    simpa using hfresh
  have hmname : g₂.name? m = some model.name := by rw [Graph.name?, hmodel]; rfl
  cases hp : model.parent with
  | none =>
    rw [hp] at hrest₃
    exact h.attach hc (by rw [Graph.parent?, hmodel]; exact hp) hb hmname hfree hrest₃
  | some p =>
    rw [hp] at hrest₃
    obtain ⟨⟨⟩, g₃, hdetach, hattach⟩ := EState.bind_eq_ok.mp hrest₃
    have hparent : g₂.parent? m = some p := by rw [Graph.parent?, hmodel]; exact hp
    obtain ⟨h₃, name, hname, hun₃⟩ := h.detachModel hparent hun hdetach
    obtain rfl : name = model.name := Option.some.inj (hname.symm.trans hmname)
    refine h₃.attach ((hun₃.same.coupled c).trans hc) ?_ ?_ ((hun₃.names m).trans hmname) ?_ hattach
    · rw [hun₃.parents, if_pos rfl]
    · refine fun hb₃ => hb (hb₃.mono fun n a hn => ?_)
      rw [hun₃.parents] at hn
      split_ifs at hn
      exact hn
    · rw [hun₃.children]
      split_ifs
      · rfl
      · exact hfree

/-- A submodel, or a model without parent, gets a new name. -/
theorem Consistent.renamed {g g' : Graph} (h : g.Consistent) (hsame : SamePorts g g') {m : NodeId}
    {old new : String} (hold : g.name? m = some old)
    (hname : ∀ n, g'.name? n = if n = m then some new else g.name? n)
    (hparent : ∀ n, g'.parent? n = g.parent? n)
    (hfree : ∀ p, g.parent? m = some p → g.child? p new = none)
    (hchild : ∀ c k, g'.child? c k = if g.parent? m = some c ∧ k = new then some m else
      if g.parent? m = some c ∧ k = old then none else g.child? c k) : g'.Consistent := by
  have hforest : g'.Forest := h.forest.mono (fun n _ hc => hparent n ▸ hc) (fun n hn => by
    rw [hname] at hn
    split_ifs at hn with e
    · rw [e, hold]; rfl
    · exact hn) hsame.nextId fun _ c _ => hsame.coupled c
  refine ⟨⟨h.toWired.reparent hforest hsame (fun _ => False) (fun n _ => hparent n) nofun,
    fun c k n => ?_⟩, h.paired_of_same hsame⟩
  have hlist := h.listed c
  rw [hchild, hname, hparent]
  by_cases hn : n = m
  · subst hn
    rw [if_pos rfl]
    by_cases hp : g.parent? n = some c
    · have hk : g.child? c k = some n ↔ k = old := by
        rw [hlist, hold]
        simp [hp, eq_comm]
      simp only [hp, true_and, and_true]
      split_ifs with hk' hk''
      · simp [hk']
      · simpa [eq_comm] using hk'
      · rw [hk]
        simp [hk'', Ne.symm hk']
    · have hk : g.child? c k ≠ some n := fun e => hp ((hlist k n).mp e).2
      simp [hp, hk]
  · rw [if_neg hn, ← hlist k n]
    split_ifs with hp hp'
    · obtain ⟨hp, rfl⟩ := hp
      rw [hfree c hp]
      simpa using fun e => hn e.symm
    · obtain ⟨hp, rfl⟩ := hp'
      rw [(hlist k m).mpr ⟨hold, hp⟩]
      simpa using fun e => hn e.symm
    · exact Iff.rfl

/-- `rename` on any model. -/
theorem Consistent.rename {g g' : Graph} (h : g.Consistent) {m : NodeId} {newname : String}
    (hg' : BaseModel.rename m newname g = .ok () g') : g'.Consistent := by
  obtain ⟨mdl, g₁, hget, hrest⟩ := EState.bind_eq_ok.mp hg'
  obtain ⟨hmdl, rfl⟩ := EState.inspect_eq_ok.mp hget
  rw [deref_eq_ok] at hmdl
  have hold : g₁.name? m = some mdl.name := by rw [Graph.name?, hmdl]; rfl
  have hparent₀ : g₁.parent? m = mdl.parent := by rw [Graph.parent?, hmdl]; rfl
  set g₂ := g₁.store m { mdl with name := newname } with hg₂
  have hsame₂ : SamePorts g₁ g₂ := by
    refine ⟨portList?_store hmdl (by funext side; cases side <;> rfl), fun n => ?_, rfl⟩
    rw [hg₂, coupled?_store]
    split_ifs with e
    · rw [e, coupled?, hmdl]; rfl
    · rfl
  have hname₂ : ∀ n, g₂.name? n = if n = m then some newname else g₁.name? n := fun n => by
    rw [hg₂, name?_store]
  have hparent₂ : ∀ n, g₂.parent? n = g₁.parent? n := by
    intro n
    rw [hg₂, parent?_store]
    split_ifs with e
    · rw [e, hparent₀]
    · rfl
  have hchild₂ : ∀ c k, g₂.child? c k = g₁.child? c k := by
    intro c k
    rw [hg₂, child?_store]
    split_ifs with e
    · rw [e, child?, hmdl]; rfl
    · rfl
  cases hp : mdl.parent with
  | none =>
    rw [hp] at hrest hparent₀
    obtain ⟨mdl', hmdl', rfl⟩ := modifyModel_ok.mp hrest
    obtain rfl : mdl = mdl' := Option.some.inj (hmdl.symm.trans hmdl')
    refine h.renamed hsame₂ hold hname₂ hparent₂ (by simp [hparent₀]) fun c k => ?_
    rw [hchild₂, hparent₀]
    simp
  | some p =>
    rw [hp] at hrest hparent₀
    obtain ⟨par, g₃, hget₃, hrest₃⟩ := EState.bind_eq_ok.mp hrest
    obtain ⟨hpar, rfl⟩ := EState.inspect_eq_ok.mp hget₃
    rw [deref_eq_ok] at hpar
    obtain ⟨-, hrest₄⟩ := guard_ok hrest₃
    obtain ⟨hnew, hrest₅⟩ := guard_ok hrest₄
    obtain ⟨⟨⟩, g₄, hmod, hrest₆⟩ := EState.bind_eq_ok.mp hrest₅
    obtain ⟨mdl', hmdl', rfl⟩ := modifyModel_ok.mp hmod
    obtain rfl : mdl = mdl' := Option.some.inj (hmdl.symm.trans hmdl')
    rw [← hg₂] at hrest₆
    obtain ⟨⟨⟩, g₅, herase, hadd⟩ := EState.bind_eq_ok.mp hrest₆
    have hpm : p ≠ m := (h.forest.parent_ne hparent₀).symm
    have hpar₂ : g₂.model p = some par := by rw [hg₂, model_store, Function.update_of_ne hpm, hpar]
    have hpc : par.isCoupled = true := isCoupled_of_coupled? (h.forest.above m p hparent₀) hpar
    obtain ⟨par', hpar', rfl⟩ := modifyModel_ok.mp herase
    obtain rfl : par = par' := Option.some.inj (hpar₂.symm.trans hpar')
    obtain ⟨hsame₅, hname₅, hparent₅⟩ :=
      samePorts_setModelList hpar₂ (par.modelList.erase mdl.name)
    set g₅ := g₂.store p (par.setModelList (par.modelList.erase mdl.name)) with hg₅
    have hm₅ : g₅.model m = some { mdl with name := newname } := by
      rw [hg₅, model_store, Function.update_of_ne hpm.symm, hg₂, model_store, Function.update_self]
    have hp₅ : g₅.model p = some (par.setModelList (par.modelList.erase mdl.name)) := by
      rw [hg₅, model_store, Function.update_self]
    obtain ⟨model, cpled, hmodel, hcpled, hfree, hstore⟩ := addModel_ok hpm hadd
    obtain rfl := Option.some.inj (hm₅.symm.trans hmodel)
    obtain rfl := Option.some.inj (hp₅.symm.trans hcpled)
    obtain ⟨hsame₆, hname₆, hparent₆, hchild₆⟩ :=
      Placed.of_store hm₅ hp₅ (by simpa using hpc) hpm hstore
    have hsame : SamePorts g₃ g' :=
      ⟨fun s => (hsame₆.ports s).trans ((hsame₅.ports s).trans (hsame₂.ports s)),
        fun n => (hsame₆.coupled n).trans ((hsame₅.coupled n).trans (hsame₂.coupled n)),
        hsame₆.nextId.trans (hsame₅.nextId.trans hsame₂.nextId)⟩
    have hname : ∀ n, g'.name? n = if n = m then some newname else g₃.name? n := fun n => by
      rw [hname₆, hname₅, hname₂]
    refine h.renamed hsame hold hname (fun n => ?_) (fun q hq => ?_) fun c k => ?_
    · rw [hparent₆, hparent₅, hparent₂]
      split_ifs with e
      · rw [e, hparent₀]
      · rfl
    · obtain rfl : p = q := Option.some.inj (hparent₀.symm.trans hq)
      rw [child?, hpar]
      simpa using hnew
    · rw [hchild₆, hparent₀, hg₅, child?_store, BaseModel.modelList_setModelList hpc, hchild₂]
      by_cases e : c = p
      · subst e
        have hold' : (par.modelList.erase mdl.name).lookup k =
            if k = mdl.name then none else g₃.child? c k := by
          split_ifs with hk
          · rw [hk, AList.lookup_erase]
          · rw [AList.lookup_erase_ne hk, child?, hpar]
            rfl
        rw [if_pos rfl, hold']
        simp
      · simp [e, Ne.symm e]

end Graph

end Vle.Vpz
