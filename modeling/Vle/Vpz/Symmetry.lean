import Vle.Vpz.CoupledModel

/-!
# Well-formed hierarchies

A connection joins two slots (`Joins`): the output of a model and the input of a sibling, or a port
of a coupled model and the same side of a submodel. `Linked` says that each connection is recorded
at both of its ends, as often at one as at the other, and that nothing else is recorded. `Forest`
says that no model is above itself, and `Listed` that a model's list holds the models whose parent it
is.

Most operations change the graph through `modifyPort`, which only rewrites a list (`Rewired`).
Recording a connection is `Wired.connect`; taking connections out at both ends is `CutBy`, which
composes: `delAllConnection` cuts port by port (`Wired.clearPort`).
-/

namespace Vle.Vpz

open Vle.Lib Vle.Vpz.Graph

/-! ## Reading after writing -/

namespace BaseModel

/-- A model without its port lists. -/
def shape (m : BaseModel) : BaseModel :=
  { m with
    inPortList := ∅
    outPortList := ∅
    kind := match m.kind with
      | .atomic a => .atomic a
      | .coupled c => .coupled { modelList := c.modelList } }

@[simp] theorem isCoupled_shape (m : BaseModel) : m.shape.isCoupled = m.isCoupled := by
  obtain ⟨name, parent, ins, outs, x, y, w, h, kind⟩ := m
  cases kind <;> rfl

@[simp] theorem modelList_shape (m : BaseModel) : m.shape.modelList = m.modelList := by
  obtain ⟨name, parent, ins, outs, x, y, w, h, kind⟩ := m
  cases kind <;> rfl

/-- The sides that a model has: an atomic one has no internal side. -/
def HasSide (m : BaseModel) (side : Side) : Prop := side.inner = side → m.isCoupled = true

@[simp] theorem shape_setConnections (m : BaseModel) (side : Side) (l : ConnectionList) :
    (m.setConnections side l).shape = m.shape := by
  obtain ⟨name, parent, ins, outs, x, y, w, h, kind⟩ := m
  cases side <;> cases kind <;> rfl

theorem connections_setConnections_self (m : BaseModel) {side : Side} (hside : m.HasSide side)
    (l : ConnectionList) : (m.setConnections side l).connections side = l := by
  obtain ⟨name, parent, ins, outs, x, y, w, h, kind⟩ := m
  cases side <;> cases kind <;> first | rfl | exact absurd (hside rfl) Bool.false_ne_true

theorem connections_setConnections_ne (m : BaseModel) {side side' : Side} (h : side' ≠ side)
    (l : ConnectionList) : (m.setConnections side l).connections side' = m.connections side' := by
  obtain ⟨name, parent, ins, outs, x, y, w, h, kind⟩ := m
  cases side <;> cases side' <;> cases kind <;> first | rfl | exact absurd rfl h

/-- A model that has a port on a side has the side. -/
theorem hasSide_of_lookup {m : BaseModel} {side : Side} {p : String} {l : ModelPortList}
    (h : (m.connections side).lookup p = some l) : m.HasSide side := by
  obtain ⟨name, parent, ins, outs, x, y, w, h, kind⟩ := m
  intro hside
  cases kind with
  | coupled c => rfl
  | atomic a =>
    cases side with
    | input | output => cases hside
    | internalInput | internalOutput => cases h

end BaseModel

namespace Graph

/-- The model `n` without its port lists. -/
def shape? (g : Graph) (n : NodeId) : Option BaseModel := (g.model n).map BaseModel.shape

/-- The name of a model. -/
def name? (g : Graph) (n : NodeId) : Option String := (g.model n).map (·.name)

/-- Whether there is a coupled model here. -/
def coupled? (g : Graph) (n : NodeId) : Bool := ((g.model n).map (·.isCoupled)).getD false

theorem name?_eq (g : Graph) (n : NodeId) : g.name? n = (g.shape? n).map (·.name) := by
  unfold name? shape?
  cases g.model n <;> rfl

theorem coupled?_eq (g : Graph) (n : NodeId) :
    g.coupled? n = ((g.shape? n).map (·.isCoupled)).getD false := by
  unfold coupled? shape?
  cases g.model n <;> simp

theorem parent?_eq (g : Graph) (n : NodeId) : g.parent? n = (g.shape? n).bind (·.parent) := by
  unfold parent? shape?
  cases g.model n <;> rfl

theorem child?_eq (g : Graph) (c : NodeId) (name : String) :
    g.child? c name = (g.shape? c).bind (·.modelList.lookup name) := by
  unfold child? shape?
  cases g.model c <;> simp

@[simp] theorem model_store (g : Graph) (m : NodeId) (mdl : BaseModel) :
    (g.store m mdl).model = Function.update g.model m (some mdl) := rfl

@[simp] theorem nextId_store (g : Graph) (m : NodeId) (mdl : BaseModel) :
    (g.store m mdl).nextId = g.nextId := rfl

theorem deref_eq_ok {g : Graph} {m : NodeId} {mdl : BaseModel} :
    g.deref m = .ok mdl ↔ g.model m = some mdl := by
  unfold deref
  cases g.model m <;> simp

/-- `setPort` changes the list of its slot and no other. -/
theorem portList?_setPort {g : Graph} {s : Slot} {mdl : BaseModel} (hm : g.model s.model = some mdl)
    (hside : mdl.HasSide s.side) (l : ModelPortList) (t : Slot) :
    (g.setPort s l).portList? t = if t = s then some l else g.portList? t := by
  obtain ⟨m, side, p⟩ := s
  obtain ⟨m', side', p'⟩ := t
  dsimp only at hm hside ⊢
  unfold setPort portList?
  simp only [hm, model_store]
  by_cases hmm : m' = m
  · subst hmm
    rw [Function.update_self, Option.bind_some, hm, Option.bind_some]
    by_cases hs : side' = side
    · subst hs
      rw [mdl.connections_setConnections_self hside]
      by_cases hp : p' = p
      · subst hp; rw [AList.lookup_insert, if_pos rfl]
      · rw [AList.lookup_insert_ne hp, if_neg (by simpa using hp)]
    · rw [mdl.connections_setConnections_ne hs, if_neg (by simp [hs])]
  · rw [Function.update_of_ne hmm, if_neg (by simp [hmm])]

/-- `setPort` leaves the tree. -/
@[simp] theorem shape?_setPort (g : Graph) (s : Slot) (l : ModelPortList) :
    (g.setPort s l).shape? = g.shape? := by
  funext n
  unfold setPort shape?
  cases hm : g.model s.model with
  | none => rfl
  | some mdl =>
    by_cases hn : n = s.model
    · subst hn; simp [hm]
    · simp [hn]

@[simp] theorem nextId_setPort (g : Graph) (s : Slot) (l : ModelPortList) :
    (g.setPort s l).nextId = g.nextId := by
  unfold setPort
  cases g.model s.model <;> rfl

theorem getPort_eq_ok {g : Graph} {s : Slot} {l : ModelPortList} :
    g.getPort s = .ok l ↔ g.portList? s = some l := by
  unfold getPort deref portList?
  cases hm : g.model s.model with
  | none => simp [bind, Except.bind]
  | some mdl =>
    cases hl : (mdl.connections s.side).lookup s.port with
    | none => simp [bind, Except.bind, hl, throw, throwThe, MonadExceptOf.throw]
    | some l' => simp [bind, Except.bind, hl, pure, Except.pure]

/-- Two graphs that differ by the contents of port lists only. -/
structure Rewired (g g' : Graph) : Prop where
  shape : g'.shape? = g.shape?
  nextId : g'.nextId = g.nextId
  ports : ∀ t, (g'.portList? t).isSome = (g.portList? t).isSome

theorem Rewired.refl (g : Graph) : Rewired g g := ⟨rfl, rfl, fun _ => rfl⟩

theorem Rewired.trans {g g₁ g₂ : Graph} (h : Rewired g g₁) (h' : Rewired g₁ g₂) : Rewired g g₂ :=
  ⟨h'.shape.trans h.shape, h'.nextId.trans h.nextId, fun t => (h'.ports t).trans (h.ports t)⟩

theorem Rewired.parent? {g g' : Graph} (h : Rewired g g') (n : NodeId) :
    g'.parent? n = g.parent? n := by
  rw [parent?_eq, parent?_eq, h.shape]

theorem Rewired.name? {g g' : Graph} (h : Rewired g g') (n : NodeId) : g'.name? n = g.name? n := by
  rw [name?_eq, name?_eq, h.shape]

theorem Rewired.coupled? {g g' : Graph} (h : Rewired g g') (n : NodeId) :
    g'.coupled? n = g.coupled? n := by
  rw [coupled?_eq, coupled?_eq, h.shape]

theorem Rewired.child? {g g' : Graph} (h : Rewired g g') (c : NodeId) (name : String) :
    g'.child? c name = g.child? c name := by
  rw [child?_eq, child?_eq, h.shape]

/-- What `modifyPort` does: the port exists, and its list alone changes. -/
theorem modifyPort_ok {s : Slot} {f : ModelPortList → ModelPortList} {g g' : Graph}
    (h : modifyPort s f g = .ok () g') :
    ∃ l, g.portList? s = some l ∧ Rewired g g' ∧
      ∀ t, g'.portList? t = if t = s then some (f l) else g.portList? t := by
  obtain ⟨l, g₁, hget, hset⟩ := EState.bind_eq_ok.mp h
  obtain ⟨hl, rfl⟩ := EState.inspect_eq_ok.mp hget
  rw [getPort_eq_ok] at hl
  obtain rfl : g₁.setPort s (f l) = g' := by simpa using hset
  obtain ⟨mdl, hm, hlookup⟩ := Option.bind_eq_some_iff.mp hl
  have hport := portList?_setPort hm (BaseModel.hasSide_of_lookup hlookup) (f l)
  refine ⟨l, hl, ⟨shape?_setPort .., nextId_setPort .., fun t => ?_⟩, hport⟩
  rw [hport]
  split_ifs with ht
  · rw [ht, hl]; rfl
  · rfl

/-- `modifyPort` changes one model only. -/
theorem modifyPort_frame {s : Slot} {f : ModelPortList → ModelPortList} {g g' : Graph}
    (h : modifyPort s f g = .ok () g') (n : NodeId) (hn : n ≠ s.model) :
    g'.model n = g.model n := by
  obtain ⟨l, g₁, hget, hset⟩ := EState.bind_eq_ok.mp h
  obtain ⟨-, rfl⟩ := EState.inspect_eq_ok.mp hget
  obtain rfl : g₁.setPort s (f l) = g' := by simpa using hset
  unfold setPort
  cases g₁.model s.model with
  | none => rfl
  | some mdl => exact Function.update_of_ne hn _ _

/-- `modifyPort` succeeds on a port that exists. -/
theorem modifyPort_total {s : Slot} {g : Graph} (f : ModelPortList → ModelPortList)
    (h : (g.portList? s).isSome) : ∃ g', modifyPort s f g = .ok () g' := by
  obtain ⟨l, hl⟩ := Option.isSome_iff_exists.mp h
  exact ⟨g.setPort s (f l), EState.inspect_bind_run (getPort_eq_ok.mpr hl)⟩

theorem entries_of_port {g : Graph} {s : Slot} {l : ModelPortList} (h : g.portList? s = some l) :
    g.entries s = l.lst := by
  rw [entries, h]; rfl

theorem entries_of_none {g : Graph} {s : Slot} (h : g.portList? s = none) : g.entries s = [] := by
  rw [entries, h]; rfl

/-- A slot in which something is recorded exists. -/
theorem port_of_mem {g : Graph} {s : Slot} {e : ModelPort} (h : e ∈ g.entries s) :
    (g.portList? s).isSome := by
  cases hs : g.portList? s with
  | none => rw [entries_of_none hs] at h; cases h
  | some l => rfl

/-- A port list after `modifyPort`, as connection ends. -/
theorem modifyPort_entries {s : Slot} {f : ModelPortList → ModelPortList} {g g' : Graph}
    (h : modifyPort s f g = .ok () g') :
    Rewired g g' ∧ (∀ t, t ≠ s → g'.entries t = g.entries t) ∧
      ∃ l, l.lst = g.entries s ∧ g'.entries s = (f l).lst := by
  obtain ⟨l, hl, hrewired, hport⟩ := modifyPort_ok h
  refine ⟨hrewired, fun t ht => ?_, l, (entries_of_port hl).symm, ?_⟩
  · rw [entries, hport, if_neg ht, entries]
  · exact entries_of_port (by rw [hport, if_pos rfl])

/-! ## The invariants -/

/-- The slots that a connection joins, from its source to its destination. -/
inductive Joins (g : Graph) : Slot → Slot → Prop where
  | internal {c m d : NodeId} (p q : String) (hm : g.parent? m = some c) (hd : g.parent? d = some c) :
      Joins g ⟨m, .output, p⟩ ⟨d, .input, q⟩
  | input {c m : NodeId} (p q : String) (hm : g.parent? m = some c) :
      Joins g ⟨c, .internalInput, p⟩ ⟨m, .input, q⟩
  | output {c m : NodeId} (p q : String) (hm : g.parent? m = some c) :
      Joins g ⟨m, .output, p⟩ ⟨c, .internalOutput, q⟩

/-- The slots at the two ends of a connection, in either direction. -/
def Joined (g : Graph) (s t : Slot) : Prop := g.Joins s t ∨ g.Joins t s

/-- The parents form a forest of coupled models. -/
structure Forest (g : Graph) : Prop where
  bound : ∀ n, (g.name? n).isSome → n < g.nextId
  above : ∀ n c, g.parent? n = some c → g.coupled? c = true
  acyclic : ∃ rank : NodeId → ℕ, ∀ n c, g.parent? n = some c → rank c < rank n

/-- The list of the model `c` holds the models whose parent is `c`, under their names. -/
def Listed (g : Graph) (c : NodeId) : Prop :=
  ∀ name n, g.child? c name = some n ↔ g.name? n = some name ∧ g.parent? n = some c

/-- Connections are recorded at both ends, with the same multiplicity, and nothing else is; the two
sides of a coupled model's port go together. -/
structure Linked (g : Graph) : Prop where
  symm : ∀ s t, g.Joins s t → (g.entries s).count t.entry = (g.entries t).count s.entry
  joined : ∀ s, ∀ e ∈ g.entries s, ∃ t, t.entry = e ∧ g.Joined s t
  inner : ∀ m side p, g.coupled? m = true → (g.portList? ⟨m, side, p⟩).isSome →
    (g.portList? ⟨m, side.inner, p⟩).isSome
  outer : ∀ m side p, side.inner ≠ side → g.entries ⟨m, side.inner, p⟩ ≠ [] →
    (g.portList? ⟨m, side, p⟩).isSome

/-- A forest whose connections are recorded at both ends. -/
structure Wired (g : Graph) : Prop where
  forest : g.Forest
  linked : g.Linked

/-- A hierarchy: the lists of submodels agree with the parents too. -/
structure WellFormed (g : Graph) : Prop extends Wired g where
  listed : ∀ c, g.Listed c

theorem Forest.parent_ne {g : Graph} (h : g.Forest) {n c : NodeId} (hp : g.parent? n = some c) :
    n ≠ c := by
  obtain ⟨rank, hrank⟩ := h.acyclic
  rintro rfl
  exact lt_irrefl _ (hrank n n hp)

theorem Rewired.forest {g g' : Graph} (h : Rewired g g') (hf : g.Forest) : g'.Forest where
  bound n hn := by
    rw [h.name?] at hn
    exact h.nextId ▸ hf.bound n hn
  above n c hc := by
    rw [h.parent?] at hc
    exact (h.coupled? c).trans (hf.above n c hc)
  acyclic := by
    obtain ⟨rank, hrank⟩ := hf.acyclic
    exact ⟨rank, fun n c hn => hrank n c (h.parent? n ▸ hn)⟩

theorem Rewired.listed {g g' : Graph} (h : Rewired g g') {c : NodeId} (hc : g.Listed c) :
    g'.Listed c := by
  intro name n
  rw [h.child?, h.name?, h.parent?]
  exact hc name n

theorem Rewired.joins {g g' : Graph} (h : Rewired g g') {s t : Slot} :
    g'.Joins s t ↔ g.Joins s t := by
  constructor
  · rintro (⟨p, q, hm, hd⟩ | ⟨p, q, hm⟩ | ⟨p, q, hm⟩)
    · exact .internal p q (h.parent? _ ▸ hm) (h.parent? _ ▸ hd)
    · exact .input p q (h.parent? _ ▸ hm)
    · exact .output p q (h.parent? _ ▸ hm)
  · rintro (⟨p, q, hm, hd⟩ | ⟨p, q, hm⟩ | ⟨p, q, hm⟩)
    · exact .internal p q ((h.parent? _).trans hm) ((h.parent? _).trans hd)
    · exact .input p q ((h.parent? _).trans hm)
    · exact .output p q ((h.parent? _).trans hm)

theorem Rewired.joined {g g' : Graph} (h : Rewired g g') {s t : Slot} :
    g'.Joined s t ↔ g.Joined s t := or_congr h.joins h.joins

/-- The two ends of a connection are on different sides. -/
theorem Joined.side_ne {g : Graph} {s t : Slot} (h : g.Joined s t) : s.side ≠ t.side := by
  rcases h with (_ | _ | _) | (_ | _ | _) <;> exact fun h => nomatch h

theorem Joined.ne {g : Graph} {s t : Slot} (h : g.Joined s t) : s ≠ t :=
  fun e => h.side_ne (congrArg Slot.side e)

theorem Joined.symm {g : Graph} {s t : Slot} (h : g.Joined s t) : g.Joined t s := Or.symm h

/-- A recorded end determines the slot at the other end. -/
theorem Joined.unique {g : Graph} (hf : g.Forest) {s t t' : Slot} (h : g.Joined s t)
    (h' : g.Joined s t') (he : t.entry = t'.entry) : t = t' := by
  -- A sibling of a model is not its parent.
  have hloop : ∀ {m c c'}, g.parent? m = some c → g.parent? m = some c' → g.parent? c = some c' →
      False := by
    intro m c c' hm hm' hc
    exact hf.parent_ne hc (Option.some.inj (hm.symm.trans hm'))
  obtain ⟨hmodel, hport⟩ := Prod.mk.inj he
  have hside : t.side = t'.side := by
    rcases h with (⟨p, q, hm, hd⟩ | ⟨p, q, hm⟩ | ⟨p, q, hm⟩) |
      (⟨p, q, hm, hd⟩ | ⟨p, q, hm⟩ | ⟨p, q, hm⟩) <;>
    rcases h' with h' | h' <;> cases h' <;> cases hmodel <;> first | rfl | skip
    all_goals grind
  obtain ⟨m, side, p⟩ := t
  obtain ⟨m', side', p'⟩ := t'
  dsimp only at hmodel hport hside
  rw [hmodel, hport, hside]

/-- What a slot records of another, the other records of it as often. -/
theorem Linked.count_comm {g : Graph} (h : g.Linked) {s t : Slot} (hj : g.Joined s t) :
    (g.entries s).count t.entry = (g.entries t).count s.entry := by
  rcases hj with hj | hj
  · exact h.symm s t hj
  · exact (h.symm t s hj).symm

theorem Linked.mem_comm {g : Graph} (h : g.Linked) {s t : Slot} (hj : g.Joined s t) :
    t.entry ∈ g.entries s ↔ s.entry ∈ g.entries t := by
  rw [← List.count_pos_iff, ← List.count_pos_iff, h.count_comm hj]

/-! ## Changing connections -/

/-- A change of the port lists keeps the graph linked when it treats the two ends of a connection
alike, records nothing at slots that no connection joins, and nothing inside a port that is gone. -/
theorem Linked.rewire {g g' : Graph} (h : g.Linked) (hr : Rewired g g') (f : Slot → Slot → ℕ → ℕ)
    (hf : ∀ u v n, g.Joined u v → f u v n = f v u n)
    (hcount : ∀ u v, g.Joined u v →
      (g'.entries u).count v.entry = f u v ((g.entries u).count v.entry))
    (hjoined : ∀ u, ∀ e ∈ g'.entries u, e ∈ g.entries u ∨ ∃ v, v.entry = e ∧ g.Joined u v)
    (houter : ∀ m side p, side.inner ≠ side → g'.entries ⟨m, side.inner, p⟩ ≠ [] →
      g.entries ⟨m, side.inner, p⟩ ≠ [] ∨ (g.portList? ⟨m, side, p⟩).isSome) : g'.Linked where
  symm u v huv := by
    rw [hr.joins] at huv
    rw [hcount u v (.inl huv), hcount v u (.inr huv), h.symm u v huv, hf u v _ (.inl huv)]
  joined u e he := by
    rcases hjoined u e he with he | ⟨v, hv, huv⟩
    · obtain ⟨v, hv, huv⟩ := h.joined u e he
      exact ⟨v, hv, hr.joined.mpr huv⟩
    · exact ⟨v, hv, hr.joined.mpr huv⟩
  inner m side p hc hp := by
    rw [hr.ports] at hp ⊢
    exact h.inner m side p (hr.coupled? m ▸ hc) hp
  outer m side p hside he := by
    rw [hr.ports]
    exact (houter m side p hside he).elim (h.outer m side p hside) id

/-- The slots `u` and `v` are the slots `s` and `t`. -/
def SamePair (s t u v : Slot) : Prop := (u = s ∧ v = t) ∨ (u = t ∧ v = s)

instance (s t u v : Slot) : Decidable (SamePair s t u v) := inferInstanceAs (Decidable (_ ∨ _))

theorem samePair_comm (s t u v : Slot) : SamePair s t u v ↔ SamePair s t v u := by
  unfold SamePair
  tauto

/-- The slot in which a port of a coupled model is seen from outside; other slots are themselves. -/
def outside (s : Slot) : Slot :=
  match s.side with
  | .internalInput => ⟨s.model, .input, s.port⟩
  | .internalOutput => ⟨s.model, .output, s.port⟩
  | _ => s

/-- Recording a connection at both ends keeps the graph linked, when the ports are there from
outside too. -/
theorem Wired.connect {g g₁ g₂ : Graph} (h : g.Wired) {s t : Slot} (hj : g.Joined s t)
    (h₁ : modifyPort s (·.add t.model t.port) g = .ok () g₁)
    (h₂ : modifyPort t (·.add s.model s.port) g₁ = .ok () g₂)
    (hs : (g.portList? (outside s)).isSome) (ht : (g.portList? (outside t)).isSome) :
    g₂.Wired ∧ Rewired g g₂ ∧ ∀ u v, g.Joined u v →
      (g₂.entries u).count v.entry =
        (g.entries u).count v.entry + if SamePair s t u v then 1 else 0 := by
  obtain ⟨hr₁, hsame₁, l₁, hl₁, hadd₁⟩ := modifyPort_entries h₁
  obtain ⟨hr₂, hsame₂, l₂, hl₂, hadd₂⟩ := modifyPort_entries h₂
  have hr := hr₁.trans hr₂
  have hes : (g₂.entries s).Perm (t.entry :: g.entries s) := by
    rw [hsame₂ s hj.ne, hadd₁, ← hl₁]
    exact l₁.add_perm t.model t.port
  have het : (g₂.entries t).Perm (s.entry :: g.entries t) := by
    rw [hadd₂, ← hsame₁ t hj.ne.symm, ← hl₂]
    exact l₂.add_perm s.model s.port
  have hother : ∀ u, u ≠ s → u ≠ t → g₂.entries u = g.entries u := fun u hus hut => by
    rw [hsame₂ u hut, hsame₁ u hus]
  have hcount : ∀ u v, g.Joined u v → (g₂.entries u).count v.entry =
      (g.entries u).count v.entry + if SamePair s t u v then 1 else 0 := by
    intro u v huv
    by_cases hus : u = s
    · subst hus
      have hiff : t.entry = v.entry ↔ SamePair u t u v := by
        constructor
        · exact fun e => .inl ⟨rfl, (hj.unique h.forest huv e).symm⟩
        · rintro (⟨-, rfl⟩ | ⟨e, -⟩)
          · rfl
          · exact absurd e hj.ne
      rw [hes.count_eq, List.count_cons]
      simp only [beq_iff_eq, hiff]
    · by_cases hut : u = t
      · subst hut
        have hiff : s.entry = v.entry ↔ SamePair s u u v := by
          constructor
          · exact fun e => .inr ⟨rfl, (hj.symm.unique h.forest huv e).symm⟩
          · rintro (⟨e, -⟩ | ⟨-, rfl⟩)
            · exact absurd e hus
            · rfl
        rw [het.count_eq, List.count_cons]
        simp only [beq_iff_eq, hiff]
      · rw [hother u hus hut, if_neg (by unfold SamePair; tauto), Nat.add_zero]
  refine ⟨⟨hr.forest h.forest, h.linked.rewire hr
    (fun u v n => n + if SamePair s t u v then 1 else 0) ?_ hcount ?_ ?_⟩, hr, hcount⟩
  · intro u v n _
    simp only [samePair_comm s t u v]
  · intro u e he
    by_cases hus : u = s
    · subst hus
      rcases List.mem_cons.mp (hes.mem_iff.mp he) with rfl | he
      · exact .inr ⟨t, rfl, hj⟩
      · exact .inl he
    · by_cases hut : u = t
      · subst hut
        rcases List.mem_cons.mp (het.mem_iff.mp he) with rfl | he
        · exact .inr ⟨s, rfl, hj.symm⟩
        · exact .inl he
      · exact .inl (hother u hus hut ▸ he)
  · intro m side p hside he
    by_cases hus : (⟨m, side.inner, p⟩ : Slot) = s
    · subst hus
      cases side <;> first | exact absurd rfl hside | exact .inr hs
    · by_cases hut : (⟨m, side.inner, p⟩ : Slot) = t
      · subst hut
        cases side <;> first | exact absurd rfl hside | exact .inr ht
      · exact .inl (hother _ hus hut ▸ he)

/-- `g'` is `g` without the connections between the slots that `C` relates. -/
structure CutBy (C : Slot → Slot → Prop) (g g' : Graph) : Prop where
  rewired : Rewired g g'
  gone : ∀ u v, g.Joined u v → C u v → v.entry ∉ g'.entries u
  kept : ∀ u v, g.Joined u v → ¬ C u v → (g'.entries u).count v.entry = (g.entries u).count v.entry
  sub : ∀ u, g'.entries u ⊆ g.entries u

theorem CutBy.trans {C C' : Slot → Slot → Prop} {g g₁ g₂ : Graph} (h : CutBy C g g₁)
    (h' : CutBy C' g₁ g₂) : CutBy (fun u v => C u v ∨ C' u v) g g₂ where
  rewired := h.rewired.trans h'.rewired
  gone u v huv hC he := by
    rcases hC with hC | hC
    · exact h.gone u v huv hC (h'.sub u he)
    · exact h'.gone u v (h.rewired.joined.mpr huv) hC he
  kept u v huv hC := by
    rw [not_or] at hC
    rw [h'.kept u v (h.rewired.joined.mpr huv) hC.2, h.kept u v huv hC.1]
  sub u := List.Subset.trans (h'.sub u) (h.sub u)

/-- Only connections that are there matter. -/
theorem CutBy.congr {C C' : Slot → Slot → Prop} {g g' : Graph} (h : CutBy C g g')
    (hC : ∀ u v, g.Joined u v → v.entry ∈ g.entries u → (C u v ↔ C' u v)) : CutBy C' g g' where
  rewired := h.rewired
  gone u v huv hC' he :=
    h.gone u v huv ((hC u v huv (h.sub u he)).mpr hC') he
  kept u v huv hC' := by
    by_cases he : v.entry ∈ g.entries u
    · exact h.kept u v huv (mt (hC u v huv he).mp hC')
    · rw [List.count_eq_zero.mpr he, List.count_eq_zero.mpr fun he' => he (h.sub u he')]
  sub := h.sub

/-- Taking connections out at both ends keeps the graph well formed. -/
theorem Wired.cut {g g' : Graph} (h : g.Wired) {C : Slot → Slot → Prop}
    (hcut : CutBy C g g') (hC : ∀ u v, C u v ↔ C v u) : g'.Wired := by
  classical
  refine ⟨hcut.rewired.forest h.forest, h.linked.rewire hcut.rewired
    (fun u v n => if C u v then 0 else n) ?_ ?_ (fun u e he => .inl (hcut.sub u he))
    fun m side p _ he => .inl ?_⟩
  · intro u v n _
    simp only [hC u v]
  · intro u v huv
    split_ifs with hCuv
    · exact List.count_eq_zero.mpr (hcut.gone u v huv hCuv)
    · exact hcut.kept u v huv hCuv
  · intro h
    have := hcut.sub ⟨m, side.inner, p⟩
    rw [h] at this
    exact he (List.subset_nil.mp this)

/-- Counting after taking out the entries of one kind. -/
theorem count_filter_ne (l : List ModelPort) (a b : ModelPort) :
    (l.filter (· ≠ a)).count b = if b = a then 0 else l.count b := by
  split_ifs with h
  · subst h
    exact List.count_eq_zero.mpr fun hm => by simpa using (List.mem_filter.mp hm).2
  · exact List.count_filter (by simpa using h)

/-- Taking a connection out at both ends. -/
theorem Wired.disconnect {g g₁ g₂ : Graph} (h : g.Wired) {s t : Slot}
    (hj : g.Joined s t) (h₁ : modifyPort s (·.remove t.model t.port) g = .ok () g₁)
    (h₂ : modifyPort t (·.remove s.model s.port) g₁ = .ok () g₂) : CutBy (SamePair s t) g g₂ := by
  obtain ⟨hr₁, hsame₁, l₁, hl₁, hrem₁⟩ := modifyPort_entries h₁
  obtain ⟨hr₂, hsame₂, l₂, hl₂, hrem₂⟩ := modifyPort_entries h₂
  have hes : g₂.entries s = (g.entries s).filter (· ≠ t.entry) := by
    rw [hsame₂ s hj.ne, hrem₁, ← hl₁]
    exact l₁.remove_lst t.model t.port
  have het : g₂.entries t = (g.entries t).filter (· ≠ s.entry) := by
    rw [hrem₂, ← hsame₁ t hj.ne.symm, ← hl₂]
    exact l₂.remove_lst s.model s.port
  have hother : ∀ u, u ≠ s → u ≠ t → g₂.entries u = g.entries u := fun u hus hut => by
    rw [hsame₂ u hut, hsame₁ u hus]
  refine ⟨hr₁.trans hr₂, ?_, fun u v huv hC => ?_, fun u => ?_⟩
  · rintro u v huv (⟨rfl, rfl⟩ | ⟨rfl, rfl⟩) he
    · rw [hes] at he
      exact of_decide_eq_true (List.mem_filter.mp he).2 rfl
    · rw [het] at he
      exact of_decide_eq_true (List.mem_filter.mp he).2 rfl
  · by_cases hus : u = s
    · subst hus
      rw [hes, count_filter_ne, if_neg]
      exact fun e => hC (.inl ⟨rfl, (hj.unique h.forest huv e.symm).symm⟩)
    · by_cases hut : u = t
      · subst hut
        rw [het, count_filter_ne, if_neg]
        exact fun e => hC (.inr ⟨rfl, (hj.symm.unique h.forest huv e.symm).symm⟩)
      · rw [hother u hus hut]
  · by_cases hus : u = s
    · subst hus; rw [hes]; exact List.filter_sublist.subset
    · by_cases hut : u = t
      · subst hut; rw [het]; exact List.filter_sublist.subset
      · rw [hother u hus hut]; exact List.Subset.refl _

/-- Nothing changes but the model `c` and its submodels. -/
def Frame (c : NodeId) (g g' : Graph) : Prop :=
  ∀ n, n ≠ c → g.parent? n ≠ some c → g'.model n = g.model n

theorem Frame.trans {c : NodeId} {g g₁ g₂ : Graph} (h : Frame c g g₁) (h' : Frame c g₁ g₂) :
    Frame c g g₂ := by
  intro n hn hp
  have hsame := h n hn hp
  rw [h' n hn (by rwa [Graph.parent?, hsame]), hsame]

/-- Where `delAllConnection` looks for the other end of an entry of the slot `s`. -/
def far (c : NodeId) (s : Slot) (e : ModelPort) : Slot :=
  if e.1 = c then ⟨c, s.side.inner, e.2⟩ else ⟨e.1, s.side.flip, e.2⟩

/-- For a submodel of `c`, it looks at the right place. -/
theorem far_entry {g : Graph} (hf : g.Forest) {c : NodeId} {s u : Slot}
    (hm : g.parent? s.model = some c) (hside : s.side.inner ≠ s.side) (hj : g.Joined s u) :
    far c s u.entry = u := by
  -- The parent of a sibling is `c`, so a sibling is not `c`.
  have hsibling : ∀ {d c'}, g.parent? s.model = some c' → g.parent? d = some c' → d ≠ c := by
    intro d c' hs hd
    exact Option.some.inj (hs.symm.trans hm) ▸ hf.parent_ne hd
  unfold far
  rcases hj with (⟨p, q, hs, hd⟩ | ⟨p, q, hs⟩ | ⟨p, q, hs⟩) |
    (⟨p, q, hs, hd⟩ | ⟨p, q, hs⟩ | ⟨p, q, hs⟩)
  · exact if_neg (hsibling hs hd)
  · exact absurd rfl hside
  · obtain rfl := Option.some.inj (hs.symm.trans hm)
    exact if_pos rfl
  · exact if_neg (hsibling hd hs)
  · obtain rfl := Option.some.inj (hs.symm.trans hm)
    exact if_pos rfl
  · exact absurd rfl hside

/-- A model connected to a submodel of `c` is `c` or another submodel. -/
theorem Joined.near {g : Graph} {c : NodeId} {s u : Slot} (hj : g.Joined s u)
    (hm : g.parent? s.model = some c) (hside : s.side.inner ≠ s.side) :
    u.model = c ∨ g.parent? u.model = some c := by
  rcases hj with (⟨p, q, hs, hd⟩ | ⟨p, q, hs⟩ | ⟨p, q, hs⟩) |
    (⟨p, q, hs, hd⟩ | ⟨p, q, hs⟩ | ⟨p, q, hs⟩)
  · exact .inr (hd.trans (hs.symm.trans hm))
  · exact absurd rfl hside
  · exact .inl (Option.some.inj (hs.symm.trans hm))
  · exact .inr (hs.trans (hd.symm.trans hm))
  · exact .inl (Option.some.inj (hs.symm.trans hm))
  · exact absurd rfl hside

/-- One pass of `delAllConnection` on a submodel of `c` ends well and takes out, at both ends, the
connections of one port. -/
theorem Wired.clearPort {g : Graph} (h : g.Wired) {c m : NodeId} (side : Side)
    (p : String) (hm : g.parent? m = some c) (hside : side.inner ≠ side)
    (hp : (g.portList? ⟨m, side, p⟩).isSome) :
    ∃ g', CoupledModel.clearPort c m side p g = .ok () g' ∧
      CutBy (fun u v => u = ⟨m, side, p⟩ ∨ v = ⟨m, side, p⟩) g g' ∧ Frame c g g' := by
  obtain ⟨l, hl⟩ := Option.isSome_iff_exists.mp hp
  set s : Slot := ⟨m, side, p⟩ with hs
  have hfar : ∀ e ∈ g.entries s, g.Joined s (far c s e) ∧ (far c s e).entry = e := by
    intro e he
    obtain ⟨u, rfl, hj⟩ := h.linked.joined s e he
    rw [far_entry h.forest hm hside hj]
    exact ⟨hj, rfl⟩
  -- The loop over the recorded ends.
  have hloop : ∃ g₁, l.lst.forM (fun elem =>
      if elem.1 = c then modifyPort ⟨c, side.inner, elem.2⟩ (·.remove m p)
      else modifyPort ⟨elem.1, side.flip, elem.2⟩ (·.remove m p)) g = .ok () g₁ ∧
      Rewired g g₁ ∧ Frame c g g₁ ∧ ∀ u, g₁.entries u = if u ∈ l.lst.map (far c s) then
        (g.entries u).filter (· ≠ s.entry) else g.entries u := by
    refine EState.forM_total (I := fun done g₁ => Rewired g g₁ ∧ Frame c g g₁ ∧ ∀ u,
      g₁.entries u = if u ∈ done.map (far c s) then (g.entries u).filter (· ≠ s.entry)
        else g.entries u) l.lst ?_ ⟨Rewired.refl g, fun _ _ _ => rfl, fun u => by simp⟩
    rintro done e todo g₁ hsplit ⟨hr₁, hframe₁, hentries₁⟩
    have he : e ∈ g.entries s := by
      rw [entries_of_port hl, hsplit]
      exact List.mem_append_right _ List.mem_cons_self
    obtain ⟨hj, hentry⟩ := hfar e he
    have hport : (g₁.portList? (far c s e)).isSome := by
      rw [hr₁.ports]
      exact port_of_mem ((h.linked.mem_comm hj).mp (hentry.symm ▸ he))
    obtain ⟨g₂, hg₂⟩ := modifyPort_total (·.remove m p) hport
    obtain ⟨hr₂, hsame, l₂, hl₂, hrem⟩ := modifyPort_entries hg₂
    have hframe₂ : Frame c g g₂ := by
      intro n hn hp
      rw [modifyPort_frame hg₂ n, hframe₁ n hn hp]
      rintro rfl
      exact (hj.near hm hside).elim hn hp
    refine ⟨g₂, ?_, hr₁.trans hr₂, hframe₂, fun u => ?_⟩
    · rw [← hg₂, far]
      split_ifs <;> rfl
    · rw [List.map_append, List.map_singleton]
      simp only [List.mem_append, List.mem_singleton]
      by_cases hu : u = far c s e
      · subst hu
        rw [hrem, ModelPortList.remove_lst, hl₂, hentries₁, if_pos (Or.inr rfl)]
        split_ifs
        · rw [List.filter_filter]
          exact List.filter_congr fun x _ => by simp [hs, Slot.entry]
        · rfl
      · rw [hsame u hu, hentries₁]
        simp only [hu, or_false]
  obtain ⟨g₁, hg₁, hr₁, hframe₁, hentries₁⟩ := hloop
  have hport : (g₁.portList? s).isSome := by rw [hr₁.ports]; exact hp
  obtain ⟨g₂, hg₂⟩ := modifyPort_total (fun _ => .empty) hport
  obtain ⟨hr₂, hsame, -, -, hclear⟩ := modifyPort_entries hg₂
  have hclear' : g₂.entries s = [] := hclear
  have hentries : ∀ u, u ≠ s → g₂.entries u = if u ∈ l.lst.map (far c s) then
      (g.entries u).filter (· ≠ s.entry) else g.entries u := fun u hus => by
    rw [hsame u hus, hentries₁]
  have hframe₂ : Frame c g g₂ := by
    intro n hn hp
    rw [modifyPort_frame hg₂ n fun e => hp (e ▸ hm), hframe₁ n hn hp]
  refine ⟨g₂, (EState.inspect_bind_run (s := g) (getPort_eq_ok.mpr hl)).trans
    ((EState.bind_run hg₁).trans hg₂), ⟨hr₁.trans hr₂, ?_, fun u v huv hC => ?_, fun u => ?_⟩,
    hframe₂⟩
  · rintro u v huv (rfl | rfl) he
    · rw [hclear'] at he; cases he
    · rw [hentries u huv.ne] at he
      split_ifs at he with hin
      · exact of_decide_eq_true (List.mem_filter.mp he).2 rfl
      · -- An entry of `s` in the list `u` has its other end in `s`.
        refine hin (List.mem_map.mpr ⟨u.entry, ?_, far_entry h.forest hm hside huv.symm⟩)
        exact entries_of_port hl ▸ (h.linked.mem_comm huv).mp he
  · rw [not_or] at hC
    rw [hentries u hC.1]
    split_ifs with hin
    · obtain ⟨e, he, rfl⟩ := List.mem_map.mp hin
      rw [count_filter_ne, if_neg]
      exact fun e' => hC.2 (huv.unique h.forest (hfar e (entries_of_port hl ▸ he)).1.symm e')
    · rfl
  · by_cases hus : u = s
    · subst hus; rw [hclear']; exact List.nil_subset _
    · rw [hentries u hus]
      split_ifs
      · exact List.filter_sublist.subset
      · exact List.Subset.refl _

/-- The iteration over a map meets its entries. -/
theorem mem_inOrder {β : Type} (m : AList fun _ : String => β) (k : String) (b : β) :
    (k, b) ∈ inOrder m ↔ m.lookup k = some b := by
  unfold inOrder
  rw [(List.perm_insertionSort _ _).mem_iff, List.mem_map, ← Option.mem_def, AList.mem_lookup_iff]
  constructor
  · rintro ⟨⟨k', b'⟩, hmem, he⟩
    cases he
    exact hmem
  · exact fun h => ⟨⟨k, b⟩, h, rfl⟩

/-- The slots of the model `m` on one side. -/
def OnSide (m : NodeId) (side : Side) (u : Slot) : Prop := u.model = m ∧ u.side = side

/-- One of the two loops of `delAllConnection` on a submodel of `c` takes out the connections of one
side. -/
theorem Wired.delConnections {g : Graph} (h : g.Wired) {c m : NodeId} (side : Side)
    (hm : g.parent? m = some c) (hside : side.inner ≠ side) :
    ∃ g', CoupledModel.delConnections c m side g = .ok () g' ∧
      CutBy (fun u v => OnSide m side u ∨ OnSide m side v) g g' ∧ Frame c g g' := by
  obtain ⟨mdl, hmdl, -⟩ := Option.bind_eq_some_iff.mp hm
  have hport : ∀ it ∈ inOrder (mdl.connections side), (g.portList? ⟨m, side, it.1⟩).isSome := by
    rintro ⟨p, l⟩ hit
    rw [portList?, hmdl, Option.bind_some, (mem_inOrder _ p l).mp hit]
    rfl
  obtain ⟨g', hg', hcut, hframe⟩ := EState.forM_total (I := fun done g₁ => CutBy (fun u v =>
      ∃ it ∈ done, u = ⟨m, side, it.1⟩ ∨ v = ⟨m, side, it.1⟩) g g₁ ∧ Frame c g g₁)
    (f := fun it => CoupledModel.clearPort c m side it.1) (inOrder (mdl.connections side)) (s := g)
    (fun done it todo g₁ hsplit ⟨hcut, hframe⟩ => by
      have hwired := h.cut hcut fun u v => by simp only [or_comm]
      have hit : it ∈ inOrder (mdl.connections side) := by simp [hsplit]
      obtain ⟨g₂, hg₂, hcut₂, hframe₂⟩ := hwired.clearPort side it.1
        ((hcut.rewired.parent? m).trans hm) hside (by rw [hcut.rewired.ports]; exact hport it hit)
      refine ⟨g₂, hg₂, (hcut.trans hcut₂).congr fun u v _ _ => ?_, hframe.trans hframe₂⟩
      simp only [List.mem_append, List.mem_singleton, or_and_right, exists_or, exists_eq_left])
    ⟨⟨Rewired.refl g, by simp, fun _ _ _ _ => rfl, fun _ => List.Subset.refl _⟩,
      fun _ _ _ => rfl⟩
  refine ⟨g', (EState.inspect_bind_run (s := g) (deref_eq_ok.mpr hmdl)).trans hg',
    hcut.congr fun u v huv he => ?_, hframe⟩
  -- A slot in which something is recorded is one of a port met by the loop.
  have hmeet : ∀ (w : Slot) (e : ModelPort), OnSide m side w → e ∈ g.entries w →
      ∃ it ∈ inOrder (mdl.connections side), w = ⟨m, side, it.1⟩ := by
    rintro ⟨m', side', p⟩ e ⟨rfl, rfl⟩ hw
    obtain ⟨l, hl⟩ := Option.isSome_iff_exists.mp (port_of_mem hw)
    rw [portList?, hmdl, Option.bind_some] at hl
    exact ⟨(p, l), (mem_inOrder _ p l).mpr hl, rfl⟩
  constructor
  · rintro ⟨it, -, rfl | rfl⟩
    · exact .inl ⟨rfl, rfl⟩
    · exact .inr ⟨rfl, rfl⟩
  · rintro (hu | hv)
    · obtain ⟨it, hit, hw⟩ := hmeet u _ hu he
      exact ⟨it, hit, .inl hw⟩
    · obtain ⟨it, hit, hw⟩ := hmeet v _ hv ((h.linked.mem_comm huv).mp he)
      exact ⟨it, hit, .inr hw⟩

/-- The slots in which a model is connected to its parent and its siblings. -/
def Around (m : NodeId) (u : Slot) : Prop :=
  u.model = m ∧ u.side.inner ≠ u.side

/-- `delAllConnection` on a submodel of `c` takes out the connections around it. -/
theorem Wired.delAllConnection {g : Graph} (h : g.Wired) {c m : NodeId}
    (hm : g.parent? m = some c) : ∃ g', CoupledModel.delAllConnection c m g = .ok () g' ∧
      CutBy (fun u v => Around m u ∨ Around m v) g g' ∧ Frame c g g' := by
  obtain ⟨g₁, hg₁, hcut₁, hframe₁⟩ := h.delConnections .input hm (by decide)
  have h₁ : g₁.Wired := h.cut hcut₁ fun u v => or_comm
  obtain ⟨g₂, hg₂, hcut₂, hframe₂⟩ := h₁.delConnections .output
    ((hcut₁.rewired.parent? m).trans hm) (by decide)
  refine ⟨g₂, (EState.bind_run hg₁).trans hg₂, (hcut₁.trans hcut₂).congr fun u v _ _ => ?_,
    hframe₁.trans hframe₂⟩
  have hside : ∀ w : Slot, Around m w ↔ OnSide m .input w ∨ OnSide m .output w := by
    rintro ⟨m', side, p⟩
    cases side <;> simp [Around, OnSide, Side.inner]
  rw [hside, hside]
  tauto

end Graph

end Vle.Vpz
