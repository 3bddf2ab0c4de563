import Vle.Vpz.Symmetry

/-!
# Changing the hierarchy

What the operations on submodels do to the parents and to the lists of submodels, and that they
keep the graph well formed. A model that changes its parent must have no connection around it
(`Unlinked`). Deleting a model deletes what is below it: `Wired.deleteModel` says that exactly these
models disappear, by induction on the depth, with a loop invariant for the submodels.
-/

namespace Vle.Vpz

open Vle.Lib Vle.Vpz.Graph

namespace BaseModel

/-! ## What the other changes of a model leave -/

@[simp] theorem connections_setModelList (m : BaseModel) (l : ModelList) (side : Side) :
    (m.setModelList l).connections side = m.connections side := by
  obtain ⟨name, parent, ins, outs, x, y, w, h, kind⟩ := m
  cases kind <;> cases side <;> rfl

@[simp] theorem name_setModelList (m : BaseModel) (l : ModelList) :
    (m.setModelList l).name = m.name := by
  unfold setModelList
  split <;> rfl

@[simp] theorem parent_setModelList (m : BaseModel) (l : ModelList) :
    (m.setModelList l).parent = m.parent := by
  unfold setModelList
  split <;> rfl

@[simp] theorem isCoupled_setModelList (m : BaseModel) (l : ModelList) :
    (m.setModelList l).isCoupled = m.isCoupled := by
  obtain ⟨name, parent, ins, outs, x, y, w, h, kind⟩ := m
  cases kind <;> rfl

theorem modelList_setModelList {m : BaseModel} (hm : m.isCoupled = true) (l : ModelList) :
    (m.setModelList l).modelList = l := by
  obtain ⟨name, parent, ins, outs, x, y, w, h, kind⟩ := m
  cases kind with
  | atomic a => cases hm
  | coupled c => rfl

end BaseModel

namespace Graph

theorem exists_of_name? {g : Graph} {m : NodeId} (h : (g.name? m).isSome) :
    ∃ mdl, g.model m = some mdl := by
  unfold name? at h
  rwa [Option.isSome_map, Option.isSome_iff_exists] at h

/-- A model with a parent exists. -/
theorem name?_of_parent? {g : Graph} {m c : NodeId} (h : g.parent? m = some c) :
    (g.name? m).isSome := by
  obtain ⟨mdl, hmdl, -⟩ := Option.bind_eq_some_iff.mp h
  rw [name?, hmdl]
  rfl

/-- A graph after a model is written, seen by its parts. -/
theorem portList?_store {g : Graph} {m : NodeId} {mdl mdl' : BaseModel} (hm : g.model m = some mdl)
    (hc : mdl'.connections = mdl.connections) (s : Slot) :
    (g.store m mdl').portList? s = g.portList? s := by
  unfold portList?
  rw [model_store]
  by_cases hs : s.model = m
  · rw [hs, Function.update_self, hm, Option.bind_some, Option.bind_some, hc]
  · rw [Function.update_of_ne hs]

theorem name?_store (g : Graph) (m : NodeId) (mdl : BaseModel) (n : NodeId) :
    (g.store m mdl).name? n = if n = m then some mdl.name else g.name? n := by
  unfold name?
  rw [model_store, Function.update_apply]
  split_ifs <;> rfl

theorem parent?_store (g : Graph) (m : NodeId) (mdl : BaseModel) (n : NodeId) :
    (g.store m mdl).parent? n = if n = m then mdl.parent else g.parent? n := by
  unfold parent?
  rw [model_store, Function.update_apply]
  split_ifs <;> rfl

theorem coupled?_store (g : Graph) (m : NodeId) (mdl : BaseModel) (n : NodeId) :
    (g.store m mdl).coupled? n = if n = m then mdl.isCoupled else g.coupled? n := by
  unfold coupled?
  rw [model_store, Function.update_apply]
  split_ifs <;> rfl

theorem child?_store (g : Graph) (m : NodeId) (mdl : BaseModel) (c : NodeId) (name : String) :
    (g.store m mdl).child? c name = if c = m then mdl.modelList.lookup name else
      g.child? c name := by
  unfold child?
  rw [model_store, Function.update_apply]
  split_ifs <;> rfl

/-! ## Above and below -/

/-- The models at or below the model `m`. -/
def Below (g : Graph) (m n : NodeId) : Prop :=
  Relation.ReflTransGen (fun a b => g.parent? b = some a) m n

theorem Below.refl (g : Graph) (m : NodeId) : g.Below m m := Relation.ReflTransGen.refl

/-- What is below a model and is not the model itself has its parent at or below the model. -/
theorem Below.cases {g : Graph} {m n : NodeId} (h : g.Below m n) :
    n = m ∨ ∃ p, g.parent? n = some p ∧ g.Below m p := by
  rcases Relation.ReflTransGen.cases_tail h with h | ⟨p, hp, hn⟩
  · exact .inl h
  · exact .inr ⟨p, hn, hp⟩

/-- A submodel of a model below `m` is below `m`. -/
theorem Below.child {g : Graph} {m p n : NodeId} (h : g.Below m p) (hn : g.parent? n = some p) :
    g.Below m n := h.tail hn

theorem Below.trans {g : Graph} {m p n : NodeId} (h : g.Below m p) (h' : g.Below p n) :
    g.Below m n := Relation.ReflTransGen.trans h h'

/-- More parents, more below. -/
theorem Below.mono {g g' : Graph} (hp : ∀ n c, g.parent? n = some c → g'.parent? n = some c)
    {m n : NodeId} (h : g.Below m n) : g'.Below m n := by
  induction h with
  | refl => exact Below.refl g' m
  | tail _ hn ih => exact ih.child (hp _ _ hn)

/-- Ranks do not decrease downwards. -/
theorem Below.rank_le {g : Graph} {rank : NodeId → ℕ}
    (hrank : ∀ n c, g.parent? n = some c → rank c < rank n) {m n : NodeId} (h : g.Below m n) :
    rank m ≤ rank n := by
  induction h with
  | refl => exact le_rfl
  | tail _ hn ih => exact ih.trans (hrank _ _ hn).le

/-- A parent is not below its submodel. -/
theorem Forest.not_below {g : Graph} (hf : g.Forest) {m c : NodeId} (h : g.parent? m = some c) :
    ¬ g.Below m c := by
  obtain ⟨rank, hrank⟩ := hf.acyclic
  intro hb
  have := hb.rank_le hrank
  have := hrank m c h
  omega

/-- Two models with the same parent that have a model below both are the same. -/
theorem Forest.below_disjoint {g : Graph} (hf : g.Forest) {m m' c n : NodeId}
    (hm : g.parent? m = some c) (hm' : g.parent? m' = some c) (hn : g.Below m n)
    (hn' : g.Below m' n) : m = m' := by
  induction hn with
  | refl =>
    rcases hn'.cases with h | ⟨p, hp, hb⟩
    · exact h
    · obtain rfl := Option.some.inj (hm.symm.trans hp)
      exact absurd hb (hf.not_below hm')
  | @tail p n hp hn ih =>
    rcases hn'.cases with rfl | ⟨p', hp', hb⟩
    · obtain rfl := Option.some.inj (hm'.symm.trans hn)
      exact absurd hp (hf.not_below hm)
    · obtain rfl := Option.some.inj (hp'.symm.trans hn)
      exact ih hb

/-- The number of models above a model is a rank below the number of identifiers. -/
theorem Forest.exists_rank {g : Graph} (hf : g.Forest) : ∃ rank : NodeId → ℕ,
    (∀ n c, g.parent? n = some c → rank c < rank n) ∧
      ∀ n, (g.name? n).isSome → rank n < g.nextId := by
  classical
  have hexists : ∀ n c, g.parent? n = some c → (g.name? c).isSome := by
    intro n c hn
    have := hf.above n c hn
    unfold coupled? at this
    unfold name?
    cases hc : g.model c with
    | none => rw [hc] at this; cases this
    | some mdl => rfl
  have hself : ∀ n c, g.parent? n = some c → ∀ a, g.Below a c → a ≠ n := by
    rintro n c hn a ha rfl
    exact hf.not_below hn ha
  refine ⟨fun n => ((Finset.range g.nextId).filter fun a => a ≠ n ∧ g.Below a n).card, ?_, ?_⟩
  · intro n c hn
    refine Finset.card_lt_card (Finset.ssubset_iff_of_subset ?_ |>.mpr ⟨c, ?_, ?_⟩)
    · intro a ha
      simp only [Finset.mem_filter] at ha ⊢
      exact ⟨ha.1, hself n c hn a ha.2.2, ha.2.2.child hn⟩
    · exact Finset.mem_filter.mpr ⟨Finset.mem_range.mpr (hf.bound c (hexists n c hn)),
        (hf.parent_ne hn).symm, (Below.refl g c).child hn⟩
    · simp
  · intro n hn
    have hlt := hf.bound n hn
    calc ((Finset.range g.nextId).filter fun a => a ≠ n ∧ g.Below a n).card
        < (Finset.range g.nextId).card := Finset.card_lt_card
          (Finset.filter_ssubset.mpr ⟨n, Finset.mem_range.mpr hlt, by simp⟩)
      _ = g.nextId := Finset.card_range _

/-! ## Models that change their place -/

/-- A model around which nothing is connected. -/
def Unlinked (g : Graph) (m : NodeId) : Prop := ∀ u, Around m u → g.entries u = []

/-- The graphs `g` and `g'` have the same ports with the same contents. -/
structure SamePorts (g g' : Graph) : Prop where
  ports : ∀ s, g'.portList? s = g.portList? s
  coupled : ∀ n, g'.coupled? n = g.coupled? n
  nextId : g'.nextId = g.nextId

theorem SamePorts.entries {g g' : Graph} (h : SamePorts g g') (s : Slot) :
    g'.entries s = g.entries s := by
  rw [Graph.entries, Graph.entries, h.ports]

/-- A slot at the end of a connection is around its model or inside it. -/
theorem Joined.not_around {g g' : Graph} {P : NodeId → Prop}
    (hparent : ∀ n, ¬ P n → g'.parent? n = g.parent? n) {s t : Slot} (h : g'.Joined s t)
    (hs : ∀ m, P m → ¬ Around m s) (ht : ∀ m, P m → ¬ Around m t) : g.Joined s t := by
  have hkeep : ∀ {m c : NodeId} {side : Side} {p : String}, side.inner ≠ side →
      (∀ n, P n → ¬ Around n (⟨m, side, p⟩ : Slot)) → g'.parent? m = some c →
      g.parent? m = some c := by
    intro m c side p hside hn hm
    rw [← hm, hparent m fun hP => hn m hP ⟨rfl, hside⟩]
  rcases h with (⟨p, q, hm, hd⟩ | ⟨p, q, hm⟩ | ⟨p, q, hm⟩) |
    (⟨p, q, hm, hd⟩ | ⟨p, q, hm⟩ | ⟨p, q, hm⟩)
  · exact .inl (.internal p q (hkeep (by decide) hs hm) (hkeep (by decide) ht hd))
  · exact .inl (.input p q (hkeep (by decide) ht hm))
  · exact .inl (.output p q (hkeep (by decide) hs hm))
  · exact .inr (.internal p q (hkeep (by decide) ht hm) (hkeep (by decide) hs hd))
  · exact .inr (.input p q (hkeep (by decide) hs hm))
  · exact .inr (.output p q (hkeep (by decide) ht hm))

/-- The connections that can be depend on the parents only. -/
theorem joined_congr {g g' : Graph} (hparent : ∀ n, g'.parent? n = g.parent? n) {s t : Slot} :
    g'.Joined s t ↔ g.Joined s t := by
  have hnone : ∀ (m : NodeId), False → ¬ Around m s := fun _ h => h.elim
  have hnone' : ∀ (m : NodeId), False → ¬ Around m t := fun _ h => h.elim
  exact ⟨fun hj => hj.not_around (P := fun _ => False) (fun n _ => hparent n) hnone hnone',
    fun hj => hj.not_around (P := fun _ => False) (fun n _ => (hparent n).symm) hnone hnone'⟩

/-- A slot joined to an internal one belongs to a submodel, and is not internal. -/
theorem Joined.of_inner {g : Graph} {s t : Slot} (h : g.Joined s t) (ht : t.side.inner = t.side) :
    g.parent? s.model = some t.model ∧ s.side.inner ≠ s.side := by
  rcases h with (⟨p, q, hm, hd⟩ | ⟨p, q, hm⟩ | ⟨p, q, hm⟩) |
    (⟨p, q, hm, hd⟩ | ⟨p, q, hm⟩ | ⟨p, q, hm⟩)
  · cases ht
  · cases ht
  · exact ⟨hm, nofun⟩
  · cases ht
  · exact ⟨hm, nofun⟩
  · cases ht

/-- A slot joined to one around a model belongs to a sibling, or is internal. -/
theorem Joined.of_outer {g : Graph} {s t : Slot} (h : g.Joined s t) (hs : s.side.inner ≠ s.side)
    (ht : t.side.inner ≠ t.side) : g.parent? s.model = g.parent? t.model := by
  rcases h with (⟨p, q, hm, hd⟩ | ⟨p, q, hm⟩ | ⟨p, q, hm⟩) |
    (⟨p, q, hm, hd⟩ | ⟨p, q, hm⟩ | ⟨p, q, hm⟩)
  · exact hm.trans hd.symm
  · exact absurd rfl hs
  · exact absurd rfl ht
  · exact hd.trans hm.symm
  · exact absurd rfl ht
  · exact absurd rfl hs

/-- Models around which nothing is connected can change their parents. -/
theorem Wired.reparent {g g' : Graph} (h : g.Wired) (hf : g'.Forest) (hsame : SamePorts g g')
    (P : NodeId → Prop) (hparent : ∀ n, ¬ P n → g'.parent? n = g.parent? n)
    (hun : ∀ m, P m → g.Unlinked m) : g'.Wired := by
  have hempty : ∀ m s e, P m → Around m s → e ∉ g.entries s := by
    intro m s e hm hs he
    rw [hun m hm s hs] at he
    cases he
  -- Nothing is recorded of a model that moves.
  have hnot : ∀ m u v, P m → Around m u → g'.Joined v u → u.entry ∉ g.entries v := by
    intro m u v hm hu hvu he
    obtain ⟨t, hte, hvt⟩ := h.linked.joined v _ he
    obtain ⟨hmodel, -⟩ := Prod.mk.inj hte
    by_cases ht : t.side.inner = t.side
    · obtain ⟨hpv, hv⟩ := hvt.of_inner ht
      have hsibling := hvu.of_outer hv hu.2
      by_cases hP : P v.model
      · exact hempty _ v _ hP ⟨rfl, hv⟩ he
      · rw [hparent _ hP, hpv, hmodel] at hsibling
        exact hf.parent_ne hsibling.symm rfl
    · exact hempty m t _ hm ⟨hmodel.trans hu.1, ht⟩ ((h.linked.mem_comm hvt).mp (hte ▸ he))
  have hback : ∀ n, ¬ P n → g.parent? n = g'.parent? n := fun n hn => (hparent n hn).symm
  refine ⟨hf, ?_, ?_, ?_, ?_⟩
  · intro u v huv
    rw [hsame.entries, hsame.entries]
    by_cases hu : ∃ m, P m ∧ Around m u
    · obtain ⟨m, hm, hu⟩ := hu
      rw [List.count_eq_zero.mpr (hempty m u _ hm hu),
        List.count_eq_zero.mpr (hnot m u v hm hu (.inr huv))]
    · by_cases hv : ∃ m, P m ∧ Around m v
      · obtain ⟨m, hm, hv⟩ := hv
        rw [List.count_eq_zero.mpr (hempty m v _ hm hv),
          List.count_eq_zero.mpr (hnot m v u hm hv (.inl huv))]
      · exact h.linked.count_comm (Joined.not_around hparent (.inl huv)
          (fun m hm ha => hu ⟨m, hm, ha⟩) fun m hm ha => hv ⟨m, hm, ha⟩)
  · intro s e he
    rw [hsame.entries] at he
    obtain ⟨t, rfl, hst⟩ := h.linked.joined s e he
    exact ⟨t, rfl, Joined.not_around hback hst (fun m hm hs => hempty m s _ hm hs he)
      fun m hm ht => hempty m t _ hm ht ((h.linked.mem_comm hst).mp he)⟩
  · intro m side p hc hp
    rw [hsame.coupled] at hc
    rw [hsame.ports] at hp ⊢
    exact h.linked.inner m side p hc hp
  · intro m side p hside he
    rw [hsame.entries] at he
    rw [hsame.ports]
    exact h.linked.outer m side p hside he

/-- Under a new parent that is not below the model, the parents still form a forest. -/
theorem Forest.attach {g g' : Graph} (hf : g.Forest) {m c : NodeId} (hm : g.parent? m = none)
    (hc : ¬ g.Below m c) (hcoupled : g.coupled? c = true)
    (hparent : ∀ n, g'.parent? n = if n = m then some c else g.parent? n)
    (hname : ∀ n, (g'.name? n).isSome = (g.name? n).isSome) (hnext : g'.nextId = g.nextId)
    (hkind : ∀ n, g'.coupled? n = g.coupled? n) : g'.Forest where
  bound n hn := by rw [hname] at hn; exact hnext ▸ hf.bound n hn
  above n p hp := by
    rw [hkind]
    rw [hparent] at hp
    split_ifs at hp
    · exact Option.some.inj hp ▸ hcoupled
    · exact hf.above n p hp
  acyclic := by
    classical
    obtain ⟨rank, hrank⟩ := hf.acyclic
    -- The models below `m` go under `c`.
    refine ⟨fun n => if g.Below m n then rank n + rank c + 1 else rank n, fun n p hp => ?_⟩
    rw [hparent] at hp
    split_ifs at hp with hn
    · subst hn
      obtain rfl := Option.some.inj hp
      simp only [if_neg hc, if_pos (Below.refl g n)]
      omega
    · have hlt := hrank n p hp
      by_cases hb : g.Below m p
      · simp only [if_pos hb, if_pos (hb.child hp)]
        omega
      · have hb' : ¬ g.Below m n := by
          intro hb'
          rcases hb'.cases with rfl | ⟨p', hp', hb''⟩
          · exact hn rfl
          · exact hb (Option.some.inj (hp.symm.trans hp') ▸ hb'')
        simp only [if_neg hb, if_neg hb']
        exact hlt

/-- With fewer parents, the parents still form a forest. -/
theorem Forest.mono {g g' : Graph} (hf : g.Forest)
    (hparent : ∀ n c, g'.parent? n = some c → g.parent? n = some c)
    (hname : ∀ n, (g'.name? n).isSome → (g.name? n).isSome) (hnext : g'.nextId = g.nextId)
    (hkind : ∀ n c, g'.parent? n = some c → g'.coupled? c = g.coupled? c) : g'.Forest where
  bound n hn := hnext ▸ hf.bound n (hname n hn)
  above n c hc := (hkind n c hc).trans (hf.above n c (hparent n c hc))
  acyclic := by
    obtain ⟨rank, hrank⟩ := hf.acyclic
    exact ⟨rank, fun n c hc => hrank n c (hparent n c hc)⟩

/-- The graph `g'` is `g` without the models at or below `m`, but for the list of submodels that had
`m`. -/
structure Removed (m : NodeId) (g g' : Graph) : Prop where
  gone : ∀ n, g.Below m n → g'.model n = none
  ports : ∀ s, ¬ g.Below m s.model → g'.portList? s = g.portList? s
  name : ∀ n, ¬ g.Below m n → g'.name? n = g.name? n
  parent : ∀ n, ¬ g.Below m n → g'.parent? n = g.parent? n
  coupled : ∀ n, ¬ g.Below m n → g'.coupled? n = g.coupled? n
  nextId : g'.nextId = g.nextId

theorem Removed.parent?_eq_some {m : NodeId} {g g' : Graph} (h : Removed m g g') {n c : NodeId}
    (hc : g'.parent? n = some c) : ¬ g.Below m n ∧ ¬ g.Below m c ∧ g.parent? n = some c := by
  have hn : ¬ g.Below m n := fun hb => by
    rw [Graph.parent?, h.gone n hb] at hc
    cases hc
  have hc' := (h.parent n hn).symm.trans hc
  exact ⟨hn, fun hb => hn (hb.child hc'), hc'⟩

/-- A slot at the end of a connection belongs to a model with a parent, or to the parent of one. -/
theorem Joined.of_removed {m : NodeId} {g g' : Graph} (h : Removed m g g') {s t : Slot}
    (hst : g'.Joined s t) : ¬ g.Below m s.model ∧ ¬ g.Below m t.model ∧ g.Joined s t := by
  rcases hst with (⟨p, q, hm, hd⟩ | ⟨p, q, hm⟩ | ⟨p, q, hm⟩) |
    (⟨p, q, hm, hd⟩ | ⟨p, q, hm⟩ | ⟨p, q, hm⟩) <;>
  obtain ⟨hm₁, hm₂, hm₃⟩ := h.parent?_eq_some hm
  · obtain ⟨hd₁, -, hd₃⟩ := h.parent?_eq_some hd
    exact ⟨hm₁, hd₁, .inl (.internal p q hm₃ hd₃)⟩
  · exact ⟨hm₂, hm₁, .inl (.input p q hm₃)⟩
  · exact ⟨hm₁, hm₂, .inl (.output p q hm₃)⟩
  · obtain ⟨hd₁, -, hd₃⟩ := h.parent?_eq_some hd
    exact ⟨hd₁, hm₁, .inr (.internal p q hm₃ hd₃)⟩
  · exact ⟨hm₁, hm₂, .inr (.input p q hm₃)⟩
  · exact ⟨hm₂, hm₁, .inr (.output p q hm₃)⟩

/-- A connection between a model below `m` and one that is not goes around `m`. -/
theorem Joined.crosses {m : NodeId} {g : Graph} {s t : Slot} (h : g.Joined s t)
    (hs : ¬ g.Below m s.model) (ht : g.Below m t.model) : Around m t := by
  have hsibling : ∀ {n d c}, g.parent? n = some c → g.parent? d = some c → ¬ g.Below m n →
      g.Below m d → d = m := by
    intro n d c hn hd hbn hbd
    rcases hbd.cases with h | ⟨c', hc', hb⟩
    · exact h
    · obtain rfl := Option.some.inj (hd.symm.trans hc')
      exact absurd (hb.child hn) hbn
  have hchild : ∀ {d c}, g.parent? d = some c → ¬ g.Below m c → g.Below m d → d = m := by
    intro d c hd hbc hbd
    rcases hbd.cases with h | ⟨c', hc', hb⟩
    · exact h
    · obtain rfl := Option.some.inj (hd.symm.trans hc')
      exact absurd hb hbc
  rcases h with (⟨p, q, hm, hd⟩ | ⟨p, q, hm⟩ | ⟨p, q, hm⟩) |
    (⟨p, q, hm, hd⟩ | ⟨p, q, hm⟩ | ⟨p, q, hm⟩)
  · exact ⟨hsibling hm hd hs ht, nofun⟩
  · exact ⟨hchild hm hs ht, nofun⟩
  · exact absurd (ht.child hm) hs
  · exact ⟨hsibling hd hm hs ht, nofun⟩
  · exact absurd (ht.child hm) hs
  · exact ⟨hchild hm hs ht, nofun⟩

/-- Without a model around which nothing is connected, the rest is as it was. -/
theorem Wired.remove {g g' : Graph} (h : g.Wired) {m : NodeId} (hun : g.Unlinked m)
    (hr : Removed m g g') : g'.Wired := by
  have hname : ∀ n, (g'.name? n).isSome → ¬ g.Below m n := by
    intro n hn hb
    rw [Graph.name?, hr.gone n hb] at hn
    cases hn
  have hport : ∀ s : Slot, (g'.portList? s).isSome → ¬ g.Below m s.model := by
    intro s hs hb
    rw [Graph.portList?, hr.gone _ hb] at hs
    cases hs
  have hentries : ∀ s : Slot, ¬ g.Below m s.model → g'.entries s = g.entries s := by
    intro s hs
    rw [Graph.entries, Graph.entries, hr.ports s hs]
  refine ⟨h.forest.mono (fun n c hc => (hr.parent?_eq_some hc).2.2)
    (fun n hn => hr.name n (hname n hn) ▸ hn) hr.nextId
    fun n c hc => hr.coupled c (hr.parent?_eq_some hc).2.1, ?_, ?_, ?_, ?_⟩
  · intro u v huv
    obtain ⟨hu, hv, huv'⟩ := Joined.of_removed hr (.inl huv)
    rw [hentries u hu, hentries v hv]
    exact h.linked.count_comm huv'
  · intro s e he
    have hs := hport s (port_of_mem he)
    rw [hentries s hs] at he
    obtain ⟨t, rfl, hst⟩ := h.linked.joined s e he
    have ht : ¬ g.Below m t.model := by
      intro hb
      have := (h.linked.mem_comm hst).mp he
      rw [hun t (hst.crosses hs hb)] at this
      cases this
    refine ⟨t, rfl, Joined.not_around (P := g.Below m) (fun n hn => (hr.parent n hn).symm) hst ?_ ?_⟩
    · exact fun n hn ha => hs (ha.1 ▸ hn)
    · exact fun n hn ha => ht (ha.1 ▸ hn)
  · intro n side p hc hp
    have hn := hport _ hp
    rw [hr.ports _ hn] at hp
    rw [hr.ports ⟨n, side.inner, p⟩ hn]
    exact h.linked.inner n side p (hr.coupled n hn ▸ hc) hp
  · intro n side p hside he
    obtain ⟨e, he'⟩ := List.exists_mem_of_ne_nil _ he
    have hn := hport _ (port_of_mem he')
    rw [hentries _ hn] at he
    rw [hr.ports ⟨n, side, p⟩ hn]
    exact h.linked.outer n side p hside he

/-! ## Deleting models -/

/-- The graph `g'` is `g` without the models at or below `m`. -/
structure Deleted (m : NodeId) (g g' : Graph) : Prop where
  gone : ∀ n, g.Below m n → g'.model n = none
  kept : ∀ n, ¬ g.Below m n → g'.model n = g.model n
  nextId : g'.nextId = g.nextId

/-- Once the connections around a model are taken out, nothing is connected around it. -/
theorem CutBy.unlinked {g g' : Graph} (h : g.Linked) {m : NodeId}
    (hcut : CutBy (fun u v => Around m u ∨ Around m v) g g') : g'.Unlinked m := by
  intro u hu
  refine List.eq_nil_iff_forall_not_mem.mpr fun e he => ?_
  obtain ⟨t, rfl, hut⟩ := h.joined u e (hcut.sub u he)
  exact hcut.gone u t hut (.inl hu) he

theorem modifyModel_ok {m : NodeId} {f : BaseModel → BaseModel} {g g' : Graph} :
    modifyModel m f g = .ok () g' ↔ ∃ mdl, g.model m = some mdl ∧ g' = g.store m (f mdl) := by
  unfold modifyModel
  rw [EState.bind_eq_ok]
  constructor
  · rintro ⟨mdl, g₁, hget, hset⟩
    obtain ⟨hmdl, rfl⟩ := EState.inspect_eq_ok.mp hget
    exact ⟨mdl, deref_eq_ok.mp hmdl, by simpa using hset.symm⟩
  · rintro ⟨mdl, hmdl, rfl⟩
    exact ⟨mdl, g, EState.inspect_eq_ok.mpr ⟨deref_eq_ok.mpr hmdl, rfl⟩, rfl⟩

/-- While the submodels of `m` are deleted: those of the list `done` are gone, with what was below
them, and the others are as they were but for connections with them. -/
structure Emptying (m : NodeId) (done : List (String × NodeId)) (g g' : Graph) : Prop where
  wired : g'.Wired
  gone : ∀ it ∈ done, ∀ n, g.Below it.2 n → g'.model n = none
  kept : ∀ n, ¬ g.Below m n → g'.model n = g.model n
  shape : ∀ n, n ≠ m → (∀ it ∈ done, ¬ g.Below it.2 n) → g'.shape? n = g.shape? n
  name : g'.name? m = g.name? m
  parent : g'.parent? m = g.parent? m
  coupled : g'.coupled? m = g.coupled? m
  child : ∀ k, g'.child? m k = if k ∈ done.map Prod.fst then none else g.child? m k
  ports : ∀ s, (g'.name? s.model).isSome → (g'.portList? s).isSome = (g.portList? s).isSome
  nextId : g'.nextId = g.nextId

section Emptying

variable {m : NodeId} {done : List (String × NodeId)} {g g₁ : Graph}

/-- What is still there has the name that it had. -/
theorem Emptying.name?_mono (h : Emptying m done g g₁) {n : NodeId} (hn : (g₁.name? n).isSome) :
    g₁.name? n = g.name? n := by
  by_cases hm : n = m
  · exact hm ▸ h.name
  · rw [name?_eq, name?_eq, h.shape n hm]
    intro it hit hb
    rw [Graph.name?, h.gone it hit n hb] at hn
    cases hn

/-- What is still there has the parent that it had. -/
theorem Emptying.parent?_mono (h : Emptying m done g g₁) {n c : NodeId}
    (hn : g₁.parent? n = some c) : g.parent? n = some c := by
  by_cases hm : n = m
  · rw [← hn, hm, h.parent]
  · rw [parent?_eq, ← h.shape n hm, ← parent?_eq, hn]
    intro it hit hb
    rw [Graph.parent?, h.gone it hit n hb] at hn
    cases hn

theorem Emptying.below_mono (h : Emptying m done g g₁) {a n : NodeId} (hb : g₁.Below a n) :
    g.Below a n :=
  hb.mono fun _ _ hp => h.parent?_mono hp

/-- What was below `a` still is, unless it is gone. -/
theorem Emptying.below (h : Emptying m done g g₁) {a n : NodeId} (hb : g.Below a n)
    (hn : ∀ it ∈ done, ¬ g.Below it.2 n) : g₁.Below a n := by
  induction hb with
  | refl => exact Below.refl _ _
  | @tail p n hp hpn ih =>
    have hup : ∀ it ∈ done, ¬ g.Below it.2 p := fun it hit hb => hn it hit (hb.child hpn)
    refine (ih hup).child ?_
    by_cases hm : n = m
    · rw [hm, h.parent, ← hm, hpn]
    · rw [parent?_eq, h.shape n hm hn, ← parent?_eq, hpn]

/-- The rest of the hierarchy, below a submodel that is still there, has not changed. -/
theorem Emptying.listed (h : Emptying m done g g₁) {c : NodeId} (hc : g.Listed c) (hcm : c ≠ m)
    (hparent : ∀ it ∈ done, g.parent? it.2 = some m) (hup : ∀ it ∈ done, ¬ g.Below it.2 c) :
    g₁.Listed c := by
  intro k n
  rw [child?_eq, h.shape c hcm hup, ← child?_eq, hc k n]
  constructor
  · rintro ⟨hk, hp⟩
    have hn : n = m ∨ ∀ it ∈ done, ¬ g.Below it.2 n := by
      refine .inr fun it hit hb => ?_
      rcases hb.cases with rfl | ⟨p, hp', hb'⟩
      · exact hcm (Option.some.inj (hp.symm.trans (hparent it hit)))
      · exact hup it hit (Option.some.inj (hp.symm.trans hp') ▸ hb')
    rcases hn with rfl | hn
    · exact ⟨h.name.trans hk, h.parent.trans hp⟩
    · by_cases hm : n = m
      · subst hm
        exact ⟨h.name.trans hk, h.parent.trans hp⟩
      · rw [name?_eq, parent?_eq, h.shape n hm hn, ← name?_eq, ← parent?_eq]
        exact ⟨hk, hp⟩
  · rintro ⟨hk, hp⟩
    exact ⟨(h.name?_mono (by rw [hk]; rfl)).symm.trans hk, h.parent?_mono hp⟩

end Emptying

/-- Deleting one more submodel. -/
theorem Emptying.step {m y : NodeId} {name : String} {done : List (String × NodeId)} {g g₁ : Graph}
    (hwired : g.Wired) (h : Emptying m done g g₁) (hlisted : ∀ c, g.Below m c → g.Listed c)
    (hdone : ∀ it ∈ done, it.1 ≠ name ∧ g.child? m it.1 = some it.2)
    (hy : g.child? m name = some y) {delete : NodeId → GraphM Unit}
    (hdelete : ∀ g₂, g₂.Wired → (∀ n c, g₂.parent? n = some c → g.parent? n = some c) →
      (∀ n, (g₂.name? n).isSome → (g.name? n).isSome) → (g₂.name? y).isSome →
      (∀ c, g₂.Below y c → g₂.Listed c) → ∃ g₃, delete y g₂ = .ok () g₃ ∧ Deleted y g₂ g₃) :
    ∃ g₄, (do
      CoupledModel.delAllConnection m y
      delete y
      modifyModel m fun cpled => cpled.setModelList (cpled.modelList.erase name)) g₁ = .ok () g₄ ∧
      Emptying m (done ++ [(name, y)]) g g₄ := by
  obtain ⟨hyname, hyparent⟩ := (hlisted m (Below.refl g m) name y).mp hy
  have hparent : ∀ it ∈ done, g.parent? it.2 = some m := fun it hit =>
    ((hlisted m (Below.refl g m) _ _).mp (hdone it hit).2).2
  -- The submodels already deleted are not above `y`.
  have hyup : ∀ it ∈ done, ¬ g.Below it.2 y := by
    intro it hit hb
    obtain rfl := hwired.forest.below_disjoint hyparent (hparent it hit) (Below.refl g y) hb
    have := ((hlisted m (Below.refl g m) _ _).mp (hdone it hit).2).1
    exact (hdone it hit).1 (Option.some.inj (this.symm.trans hyname))
  have hym : y ≠ m := hwired.forest.parent_ne hyparent
  have hyparent₁ : g₁.parent? y = some m := by
    rw [parent?_eq, h.shape y hym hyup, ← parent?_eq, hyparent]
  obtain ⟨g₂, hg₂, hcut, hframe⟩ := h.wired.delAllConnection hyparent₁
  have hr := hcut.rewired
  have hwired₂ : g₂.Wired := h.wired.cut hcut fun u v => or_comm
  have hbelow₂ : ∀ {a n}, g₂.Below a n ↔ g₁.Below a n := by
    intro a n
    exact ⟨Below.mono fun n c hp => hr.parent? n ▸ hp,
      Below.mono fun n c hp => (hr.parent? n).trans hp⟩
  have hname₂ : (g₂.name? y).isSome := by
    rw [hr.name?, name?_eq, h.shape y hym hyup, ← name?_eq, hyname]
    rfl
  obtain ⟨g₃, hg₃, hdel⟩ := hdelete g₂ hwired₂ (fun n c hn => h.parent?_mono (hr.parent? n ▸ hn))
    (fun n hn => by rw [hr.name?] at hn; exact h.name?_mono hn ▸ hn) hname₂
    (fun c hc => by
      have hb : g.Below y c := h.below_mono (hbelow₂.mp hc)
      refine hr.listed (h.listed (hlisted c ((Below.refl g m).child hyparent |>.trans hb)) ?_
        hparent fun it hit hb' => ?_)
      · rintro rfl
        exact hwired.forest.not_below hyparent hb
      · exact hyup it hit (by
          have := hwired.forest.below_disjoint hyparent (hparent it hit) hb hb'
          exact this ▸ Below.refl g y))
  -- `m` is not below its submodel.
  have hmy : ¬ g₂.Below y m := fun hb =>
    hwired.forest.not_below hyparent (h.below_mono (hbelow₂.mp hb))
  have hm₃ : g₃.model m = g₂.model m := hdel.kept m hmy
  have hcoupled₂ : g₂.coupled? m = true := by
    rw [hr.coupled?, h.coupled]
    exact hwired.forest.above y m hyparent
  obtain ⟨mdl, hmdl, hmc⟩ : ∃ mdl, g₂.model m = some mdl ∧ mdl.isCoupled = true := by
    unfold coupled? at hcoupled₂
    cases hmdl : g₂.model m with
    | none => rw [hmdl] at hcoupled₂; cases hcoupled₂
    | some mdl => exact ⟨mdl, rfl, by simpa [hmdl] using hcoupled₂⟩
  set mdl' := mdl.setModelList (mdl.modelList.erase name) with hmdl'
  have hg₄ := modifyModel_ok (f := fun cpled => cpled.setModelList (cpled.modelList.erase name)).mpr
    ⟨mdl, hm₃.trans hmdl, rfl⟩
  refine ⟨g₃.store m mdl', (EState.bind_run hg₂).trans ((EState.bind_run hg₃).trans hg₄), ?_⟩
  have hmodel₄ : ∀ n, n ≠ m → ¬ g₂.Below y n → (g₃.store m mdl').model n = g₂.model n := by
    intro n hn hb
    rw [model_store, Function.update_of_ne hn, hdel.kept n hb]
  have hremoved : Removed y g₂ (g₃.store m mdl') := by
    refine ⟨fun n hb => ?_, fun s hs => ?_, fun n hn => ?_, fun n hn => ?_, fun n hn => ?_,
      hdel.nextId⟩
    · rw [model_store, Function.update_of_ne (by rintro rfl; exact hmy hb), hdel.gone n hb]
    · rw [portList?_store (hm₃.trans hmdl) (by funext side; simp [mdl']), portList?, portList?,
        hdel.kept _ hs]
    · rw [name?_store]
      split_ifs with e
      · rw [e, Graph.name?, hmdl]; simp [mdl']
      · rw [Graph.name?, Graph.name?, hdel.kept n hn]
    · rw [parent?_store]
      split_ifs with e
      · rw [e, Graph.parent?, hmdl]; simp [mdl']
      · rw [Graph.parent?, Graph.parent?, hdel.kept n hn]
    · rw [coupled?_store]
      split_ifs with e
      · rw [e, Graph.coupled?, hmdl]; simp [mdl']
      · rw [Graph.coupled?, Graph.coupled?, hdel.kept n hn]
  refine ⟨hwired₂.remove (hcut.unlinked h.wired.linked) hremoved, ?_, fun n hn => ?_,
    fun n hn hup => ?_, ?_, ?_, ?_, fun k => ?_, fun s hs => ?_, ?_⟩
  · intro it hit n hb
    rcases List.mem_append.mp hit with hit | hit
    · have hnone := h.gone it hit n hb
      have hn : n ≠ m := by
        rintro rfl
        exact hwired.forest.not_below (hparent it hit) hb
      rw [model_store, Function.update_of_ne hn]
      by_cases hby : g₂.Below y n
      · exact hdel.gone n hby
      · rw [hdel.kept n hby]
        have := congrFun hr.shape n
        unfold shape? at this
        rw [hnone] at this
        exact Option.map_eq_none_iff.mp this
    · obtain rfl := List.mem_singleton.mp hit
      refine hremoved.gone n (hbelow₂.mpr (h.below hb fun it' hit' hb' => hyup it' hit' ?_))
      exact hwired.forest.below_disjoint hyparent (hparent it' hit') hb hb' ▸ Below.refl g y
  · have hnm : n ≠ m := by rintro rfl; exact hn (Below.refl g n)
    have hbn : ¬ g₂.Below y n := fun hb =>
      hn (((Below.refl g m).child hyparent).trans (h.below_mono (hbelow₂.mp hb)))
    rw [hmodel₄ n hnm hbn, hframe n hnm fun hp => hn ((Below.refl g m).child (h.parent?_mono hp)),
      h.kept n hn]
  · have hbn : ¬ g₂.Below y n := fun hb =>
      hup (name, y) (by simp) (h.below_mono (hbelow₂.mp hb))
    rw [shape?, hmodel₄ n hn hbn, ← shape?, hr.shape]
    exact h.shape n hn fun it hit => hup it (by simp [hit])
  · rw [hremoved.name m hmy, hr.name?, h.name]
  · rw [hremoved.parent m hmy, hr.parent?, h.parent]
  · rw [hremoved.coupled m hmy, hr.coupled?, h.coupled]
  · rw [child?_store, if_pos rfl, hmdl', BaseModel.modelList_setModelList hmc, List.map_append]
    have hchild : mdl.modelList.lookup k = g₁.child? m k := by
      rw [← hr.child?, Graph.child?, hmdl]
      rfl
    by_cases hk : k = name
    · subst hk
      rw [AList.lookup_erase, if_pos (by simp)]
    · have hiff : k ∈ done.map Prod.fst ++ [(name, y)].map Prod.fst ↔ k ∈ done.map Prod.fst := by
        simp [hk]
      rw [AList.lookup_erase_ne hk, hchild, h.child]
      simp only [hiff]
  · have hb : ¬ g₂.Below y s.model := fun hb => by
      rw [Graph.name?, hremoved.gone _ hb] at hs
      cases hs
    rw [hremoved.ports s hb, hr.ports]
    refine h.ports s ?_
    rw [← hr.name?, ← hremoved.name _ hb]
    exact hs
  · exact hdel.nextId.trans (hr.nextId.trans h.nextId)

/-- Nothing is deleted yet. -/
theorem Emptying.start {m : NodeId} {g : Graph} (h : g.Wired) : Emptying m [] g g :=
  ⟨h, nofun, fun _ _ => rfl, fun _ _ _ => rfl, rfl, rfl, rfl, fun k => by simp, fun _ _ => rfl, rfl⟩

/-- An iteration over a map meets each key once. -/
theorem nodup_inOrder {β : Type} (m : AList fun _ : String => β) :
    ((inOrder m).map Prod.fst).Nodup := by
  unfold inOrder
  rw [((List.perm_insertionSort _ _).map Prod.fst).nodup_iff, List.map_map]
  exact m.nodupKeys

/-- Changes that only concern lists of submodels. -/
theorem Wired.relist {g g' : Graph} (h : g.Wired) (hsame : SamePorts g g')
    (hname : ∀ n, g'.name? n = g.name? n) (hparent : ∀ n, g'.parent? n = g.parent? n) :
    g'.Wired :=
  h.reparent (h.forest.mono (fun n _ hc => hparent n ▸ hc) (fun n hn => hname n ▸ hn) hsame.nextId
    fun _ _ _ => hsame.coupled _) hsame (fun _ => False) (fun n _ => hparent n) nofun

/-- What `setModelList` changes. -/
theorem samePorts_setModelList {g : Graph} {m : NodeId} {mdl : BaseModel}
    (hm : g.model m = some mdl) (l : ModelList) :
    SamePorts g (g.store m (mdl.setModelList l)) ∧
      (∀ n, (g.store m (mdl.setModelList l)).name? n = g.name? n) ∧
      ∀ n, (g.store m (mdl.setModelList l)).parent? n = g.parent? n := by
  refine ⟨⟨portList?_store hm (by funext side; simp), fun n => ?_, rfl⟩, fun n => ?_, fun n => ?_⟩
  · rw [coupled?_store]
    split_ifs with e
    · rw [e, coupled?, hm]; simp
    · rfl
  · rw [name?_store]
    split_ifs with e
    · rw [e, Graph.name?, hm]; simp
    · rfl
  · rw [parent?_store]
    split_ifs with e
    · rw [e, Graph.parent?, hm]; simp
    · rfl

/-- `delAllModel` deletes the submodels of `m`, and what is below them, and nothing else. -/
theorem Wired.delAllModelWith {g : Graph} (h : g.Wired) {m : NodeId} {mdl : BaseModel}
    (hm : g.model m = some mdl) (hc : mdl.isCoupled = true)
    (hlisted : ∀ c, g.Below m c → g.Listed c) (delete : NodeId → GraphM Unit)
    (hdelete : ∀ y, g.parent? y = some m →
      ∀ g₂, g₂.Wired → (∀ n c, g₂.parent? n = some c → g.parent? n = some c) →
      (∀ n, (g₂.name? n).isSome → (g.name? n).isSome) → (g₂.name? y).isSome →
      (∀ c, g₂.Below y c → g₂.Listed c) → ∃ g₃, delete y g₂ = .ok () g₃ ∧ Deleted y g₂ g₃) :
    ∃ g', CoupledModel.delAllModelWith delete m g = .ok () g' ∧
      Emptying m (inOrder mdl.modelList) g g' := by
  have hchild : ∀ it ∈ inOrder mdl.modelList, g.child? m it.1 = some it.2 := by
    rintro ⟨k, y⟩ hit
    rw [child?, hm, Option.bind_some, (mem_inOrder _ k y).mp hit]
  obtain ⟨g₁, hg₁, hempty⟩ := EState.forM_total (I := fun done g₁ => Emptying m done g g₁)
    (f := fun it => do
      CoupledModel.delAllConnection m it.2
      delete it.2
      modifyModel m fun cpled => cpled.setModelList (cpled.modelList.erase it.1))
    (inOrder mdl.modelList) (s := g)
    (fun done it todo g₁ hsplit hi => by
      have hmem : it ∈ inOrder mdl.modelList := by simp [hsplit]
      have hnodup := nodup_inOrder mdl.modelList
      rw [hsplit, List.map_append, List.map_cons] at hnodup
      refine hi.step h hlisted (fun it' hit' => ⟨?_, hchild it' (by simp [hsplit, hit'])⟩)
        (hchild it hmem) (hdelete it.2 ((hlisted m (Below.refl g m) _ _).mp (hchild it hmem)).2)
      exact fun e => List.disjoint_of_nodup_append hnodup (List.mem_map_of_mem hit')
        (e ▸ List.mem_cons_self))
    (Emptying.start h)
  obtain ⟨mdl₁, hmdl₁⟩ := exists_of_name? (g := g₁) (m := m)
    (by rw [hempty.name, Graph.name?, hm]; rfl)
  have hclear := modifyModel_ok (f := fun cpled => cpled.setModelList ∅).mpr ⟨mdl₁, hmdl₁, rfl⟩
  obtain ⟨hsame, hname, hparent⟩ := samePorts_setModelList hmdl₁ ∅
  refine ⟨g₁.store m (mdl₁.setModelList ∅), (EState.inspect_bind_run (s := g)
    (deref_eq_ok.mpr hm)).trans ((EState.bind_run hg₁).trans hclear),
    hempty.wired.relist hsame hname hparent, fun it hit n hb => ?_, fun n hn => ?_,
    fun n hn hup => ?_, (hname m).trans hempty.name, (hparent m).trans hempty.parent,
    (hsame.coupled m).trans hempty.coupled, fun k => ?_, fun s hs => ?_, hempty.nextId⟩
  · have hnm : n ≠ m := by
      rintro rfl
      exact h.forest.not_below ((hlisted n (Below.refl g n) _ _).mp (hchild it hit)).2 hb
    rw [model_store, Function.update_of_ne hnm, hempty.gone it hit n hb]
  · rw [model_store, Function.update_of_ne (by rintro rfl; exact hn (Below.refl g n)),
      hempty.kept n hn]
  · rw [shape?, model_store, Function.update_of_ne hn, ← shape?, hempty.shape n hn hup]
  · have hcoupled : mdl₁.isCoupled = true := by
      have := hempty.coupled
      unfold coupled? at this
      rw [hm, hmdl₁] at this
      simpa [hc] using this
    rw [child?_store, if_pos rfl, BaseModel.modelList_setModelList hcoupled]
    split_ifs with hk
    · rfl
    · cases hlookup : g.child? m k with
      | none => rfl
      | some y =>
        refine absurd (List.mem_map.mpr ⟨(k, y), (mem_inOrder _ k y).mpr ?_, rfl⟩) hk
        rwa [child?, hm, Option.bind_some] at hlookup
  · rw [hsame.ports]
    exact hempty.ports s (hname _ ▸ hs)

/-- `delete` on a model deletes what is at or below it and nothing else. `rank` bounds the depth. -/
theorem Wired.deleteModel {N : ℕ} (rank : NodeId → ℕ) (fuel : ℕ) {g : Graph} (h : g.Wired)
    {m : NodeId} (hrank : ∀ n c, g.parent? n = some c → rank c < rank n)
    (hbound : ∀ n, (g.name? n).isSome → rank n < N) (hm : (g.name? m).isSome)
    (hfuel : N ≤ rank m + fuel) (hlisted : ∀ c, g.Below m c → g.Listed c) :
    ∃ g', CoupledModel.deleteModel fuel m g = .ok () g' ∧ Deleted m g g' := by
  induction fuel generalizing g m with
  | zero => have := hbound m hm; omega
  | succ fuel ih =>
    obtain ⟨mdl, hmdl⟩ := exists_of_name? hm
    cases hc : mdl.isCoupled with
    | false =>
      -- An atomic model has nothing below it.
      have hbelow : ∀ n, g.Below m n → n = m := by
        intro n hb
        induction hb with
        | refl => rfl
        | tail _ hn ihn =>
          have := h.forest.above _ _ hn
          rw [ihn, coupled?, hmdl] at this
          simp [hc] at this
      refine ⟨g.free m, ?_, fun n hb => ?_, fun n hb => ?_, rfl⟩
      · refine (EState.inspect_bind_run (s := g) (deref_eq_ok.mpr hmdl)).trans ?_
        simp [hc]
      · rw [hbelow n hb]; exact Function.update_self ..
      · exact Function.update_of_ne (by rintro rfl; exact hb (Below.refl g n)) ..
    | true =>
      obtain ⟨g₁, hg₁, hempty⟩ := h.delAllModelWith hmdl hc hlisted
        (CoupledModel.deleteModel fuel) fun y hy g₂ h₂ hparent₂ hname₂ hy₂ hlisted₂ =>
          ih h₂ (fun n c hn => hrank n c (hparent₂ n c hn)) (fun n hn => hbound n (hname₂ n hn)) hy₂
            (by have := hrank y m hy; omega) hlisted₂
      refine ⟨g₁.free m, ?_, fun n hb => ?_, fun n hb => ?_, hempty.nextId⟩
      · refine (EState.inspect_bind_run (s := g) (deref_eq_ok.mpr hmdl)).trans ?_
        rw [if_pos hc]
        exact EState.bind_run hg₁
      · by_cases hnm : n = m
        · rw [hnm]; exact Function.update_self ..
        · rcases Relation.ReflTransGen.cases_head hb with rfl | ⟨y, hy, hyn⟩
          · exact absurd rfl hnm
          · -- What is below `m` is below one of its submodels.
            obtain ⟨k, hk⟩ := Option.isSome_iff_exists.mp (name?_of_parent? hy)
            have hlookup := (hlisted m (Below.refl g m) k y).mpr ⟨hk, hy⟩
            rw [child?, hmdl, Option.bind_some] at hlookup
            exact (Function.update_of_ne hnm ..).trans
              (hempty.gone (k, y) ((mem_inOrder _ k y).mpr hlookup) n hyn)
      · exact (Function.update_of_ne (by rintro rfl; exact hb (Below.refl g n)) ..).trans
          (hempty.kept n hb)

/-- Below `m`, parents that agree with others give the same models. -/
theorem below_congr {g g' : Graph} (hparent : ∀ n, g'.parent? n = g.parent? n) {m n : NodeId} :
    g'.Below m n ↔ g.Below m n :=
  ⟨Below.mono fun n _ h => hparent n ▸ h, Below.mono fun n _ h => (hparent n).trans h⟩

/-- The graph `g'` is `g` without the submodel `m` of `c`: the connections around it are taken out,
then it goes with what is below it. -/
structure DelModel (c m : NodeId) (g g' : Graph) : Prop where
  cut : ∃ g₁, CutBy (fun u v => Around m u ∨ Around m v) g g₁ ∧ Frame c g g₁ ∧ Removed m g₁ g' ∧
    ∀ n, n ≠ c → ¬ g.Below m n → g'.model n = g₁.model n
  child : ∀ k, g'.child? c k = if g.name? m = some k then none else g.child? c k

/-- `delModel` on a submodel of `c`. -/
theorem WellFormed.delModel {g : Graph} (h : g.WellFormed) {c m : NodeId}
    (hm : g.parent? m = some c) :
    ∃ g', CoupledModel.delModel c m g = .ok () g' ∧ g'.WellFormed ∧ DelModel c m g g' := by
  obtain ⟨model, hmodel⟩ := exists_of_name? (name?_of_parent? hm)
  have hname : g.name? m = some model.name := by rw [Graph.name?, hmodel]; rfl
  have hfind : g.child? c model.name = some m := (h.listed c _ _).mpr ⟨hname, hm⟩
  obtain ⟨cpled, hcpled, hlookup⟩ := Option.bind_eq_some_iff.mp hfind
  obtain ⟨g₁, hg₁, hcut, hframe⟩ := h.delAllConnection hm
  have hr := hcut.rewired
  have h₁ : g₁.Wired := h.cut hcut fun u v => or_comm
  have hun₁ := hcut.unlinked h.linked
  have hcoupled₁ : g₁.coupled? c = true := (hr.coupled? c).trans (h.forest.above m c hm)
  obtain ⟨cpled₁, hcpled₁, hc₁⟩ : ∃ mdl, g₁.model c = some mdl ∧ mdl.isCoupled = true := by
    unfold coupled? at hcoupled₁
    cases hmdl : g₁.model c with
    | none => rw [hmdl] at hcoupled₁; cases hcoupled₁
    | some mdl => exact ⟨mdl, rfl, by simpa [hmdl] using hcoupled₁⟩
  set cpled' := cpled₁.setModelList (cpled₁.modelList.erase model.name) with hcpled'
  have hg₂ := modifyModel_ok (f := fun cpled => cpled.setModelList (cpled.modelList.erase model.name))
    |>.mpr ⟨cpled₁, hcpled₁, rfl⟩
  obtain ⟨hsame, hname₂, hparent₂⟩ :=
    samePorts_setModelList hcpled₁ (cpled₁.modelList.erase model.name)
  set g₂ := g₁.store c cpled' with hg₂'
  have hbelow₁ : ∀ {n}, g₁.Below m n ↔ g.Below m n := below_congr hr.parent?
  have hbelow₂ : ∀ {n}, g₂.Below m n ↔ g.Below m n :=
    below_congr fun n => (hparent₂ n).trans (hr.parent? n)
  have hcm : ¬ g.Below m c := h.forest.not_below hm
  obtain ⟨rank, hrank, hbound⟩ := h.forest.exists_rank
  obtain ⟨g₃, hg₃, hdel⟩ := (h₁.relist hsame hname₂ hparent₂).deleteModel (N := g.nextId)
    rank g₂.nextId (m := m)
    (fun n c hn => hrank n c (by rwa [hparent₂, hr.parent?] at hn))
    (fun n hn => hbound n (by rwa [hname₂, hr.name?] at hn))
    (by rw [hname₂, hr.name?, hname]; rfl)
    (by rw [hsame.nextId, hr.nextId]; omega)
    (fun c' hb k n => by
      have hc' : c' ≠ c := by
        rintro rfl
        exact hcm (hbelow₂.mp hb)
      rw [hg₂', child?_store, if_neg hc', ← hg₂', hname₂, hparent₂, hr.child?, hr.name?, hr.parent?]
      exact h.listed c' k n)
  have hremoved : Removed m g₁ g₃ := by
    refine ⟨fun n hb => hdel.gone n (hbelow₂.mpr (hbelow₁.mp hb)), fun s hs => ?_, fun n hn => ?_,
      fun n hn => ?_, fun n hn => ?_, hdel.nextId.trans hsame.nextId⟩ <;>
    rw [hbelow₁, ← hbelow₂] at *
    · rw [← hsame.ports, portList?, portList?, hdel.kept _ hs]
    · rw [← hname₂, Graph.name?, Graph.name?, hdel.kept _ hn]
    · rw [← hparent₂, Graph.parent?, Graph.parent?, hdel.kept _ hn]
    · rw [← hsame.coupled, Graph.coupled?, Graph.coupled?, hdel.kept _ hn]
  have hchild : ∀ k, g₃.child? c k = if g.name? m = some k then none else g.child? c k := by
    intro k
    rw [child?, hdel.kept c (mt hbelow₂.mp hcm), ← child?, hg₂', child?_store, if_pos rfl, hcpled',
      BaseModel.modelList_setModelList hc₁, hname]
    by_cases hk : k = model.name
    · subst hk
      rw [AList.lookup_erase, if_pos rfl]
    · rw [AList.lookup_erase_ne hk, if_neg fun e => hk (Option.some.inj e).symm, ← hr.child?, child?,
        hcpled₁]
      rfl
  refine ⟨g₃, ?_, ⟨h₁.remove hun₁ hremoved, ?_⟩, ⟨g₁, hcut, hframe, hremoved, fun n hn hb => ?_⟩,
    hchild⟩
  · refine (EState.inspect_bind_run (s := g) (deref_eq_ok.mpr hmodel)).trans ?_
    refine (EState.inspect_bind_run (s := g) (a := some m) ?_).trans ?_
    · rw [findModel, deref_eq_ok.mpr hcpled]
      exact congrArg Except.ok hlookup
    · exact (EState.bind_run hg₁).trans ((EState.bind_run hg₂).trans hg₃)
  · -- A model that keeps its parent keeps its name and its place in the list.
    have hstay : ∀ c' k n, (g₃.name? n = some k ∧ g₃.parent? n = some c') ↔
        (g.name? n = some k ∧ g.parent? n = some c' ∧ ¬ g.Below m n) := by
      intro c' k n
      constructor
      · rintro ⟨hk, hp⟩
        obtain ⟨hn, -, hp₁⟩ := hremoved.parent?_eq_some hp
        rw [hremoved.name n hn, hr.name?] at hk
        exact ⟨hk, hr.parent? n ▸ hp₁, mt hbelow₁.mpr hn⟩
      · rintro ⟨hk, hp, hn⟩
        have hn₁ := mt hbelow₁.mp hn
        rw [hremoved.name n hn₁, hremoved.parent n hn₁, hr.name?, hr.parent?]
        exact ⟨hk, hp⟩
    intro c' k n
    rw [hstay]
    by_cases hb : g.Below m c'
    · have hnone : g₃.child? c' k = none := by
        rw [child?, hremoved.gone c' (hbelow₁.mpr hb)]
        rfl
      rw [hnone]
      simp only [reduceCtorEq, false_iff]
      rintro ⟨-, hp, hn⟩
      exact hn (hb.child hp)
    · have hlist := h.listed c' k n
      by_cases hc' : c' = c
      · subst hc'
        rw [hchild]
        split_ifs with hk
        · simp only [false_iff]
          rintro ⟨hkn, hp, hn⟩
          refine hn ?_
          have := (hlist.mpr ⟨hkn, hp⟩).symm.trans ((h.listed c' k m).mpr ⟨hk, hm⟩)
          exact Option.some.inj this ▸ Below.refl g _
        · rw [hlist]
          refine and_congr_right fun hkn => ⟨fun hp => ⟨hp, fun hbn => ?_⟩, And.left⟩
          rcases hbn.cases with rfl | ⟨p, hp', hbp⟩
          · exact hk hkn
          · exact hb (Option.some.inj (hp.symm.trans hp') ▸ hbp)
      · have hsamechild : g₃.child? c' k = g.child? c' k := by
          rw [child?, hdel.kept c' (mt hbelow₂.mp hb), ← child?, hg₂', child?_store, if_neg hc',
            hr.child?]
        rw [hsamechild, hlist]
        refine and_congr_right fun _ => ⟨fun hp => ⟨hp, fun hbn => ?_⟩, And.left⟩
        rcases hbn.cases with rfl | ⟨p, hp', hbp⟩
        · exact hc' (Option.some.inj (hp.symm.trans hm))
        · exact hb (Option.some.inj (hp.symm.trans hp') ▸ hbp)
  · rw [hdel.kept n (mt hbelow₂.mp hb), hg₂', model_store, Function.update_of_ne hn]

end Graph

end Vle.Vpz
