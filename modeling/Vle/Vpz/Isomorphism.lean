import Vle.Vpz.Copy

/-!
# A hierarchy with a copy in it

`Copied` read as facts about the two hierarchies: what the copies are called, where they are, what they
are connected to. A connection of the hierarchy that a copy comes into is one that was there, or the
copy of one of the original (`Copied.joins_cases`), so that the hierarchy stays well formed; and routes
go from copy to copy as they go in the original (`Copied.map_route`).
-/

namespace Vle.Vpz

open Vle.Lib Vle.Vpz.Graph

namespace BaseModel

theorem isCoupled_attributes (m : BaseModel) : m.attributes.isCoupled = m.isCoupled := by
  obtain ⟨name, parent, ins, outs, x, y, w, h, kind⟩ := m
  cases kind <;> rfl

theorem name_attributes (m : BaseModel) : m.attributes.name = m.name := rfl

end BaseModel

/-- The list of a copy that stands for the list `s`. -/
def Slot.map (φ : NodeId → NodeId) (s : Slot) : Slot := { s with model := φ s.model }

namespace Graph

section Copied

variable {φ : NodeId → NodeId} {m n : NodeId} {g h h' : Graph}

theorem Below.exists_model (hm : (g.name? m).isSome) (hn : g.Below m n) : ∃ mdl, g.model n = some mdl := by
  rcases hn.cases with rfl | ⟨p, hp, -⟩
  · exact exists_of_name? hm
  · exact exists_of_name? (name?_of_parent? hp)

/-- A model with a port exists. -/
theorem name?_of_port {s : Slot} (hs : (g.portList? s).isSome) : (g.name? s.model).isSome := by
  obtain ⟨mdl, hmdl⟩ := exists_of_port hs
  rw [Graph.name?, hmdl]
  rfl

theorem under_eq : g.Under (· = m) n ↔ g.Below m n :=
  ⟨fun ⟨_, hr, hb⟩ => hr ▸ hb, fun hb => ⟨m, rfl, hb⟩⟩

namespace Copied

section Read

variable (hc : Copied φ m g h h') (hm : (g.name? m).isSome) (hn : g.Below m n)
include hc hm hn

theorem copy : ∃ mdl mdl', g.model n = some mdl ∧ h'.model (φ n) = some mdl' ∧
    IsCopy φ (n = m) none mdl mdl' := by
  obtain ⟨mdl, hmdl⟩ := hn.exists_model hm
  obtain ⟨mdl', hmdl', hcopy⟩ := hc.copies.copy n (under_eq.mpr hn) mdl hmdl
  exact ⟨mdl, mdl', hmdl, hmdl', hcopy⟩

omit hm in
theorem fresh : h.nextId ≤ φ n ∧ φ n < h'.nextId := hc.copies.fresh n (under_eq.mpr hn)

theorem name? : h'.name? (φ n) = g.name? n := by
  obtain ⟨mdl, mdl', hmdl, hmdl', hcopy⟩ := hc.copy hm hn
  rw [Graph.name?, Graph.name?, hmdl, hmdl']
  have := congrArg BaseModel.name hcopy.attributes
  exact congrArg some this

theorem coupled? : h'.coupled? (φ n) = g.coupled? n := by
  obtain ⟨mdl, mdl', hmdl, hmdl', hcopy⟩ := hc.copy hm hn
  have := congrArg BaseModel.isCoupled hcopy.attributes
  rw [BaseModel.isCoupled_attributes, BaseModel.isCoupled_attributes] at this
  rw [Graph.coupled?, Graph.coupled?, hmdl, hmdl', Option.map_some, Option.map_some, this]

theorem child? (name : String) : h'.child? (φ n) name = (g.child? n name).map φ := by
  obtain ⟨mdl, mdl', hmdl, hmdl', hcopy⟩ := hc.copy hm hn
  rw [Graph.child?, Graph.child?, hmdl, hmdl']
  exact hcopy.child name

theorem parent? (hnm : n ≠ m) : h'.parent? (φ n) = (g.parent? n).map φ := by
  obtain ⟨mdl, mdl', hmdl, hmdl', hcopy⟩ := hc.copy hm hn
  rw [Graph.parent?, Graph.parent?, hmdl, hmdl']
  exact hcopy.parent hnm

theorem ports (side : Side) (p : String) :
    (h'.portList? ⟨φ n, side, p⟩).isSome = (g.portList? ⟨n, side, p⟩).isSome := by
  obtain ⟨mdl, mdl', hmdl, hmdl', hcopy⟩ := hc.copy hm hn
  rw [Graph.portList?, Graph.portList?, hmdl, hmdl']
  exact hcopy.ports side p

theorem entries {side : Side} (hnot : ¬ (n = m ∧ side.inner ≠ side)) (p : String) :
    (h'.entries ⟨φ n, side, p⟩ : Multiset ModelPort) =
      (g.entries ⟨n, side, p⟩ : Multiset ModelPort).map (Prod.map φ id) := by
  obtain ⟨mdl, mdl', hmdl, hmdl', hcopy⟩ := hc.copy hm hn
  rw [Graph.entries, Graph.entries, Graph.portList?, Graph.portList?, hmdl, hmdl']
  exact hcopy.ends side p hnot

end Read

theorem parent?_root (hc : Copied φ m g h h') (hm : (g.name? m).isSome) : h'.parent? (φ m) = none := by
  obtain ⟨mdl, mdl', hmdl, hmdl', hcopy⟩ := hc.copy hm (Below.refl g m)
  rw [Graph.parent?, hmdl']
  exact hcopy.top rfl

/-- Nothing is connected around the copy. -/
theorem entries_root (hc : Copied φ m g h h') (hm : (g.name? m).isSome) {side : Side}
    (hs : side.inner ≠ side) (p : String) : h'.entries ⟨φ m, side, p⟩ = [] := by
  obtain ⟨mdl, mdl', hmdl, hmdl', hcopy⟩ := hc.copy hm (Below.refl g m)
  have := hcopy.outer side p rfl hs
  rw [Graph.entries, Graph.portList?, hmdl']
  exact Multiset.coe_eq_zero _ |>.mp this

/-- A model is one of the copies, or was there before. -/
theorem old_or_new (hc : Copied φ m g h h') (hf : h.Forest) {k : NodeId} (hk : (h'.name? k).isSome) :
    k < h.nextId ∨ ∃ n, g.Below m n ∧ φ n = k := by
  by_cases hlt : k < h.nextId
  · exact .inl hlt
  refine .inr ?_
  have hnone : h.model k = none := by
    by_contra hsome
    obtain ⟨mdl, hmdl⟩ := Option.ne_none_iff_exists'.mp hsome
    refine hlt (hf.bound k ?_)
    rw [Graph.name?, hmdl]
    rfl
  have hlt' : k < h'.nextId := by
    by_contra hge
    rw [Graph.name?, hc.beyond k (not_lt.mp hge) hnone] at hk
    cases hk
  obtain ⟨n, hn, rfl⟩ := hc.copies.onto k (not_lt.mp hlt) hlt'
  exact ⟨n, under_eq.mp hn, rfl⟩

/-- What a model that was there before is, is what it was. -/
theorem old (hc : Copied φ m g h h') {k : NodeId} (hk : k < h.nextId) :
    h'.name? k = h.name? k ∧ h'.coupled? k = h.coupled? k ∧ h'.parent? k = h.parent? k ∧
      (∀ name, h'.child? k name = h.child? k name) ∧
      ∀ side p, h'.portList? ⟨k, side, p⟩ = h.portList? ⟨k, side, p⟩ := by
  have := hc.kept k hk
  refine ⟨?_, ?_, ?_, fun name => ?_, fun side p => ?_⟩
  · rw [Graph.name?, Graph.name?, this]
  · rw [Graph.coupled?, Graph.coupled?, this]
  · rw [Graph.parent?, Graph.parent?, this]
  · rw [Graph.child?, Graph.child?, this]
  · rw [Graph.portList?, Graph.portList?, this]

/-- The parent of a model that was there before was there before; that of a copy is a copy. -/
theorem parent_cases (hc : Copied φ m g h h') (hf : h.Forest) (hm : (g.name? m).isSome) {k c : NodeId}
    (hk : h'.parent? k = some c) : (k < h.nextId ∧ c < h.nextId ∧ h.parent? k = some c) ∨
      ∃ n p, g.Below m n ∧ g.Below m p ∧ n ≠ m ∧ g.parent? n = some p ∧ φ n = k ∧ φ p = c := by
  rcases hc.old_or_new hf (name?_of_parent? hk) with hlt | ⟨n, hn, rfl⟩
  · rw [(hc.old hlt).2.2.1] at hk
    obtain ⟨mdl, hmdl⟩ : ∃ mdl, h.model c = some mdl := by
      have := hf.above k c hk
      unfold Graph.coupled? at this
      cases hcm : h.model c with
      | none => rw [hcm] at this; cases this
      | some mdl => exact ⟨mdl, rfl⟩
    exact .inl ⟨hlt, hf.bound c (by rw [Graph.name?, hmdl]; rfl), hk⟩
  · by_cases hnm : n = m
    · rw [hnm, hc.parent?_root hm] at hk
      cases hk
    · rw [hc.parent? hm hn hnm, Option.map_eq_some_iff] at hk
      obtain ⟨p, hp, rfl⟩ := hk
      rcases hn.cases with h | ⟨q, hq, hb⟩
      · exact absurd h hnm
      · obtain rfl := Option.some.inj (hp.symm.trans hq)
        exact .inr ⟨n, p, hn, hb, hnm, hp, rfl, rfl⟩

end Copied

end Copied

/-- A slot of a copied model in which connections are copied. -/
def Inside (g : Graph) (m : NodeId) (u : Slot) : Prop :=
  g.Below m u.model ∧ ¬ (u.model = m ∧ u.side.inner ≠ u.side)

/-- A connection inside a hierarchy does not end around it. -/
theorem Inside.joined {g : Graph} (hf : g.Forest) {m : NodeId} {u v : Slot} (hu : g.Inside m u)
    (huv : g.Joined u v) (hv : g.Below m v.model) : g.Inside m v := by
  refine ⟨hv, fun hvm => ?_⟩
  by_cases hs : u.side.inner = u.side
  · have hp := (huv.symm.of_inner hs).1
    rw [hvm.1] at hp
    exact hf.not_below hp hu.1
  · rcases hu.1.cases with hum | ⟨p, hp, hb⟩
    · exact hu.2 ⟨hum, hs⟩
    · rw [huv.of_outer hs hvm.2, hvm.1] at hp
      exact hf.not_below hp hb

namespace Copied

section Joined

variable {φ : NodeId → NodeId} {m : NodeId} {g h h' : Graph}

/-- The connections that can be are those that could be before, and the copies of those of the original. -/
theorem joins_cases (hc : Copied φ m g h h') (hf : h.Forest) (hm : (g.name? m).isSome) {s t : Slot}
    (hst : h'.Joins s t) : (s.model < h.nextId ∧ t.model < h.nextId ∧ h.Joins s t) ∨
      ∃ u v, g.Inside m u ∧ g.Inside m v ∧ g.Joins u v ∧ u.map φ = s ∧ v.map φ = t := by
  rcases hst with ⟨p, q, ha, hb⟩ | ⟨p, q, ha⟩ | ⟨p, q, ha⟩
  · rcases hc.parent_cases hf hm ha with ⟨ha, hc₁, hap⟩ | ⟨n, c, hn, hbn, hnm, hnp, rfl, rfl⟩ <;>
    rcases hc.parent_cases hf hm hb with ⟨hb, hc₂, hbp⟩ | ⟨n', c', hn', hbc, hnm', hnp', rfl, he⟩
    · exact .inl ⟨ha, hb, .internal p q hap hbp⟩
    · exact absurd (he ▸ (hc.fresh hbc).1) (not_le.mpr hc₁)
    · exact absurd (hc.fresh hbn).1 (not_le.mpr hc₂)
    · obtain rfl := hc.copies.inj _ _ (under_eq.mpr hbc) (under_eq.mpr hbn) he
      exact .inr ⟨⟨n, .output, p⟩, ⟨n', .input, q⟩, ⟨hn, fun h => hnm h.1⟩, ⟨hn', fun h => hnm' h.1⟩,
        .internal p q hnp hnp', rfl, rfl⟩
  · rcases hc.parent_cases hf hm ha with ⟨ha, hc₁, hap⟩ | ⟨n, c, hn, hbc, hnm, hnp, rfl, rfl⟩
    · exact .inl ⟨hc₁, ha, .input p q hap⟩
    · exact .inr ⟨⟨c, .internalInput, p⟩, ⟨n, .input, q⟩, ⟨hbc, fun h => h.2 rfl⟩,
        ⟨hn, fun h => hnm h.1⟩, .input p q hnp, rfl, rfl⟩
  · rcases hc.parent_cases hf hm ha with ⟨ha, hc₁, hap⟩ | ⟨n, c, hn, hbc, hnm, hnp, rfl, rfl⟩
    · exact .inl ⟨ha, hc₁, .output p q hap⟩
    · exact .inr ⟨⟨n, .output, p⟩, ⟨c, .internalOutput, q⟩, ⟨hn, fun h => hnm h.1⟩,
        ⟨hbc, fun h => h.2 rfl⟩, .output p q hnp, rfl, rfl⟩

theorem joined_cases (hc : Copied φ m g h h') (hf : h.Forest) (hm : (g.name? m).isSome) {s t : Slot}
    (hst : h'.Joined s t) : (s.model < h.nextId ∧ t.model < h.nextId ∧ h.Joined s t) ∨
      ∃ u v, g.Inside m u ∧ g.Inside m v ∧ g.Joined u v ∧ u.map φ = s ∧ v.map φ = t := by
  rcases hst with hst | hst
  · rcases hc.joins_cases hf hm hst with ⟨hs, ht, hj⟩ | ⟨u, v, hu, hv, hj, hus, hvt⟩
    · exact .inl ⟨hs, ht, .inl hj⟩
    · exact .inr ⟨u, v, hu, hv, .inl hj, hus, hvt⟩
  · rcases hc.joins_cases hf hm hst with ⟨ht, hs, hj⟩ | ⟨v, u, hv, hu, hj, hvt, hus⟩
    · exact .inl ⟨hs, ht, .inr hj⟩
    · exact .inr ⟨u, v, hu, hv, .inr hj, hus, hvt⟩

/-- What a connection inside the original joins, one inside the copy joins. -/
theorem joined_map (hc : Copied φ m g h h') (hm : (g.name? m).isSome) {u v : Slot} (hu : g.Inside m u)
    (hv : g.Inside m v) (huv : g.Joined u v) : h'.Joined (u.map φ) (v.map φ) := by
  have hparent : ∀ {n c : NodeId} {side : Side} {p : String}, g.Inside m ⟨n, side, p⟩ →
      side.inner ≠ side → g.parent? n = some c → h'.parent? (φ n) = some (φ c) := by
    intro n c side p hn hs hp
    rw [hc.parent? hm hn.1 fun hnm => hn.2 ⟨hnm, hs⟩, hp, Option.map_some]
  rcases huv with (⟨p, q, ha, hb⟩ | ⟨p, q, ha⟩ | ⟨p, q, ha⟩) |
    (⟨p, q, ha, hb⟩ | ⟨p, q, ha⟩ | ⟨p, q, ha⟩)
  · exact .inl (.internal p q (hparent hu (by decide) ha) (hparent hv (by decide) hb))
  · exact .inl (.input p q (hparent hv (by decide) ha))
  · exact .inl (.output p q (hparent hu (by decide) ha))
  · exact .inr (.internal p q (hparent hv (by decide) ha) (hparent hu (by decide) hb))
  · exact .inr (.input p q (hparent hu (by decide) ha))
  · exact .inr (.output p q (hparent hv (by decide) ha))

/-- Which ends are recorded inside the copy. -/
theorem count_map (hc : Copied φ m g h h') (hg : g.Linked) (hm : (g.name? m).isSome) {u v : Slot}
    (hu : g.Inside m u) (hv : g.Below m v.model) :
    (h'.entries (u.map φ)).count (v.map φ).entry = (g.entries u).count v.entry := by
  have hentries := hc.entries hm hu.1 hu.2 u.port
  have hin : ∀ e ∈ g.entries u, g.Below m e.1 := fun e he =>
    under_eq.mp ((under_eq.mpr hu.1).ends hg hu.2 he)
  change ((h'.entries ⟨φ u.model, u.side, u.port⟩).count (Prod.map φ id v.entry)) = _
  rw [← count_coe, hentries, ← count_coe]
  by_cases hmem : v.entry ∈ (g.entries u : Multiset ModelPort)
  · refine Multiset.count_map_eq_count _ _ (fun a ha b hb hab => ?_) _ hmem
    obtain ⟨hab₁, hab₂⟩ := Prod.mk.inj hab
    exact Prod.ext (hc.copies.inj _ _ (under_eq.mpr (hin a ha)) (under_eq.mpr (hin b hb)) hab₁) hab₂
  · rw [Multiset.count_eq_zero_of_notMem hmem, Multiset.count_eq_zero]
    intro he
    obtain ⟨e, he, hev⟩ := Multiset.mem_map.mp he
    obtain ⟨h₁, h₂⟩ := Prod.mk.inj hev
    have := hc.copies.inj _ _ (under_eq.mpr (hin e he)) (under_eq.mpr hv) h₁
    exact hmem ((Prod.ext this h₂ : e = v.entry) ▸ he)

/-- A hierarchy stays well formed when a copy of one comes in. -/
theorem wellFormed (hc : Copied φ m g h h') (hg : g.WellFormed) (hh : h.WellFormed)
    (hm : (g.name? m).isSome) : h'.WellFormed := by
  have hf := hh.forest
  have hfold : ∀ {s : Slot}, s.model < h.nextId → h'.entries s = h.entries s := by
    intro s hs
    have := (hc.old hs).2.2.2.2 s.side s.port
    exact congrArg (fun l => (l.getD ModelPortList.empty).lst) this
  refine ⟨⟨⟨fun n hn => ?_, fun n c hn => ?_, ?_⟩, fun s t hst => ?_, fun s e he => ?_,
    fun n side p hcn hp => ?_, fun n side p hs he => ?_⟩, fun c name n => ?_⟩
  · rcases hc.old_or_new hf hn with hlt | ⟨k, hk, rfl⟩
    · exact hlt.trans_le hc.le
    · exact (hc.fresh hk).2
  · rcases hc.parent_cases hf hm hn with ⟨-, hlt, hp⟩ | ⟨n, p, -, hb, -, hp, -, rfl⟩
    · rw [(hc.old hlt).2.1]
      exact hf.above _ _ hp
    · rw [hc.coupled? hm hb]
      exact hg.forest.above _ _ hp
  · classical
    obtain ⟨rank, hrank⟩ := hf.acyclic
    obtain ⟨rank', hrank'⟩ := hg.forest.acyclic
    let origin : NodeId → NodeId := fun k =>
      if hk : ∃ n, g.Below m n ∧ φ n = k then hk.choose else 0
    have horigin : ∀ n, g.Below m n → origin (φ n) = n := by
      intro n hn
      have hex : ∃ n', g.Below m n' ∧ φ n' = φ n := ⟨n, hn, rfl⟩
      have : origin (φ n) = hex.choose := dif_pos hex
      rw [this]
      exact hc.copies.inj _ _ (under_eq.mpr hex.choose_spec.1) (under_eq.mpr hn) hex.choose_spec.2
    refine ⟨fun k => if k < h.nextId then rank k else rank' (origin k), fun n c hn => ?_⟩
    rcases hc.parent_cases hf hm hn with ⟨hlt, hlt', hp⟩ | ⟨n, p, hbn, hbp, -, hp, rfl, rfl⟩
    · dsimp only
      rw [if_pos hlt, if_pos hlt']
      exact hrank _ _ hp
    · dsimp only
      rw [if_neg (not_lt.mpr (hc.fresh hbn).1), if_neg (not_lt.mpr (hc.fresh hbp).1),
        horigin n hbn, horigin p hbp]
      exact hrank' _ _ hp
  · rcases hc.joins_cases hf hm hst with ⟨hs, ht, hj⟩ | ⟨u, v, hu, hv, hj, rfl, rfl⟩
    · rw [hfold hs, hfold ht]
      exact hh.linked.symm s t hj
    · rw [hc.count_map hg.linked hm hu hv.1, hc.count_map hg.linked hm hv hu.1]
      exact hg.linked.symm u v hj
  · rcases hc.old_or_new hf (name?_of_port (port_of_mem he)) with hlt | ⟨n, hn, hns⟩
    · rw [hfold hlt] at he
      obtain ⟨t, rfl, hst⟩ := hh.linked.joined s e he
      refine ⟨t, rfl, ?_⟩
      have hparent : ∀ {k c}, h.parent? k = some c → h'.parent? k = some c := by
        intro k c hk
        rw [(hc.old (hf.bound k (name?_of_parent? hk))).2.2.1, hk]
      rcases hst with (⟨p, q, ha, hb⟩ | ⟨p, q, ha⟩ | ⟨p, q, ha⟩) |
        (⟨p, q, ha, hb⟩ | ⟨p, q, ha⟩ | ⟨p, q, ha⟩)
      · exact .inl (.internal p q (hparent ha) (hparent hb))
      · exact .inl (.input p q (hparent ha))
      · exact .inl (.output p q (hparent ha))
      · exact .inr (.internal p q (hparent ha) (hparent hb))
      · exact .inr (.input p q (hparent ha))
      · exact .inr (.output p q (hparent ha))
    · obtain ⟨k, side, p⟩ := s
      dsimp only at hns
      subst hns
      by_cases hroot : n = m ∧ side.inner ≠ side
      · rw [hroot.1, hc.entries_root hm hroot.2] at he
        cases he
      · have hmem := Multiset.mem_coe.mpr he
        rw [hc.entries hm hn hroot] at hmem
        obtain ⟨e₀, he₀, rfl⟩ := Multiset.mem_map.mp hmem
        obtain ⟨v, rfl, huv⟩ := hg.linked.joined _ e₀ he₀
        have hv := Inside.joined hg.forest ⟨hn, hroot⟩ huv
          (under_eq.mp ((under_eq.mpr hn).ends hg.linked hroot he₀))
        exact ⟨v.map φ, rfl, hc.joined_map hm ⟨hn, hroot⟩ hv huv⟩
  · rcases hc.old_or_new hf (name?_of_port hp) with hlt | ⟨k, hk, rfl⟩
    · rw [(hc.old hlt).2.1] at hcn
      rw [(hc.old hlt).2.2.2.2] at hp ⊢
      exact hh.linked.inner n side p hcn hp
    · rw [hc.coupled? hm hk] at hcn
      rw [hc.ports hm hk] at hp ⊢
      exact hg.linked.inner k side p hcn hp
  · obtain ⟨e, hmem⟩ := List.exists_mem_of_ne_nil _ he
    rcases hc.old_or_new hf (name?_of_port (port_of_mem hmem)) with hlt | ⟨k, hk, rfl⟩
    · rw [hfold hlt] at he
      rw [(hc.old hlt).2.2.2.2]
      exact hh.linked.outer n side p hs he
    · rw [hc.ports hm hk]
      refine hg.linked.outer k side p hs fun hnil => he ?_
      have hinner : ¬ (k = m ∧ side.inner.inner ≠ side.inner) := by
        cases side <;> exact fun h => h.2 rfl
      have := hc.entries hm hk hinner p
      rw [hnil] at this
      exact (Multiset.coe_eq_zero _).mp this
  · constructor
    · intro hchild
      obtain ⟨mdl, hmdl, -⟩ := Option.bind_eq_some_iff.mp hchild
      have hsome : (h'.name? c).isSome := by
        rw [Graph.name?, hmdl]
        rfl
      rcases hc.old_or_new hf hsome with hlt | ⟨k, hk, rfl⟩
      · rw [(hc.old hlt).2.2.2.1] at hchild
        obtain ⟨hname, hparent⟩ := (hh.listed c name n).mp hchild
        have hn := hc.old (hf.bound n (name?_of_parent? hparent))
        exact ⟨hn.1.trans hname, hn.2.2.1.trans hparent⟩
      · rw [hc.child? hm hk, Option.map_eq_some_iff] at hchild
        obtain ⟨x, hx, rfl⟩ := hchild
        obtain ⟨hname, hparent⟩ := (hg.listed k name x).mp hx
        have hxb : g.Below m x := hk.child hparent
        have hne : x ≠ m := by
          rintro rfl
          exact hg.forest.not_below hparent hk
        exact ⟨(hc.name? hm hxb).trans hname, by rw [hc.parent? hm hxb hne, hparent, Option.map_some]⟩
    · rintro ⟨hname, hparent⟩
      rcases hc.parent_cases hf hm hparent with ⟨hlt, hlt', hp⟩ | ⟨k, p, hbk, hbp, -, hp, rfl, rfl⟩
      · rw [(hc.old hlt).1] at hname
        rw [(hc.old hlt').2.2.2.1]
        exact (hh.listed c name n).mpr ⟨hname, hp⟩
      · rw [hc.name? hm hbk] at hname
        rw [hc.child? hm hbp, (hg.listed p name k).mpr ⟨hname, hp⟩, Option.map_some]

end Joined

section Routes

variable {φ : NodeId → NodeId} {m : NodeId} {g h h' : Graph} {o : Side}

/-- The routes inside the original go to those inside the copy. -/
theorem mapEnd_inside (hc : Copied φ m g h h') (hg : g.WellFormed) (hm : (g.name? m).isSome)
    {v : ModelPort} (hv : g.Below m v.1) {side : Side} (hs : ¬ (v.1 = m ∧ side.inner ≠ side)) :
    (h'.entries ⟨(Prod.map φ id v).1, side, v.2⟩ : Multiset ModelPort) =
        (g.entries ⟨v.1, side, v.2⟩ : Multiset ModelPort).map (Prod.map φ id) ∧
      ∀ e ∈ (g.entries ⟨v.1, side, v.2⟩ : Multiset ModelPort), g.Below m e.1 :=
  ⟨hc.entries hm hv hs v.2, fun _ he => under_eq.mp ((under_eq.mpr hv).ends hg.linked hs he)⟩

/-- The ends around a copied model, where the root has none. -/
theorem mapEnd_around (hc : Copied φ m g h h') (hg : g.WellFormed) (hm : (g.name? m).isSome)
    (htop : g.parent? m = none) {v : ModelPort} (hv : g.Below m v.1) (side : Side) :
    (h'.entries ⟨(Prod.map φ id v).1, side, v.2⟩ : Multiset ModelPort) =
        (g.entries ⟨v.1, side, v.2⟩ : Multiset ModelPort).map (Prod.map φ id) ∧
      ∀ e ∈ (g.entries ⟨v.1, side, v.2⟩ : Multiset ModelPort), g.Below m e.1 := by
  by_cases hs : v.1 = m ∧ side.inner ≠ side
  · obtain ⟨n, p⟩ := v
    obtain ⟨rfl, hside⟩ := hs
    have hnil := hg.linked.unlinked htop ⟨n, side, p⟩ ⟨rfl, hside⟩
    have hnil' := hc.entries_root hm hside p
    dsimp only [Prod.map, id] at hnil' ⊢
    rw [hnil, hnil']
    exact ⟨rfl, fun e he => by cases he⟩
  · exact hc.mapEnd_inside hg hm hv hs

/-- The same of the ends that a condition on the model at the other end selects. -/
theorem filter_map_ends {l : Multiset ModelPort} (P Q : NodeId → Prop) [DecidablePred P]
    [DecidablePred Q] (h : ∀ e ∈ l, (Q (φ e.1) ↔ P e.1)) :
    (l.map (Prod.map φ id)).filter (fun e => Q e.1) = (l.filter fun e => P e.1).map (Prod.map φ id) := by
  rw [Multiset.filter_map]
  exact congrArg _ (Multiset.filter_congr fun e he => h e he)

theorem parent_eq_iff (hc : Copied φ m g h h') (hm : (g.name? m).isSome) (htop : g.parent? m = none)
    {n k : NodeId} (hn : g.Below m n) (hk : g.Below m k) :
    h'.parent? (φ n) = some (φ k) ↔ g.parent? n = some k := by
  by_cases hnm : n = m
  · rw [hnm, hc.parent?_root hm, htop]
    simp
  · rw [hc.parent? hm hn hnm]
    obtain ⟨p, hp, hb⟩ := hn.cases.resolve_left hnm
    rw [hp, Option.map_some]
    constructor
    · intro he
      exact congrArg some (hc.copies.inj p k (under_eq.mpr hb) (under_eq.mpr hk) (Option.some.inj he))
    · intro he
      rw [Option.some.inj he]

theorem map_climb (hc : Copied φ m g h h') (hg : g.WellFormed) (hm : (g.name? m).isSome)
    (htop : g.parent? m = none) {v : ModelPort} (hv : g.Below m v.1) :
    h'.climb o (Prod.map φ id v) = (g.climb o v).map (Prod.map φ id) ∧
      ∀ e ∈ g.climb o v, g.Below m e.1 := by
  obtain ⟨hmap, hbelow⟩ := hc.mapEnd_around hg hm htop hv o
  refine ⟨?_, fun e he => hbelow e (Multiset.mem_filter.mp he).1⟩
  unfold climb
  dsimp only [Prod.map, id] at hmap ⊢
  rw [hmap]
  exact filter_map_ends (fun k => g.parent? v.1 = some k) (fun k => h'.parent? (φ v.1) = some k)
    fun e he => hc.parent_eq_iff hm htop hv (hbelow e he)

theorem map_across (hc : Copied φ m g h h') (hg : g.WellFormed) (hm : (g.name? m).isSome)
    (htop : g.parent? m = none) {v : ModelPort} (hv : g.Below m v.1) :
    h'.across o (Prod.map φ id v) = (g.across o v).map (Prod.map φ id) ∧
      ∀ e ∈ g.across o v, g.Below m e.1 := by
  obtain ⟨hmap, hbelow⟩ := hc.mapEnd_around hg hm htop hv o
  refine ⟨?_, fun e he => hbelow e (Multiset.mem_filter.mp he).1⟩
  unfold across
  dsimp only [Prod.map, id] at hmap ⊢
  rw [hmap]
  exact filter_map_ends (fun k => ¬ g.parent? v.1 = some k)
    (fun k => ¬ h'.parent? (φ v.1) = some k) fun e he =>
      not_congr (hc.parent_eq_iff hm htop hv (hbelow e he))

theorem map_descend (hc : Copied φ m g h h') (hg : g.WellFormed) (hm : (g.name? m).isSome)
    {v : ModelPort} (hv : g.Below m v.1) :
    h'.descend o (Prod.map φ id v) = (g.descend o v).map (Prod.map φ id) ∧
      ∀ e ∈ g.descend o v, g.Below m e.1 :=
  hc.mapEnd_inside hg hm hv fun hs => hs.2 (by cases o <;> rfl)

theorem map_route (hc : Copied φ m g h h') (hg : g.WellFormed) (hh' : h'.Wired)
    (hm : (g.name? m).isSome) (htop : g.parent? m = none) (ho : o.inner ≠ o) {v : ModelPort}
    (hv : g.Below m v.1) :
    h'.route o (Prod.map φ id v) = (g.route o v).map (Prod.map φ id) ∧
      ∀ e ∈ g.route o v, g.Below m e.1 := by
  obtain ⟨down, up, hdown, hup, hbound⟩ := hg.toWired.exists_ranks ho
  obtain ⟨down', up', hdown', hup', hbound'⟩ := hh'.exists_ranks ho
  -- As many steps in both hierarchies.
  let N := max g.nextId h'.nextId
  have hroute : ∀ v, g.route o v =
      ((Kernel.star (g.climb o) N).comp (g.across o)).comp (Kernel.star (g.descend o) N) v := by
    intro v
    have hclimb : Kernel.star (g.climb o) g.nextId = Kernel.star (g.climb o) N := funext fun v =>
      Kernel.star_eq hup (hbound v).2 ((hbound v).2.trans (le_max_left _ _))
    have hdesc : Kernel.star (g.descend o) g.nextId = Kernel.star (g.descend o) N := funext fun v =>
      Kernel.star_eq hdown (hbound v).1 ((hbound v).1.trans (le_max_left _ _))
    rw [route, hclimb, hdesc]
  have hroute' : ∀ v, h'.route o v =
      ((Kernel.star (h'.climb o) N).comp (h'.across o)).comp (Kernel.star (h'.descend o) N) v := by
    intro v
    have hclimb : Kernel.star (h'.climb o) h'.nextId = Kernel.star (h'.climb o) N := funext fun v =>
      Kernel.star_eq hup' (hbound' v).2 ((hbound' v).2.trans (le_max_right _ _))
    have hdesc : Kernel.star (h'.descend o) h'.nextId = Kernel.star (h'.descend o) N :=
      funext fun v => Kernel.star_eq hdown' (hbound' v).1 ((hbound' v).1.trans (le_max_right _ _))
    rw [route, hclimb, hdesc]
  have hup := fun (v : ModelPort) (hv : g.Below m v.1) =>
    Kernel.star_map (f := Prod.map φ id) (P := fun v : ModelPort => g.Below m v.1)
      (fun v hv => hc.map_climb (o := o) hg hm htop hv) N hv
  have hdown := fun (v : ModelPort) (hv : g.Below m v.1) =>
    Kernel.star_map (f := Prod.map φ id) (P := fun v : ModelPort => g.Below m v.1)
      (fun v hv => hc.map_descend (o := o) hg hm hv) N hv
  have hacross := fun (v : ModelPort) (hv : g.Below m v.1) => hc.map_across (o := o) hg hm htop hv
  rw [hroute, hroute']
  refine ⟨Kernel.comp_map (Kernel.comp_map (hup v hv).1 fun u hu =>
    (hacross u ((hup v hv).2 u hu)).1) fun w hw => ?_, fun e he => ?_⟩
  · obtain ⟨u, hu, hw⟩ := Multiset.mem_bind.mp hw
    exact (hdown w ((hacross u ((hup v hv).2 u hu)).2 w hw)).1
  · obtain ⟨w, hw, he⟩ := Multiset.mem_bind.mp he
    obtain ⟨u, hu, hw⟩ := Multiset.mem_bind.mp hw
    exact (hdown w ((hacross u ((hup v hv).2 u hu)).2 w hw)).2 e he

theorem atomic? (hc : Copied φ m g h h') (hm : (g.name? m).isSome) {n : NodeId} (hn : g.Below m n) :
    h'.atomic? (φ n) = g.atomic? n := by
  obtain ⟨mdl, mdl', hmdl, hmdl', hcopy⟩ := hc.copy hm hn
  have := congrArg BaseModel.isCoupled hcopy.attributes
  rw [BaseModel.isCoupled_attributes, BaseModel.isCoupled_attributes] at this
  rw [Graph.atomic?, Graph.atomic?, hmdl, hmdl', Option.map_some, Option.map_some]
  simpa [BaseModel.isCoupled] using this

/-- The targets in the copy of a whole tree are the copies of the targets. -/
theorem targets (hc : Copied φ m g h h') (hg : g.WellFormed) (hh' : h'.Wired) (hm : (g.name? m).isSome)
    (htop : g.parent? m = none) {a : NodeId} {p : String} (ha : g.Below m a)
    (hp : (g.portList? ⟨a, .output, p⟩).isSome) : ∃ targets targets',
      g.getAtomicModelsTarget a p .empty = .ok targets ∧
      h'.getAtomicModelsTarget (φ a) p .empty = .ok targets' ∧
      (targets'.lst : Multiset ModelPort) =
        (targets.lst : Multiset ModelPort).map (Prod.map φ id) := by
  obtain ⟨targets, hrun, hcount⟩ := hg.toWired.getAtomicModelsTarget hp .empty
  obtain ⟨targets', hrun', hcount'⟩ := hh'.getAtomicModelsTarget
    ((hc.ports hm ha .output p).trans hp) .empty
  have heq : ∀ {t : ModelPortList} {l : Multiset ModelPort},
      (∀ e, t.lst.count e = ModelPortList.empty.lst.count e + l.count e) →
      (t.lst : Multiset ModelPort) = l := by
    intro t l ht
    ext e
    rw [count_coe, ht]
    exact Nat.zero_add _
  obtain ⟨hmap, hbelow⟩ := hc.map_route (o := .output) hg hh' hm htop (by decide) (v := (a, p)) ha
  refine ⟨targets, targets', hrun, hrun', ?_⟩
  rw [heq hcount, heq hcount']
  change h'.arrivals (h'.route .output (Prod.map φ id (a, p))) = _
  rw [hmap]
  exact filter_map_ends (fun k => g.atomic? k = true) (fun k => h'.atomic? k = true)
    fun e he => by rw [hc.atomic? hm (hbelow e he)]

end Routes

end Copied

end Graph

namespace Graph

theorem Copied.consistent {φ : NodeId → NodeId} {m : NodeId} {g h h' : Graph} (hc : Copied φ m g h h')
    (hg : g.Consistent) (hh : h.Consistent) (hm : (g.name? m).isSome) : h'.Consistent := by
  refine ⟨hc.wellFormed hg.toWellFormed hh.toWellFormed hm, fun n side p hs hp => ?_⟩
  rcases hc.old_or_new hh.forest (name?_of_port hp) with hlt | ⟨k, hk, rfl⟩
  · rw [(hc.old hlt).2.2.2.2] at hp ⊢
    exact hh.paired n side p hs hp
  · rw [hc.ports hm hk] at hp ⊢
    exact hg.paired k side p hs hp

/-- The copies only mention each other. -/
theorem Copied.mentions {φ : NodeId → NodeId} {m : NodeId} {g h h' : Graph} (hc : Copied φ m g h h')
    (hg : g.WellFormed) (hm : (g.name? m).isSome) {n : NodeId} (hn : g.Below m n) {side : Side}
    {p : String} {e : ModelPort} (he : e ∈ h'.entries ⟨φ n, side, p⟩) :
    ∃ k, g.Below m k ∧ e.1 = φ k := by
  by_cases hs : n = m ∧ side.inner ≠ side
  · rw [hs.1, hc.entries_root hm hs.2] at he
    cases he
  · have hmem := Multiset.mem_coe.mpr he
    rw [hc.entries hm hn hs] at hmem
    obtain ⟨e₀, he₀, rfl⟩ := Multiset.mem_map.mp hmem
    exact ⟨e₀.1, under_eq.mp ((under_eq.mpr hn).ends hg.linked hs he₀), rfl⟩

/-- The copies of a model come into any hierarchy. -/
theorem clone_copied {g : Graph} (hg : g.WellFormed) {m : NodeId} (hm : (g.name? m).isSome) (h : Graph) :
    ∃ φ h', CoupledModel.clone g (g.nextId + 1) m h = .ok (φ m) h' ∧ Copied φ m g h h' := by
  obtain ⟨rank, hrank, hbound⟩ := hg.forest.exists_rank
  exact CoupledModel.clone_run hg hrank hbound (g.nextId + 1) hm
    (Nat.lt_add_right _ (Nat.lt_succ_self _)) h

end Graph

end Vle.Vpz
