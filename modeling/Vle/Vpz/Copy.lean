import Vle.Vpz.Routing

/-!
# Copies of a hierarchy

What the copy constructor of `CoupledModel` makes: the correspondence `φ` gives the copy of each
model at or below the copied one (`IsCopy`). The copies are the models allocated by the call, one for
each model (`Copied`), and the old models stay as they are.

`clone` first allocates the models with empty port lists, then fills the lists. Filling only adds
entries to lists (`Filled`), in amounts that add up (`Fills`); the tree is copied by induction on the
depth, with the submodels that are done as the loop's invariant (`Cloning`).
-/

namespace Vle.Vpz

open Vle.Lib Vle.Vpz.Graph

namespace Graph

/-! ## Filling port lists -/

/-- The graph `g'` is `g` with the ends `F s` added to each list `s`, and the models below `lo`
untouched. -/
structure Filled (lo : NodeId) (F : Slot → Multiset ModelPort) (g g' : Graph) : Prop where
  rewired : Rewired g g'
  entries : ∀ s, (g'.entries s : Multiset ModelPort) = g.entries s + F s
  kept : ∀ n, n < lo → g'.model n = g.model n

theorem Filled.refl (lo : NodeId) (g : Graph) : Filled lo (fun _ => 0) g g :=
  ⟨Rewired.refl g, fun _ => (add_zero _).symm, fun _ _ => rfl⟩

theorem Filled.trans {lo : NodeId} {F F' : Slot → Multiset ModelPort} {g g₁ g₂ : Graph}
    (h : Filled lo F g g₁) (h' : Filled lo F' g₁ g₂) : Filled lo (fun s => F s + F' s) g g₂ where
  rewired := h.rewired.trans h'.rewired
  entries s := by rw [h'.entries, h.entries, add_assoc]
  kept n hn := (h'.kept n hn).trans (h.kept n hn)

/-- Wherever the ports and the tree of `g` are found, the program ends well and adds the ends `F s`
to each list `s`. -/
def Fills (lo : NodeId) (g : Graph) (F : Slot → Multiset ModelPort) (x : GraphM Unit) : Prop :=
  ∀ g₁, Rewired g g₁ → ∃ g₂, x g₁ = .ok () g₂ ∧ Filled lo F g₁ g₂

variable {lo : NodeId} {g : Graph}

theorem Fills.seq {F F' : Slot → Multiset ModelPort} {x y : GraphM Unit} (hx : Fills lo g F x)
    (hy : Fills lo g F' y) : Fills lo g (fun s => F s + F' s) (x >>= fun _ => y) := by
  intro g₁ h₁
  obtain ⟨g₂, hrun, h₂⟩ := hx g₁ h₁
  obtain ⟨g₃, hrun', h₃⟩ := hy g₂ (h₁.trans h₂.rewired)
  exact ⟨g₃, (EState.bind_run hrun).trans hrun', h₂.trans h₃⟩

/-- What the steps of a loop add sums up. -/
theorem Fills.forM {α : Type} {F : α → Slot → Multiset ModelPort} {f : α → GraphM Unit} (l : List α)
    (h : ∀ a ∈ l, Fills lo g (F a) (f a)) :
    Fills lo g (fun s => (l.map fun a => F a s).sum) (l.forM f) := by
  induction l with
  | nil => exact fun g₁ _ => ⟨g₁, rfl, Filled.refl lo g₁⟩
  | cons a l ih =>
    exact (h a List.mem_cons_self).seq (ih fun b hb => h b (List.mem_cons_of_mem a hb))

/-- Adding an end to a list that is there. -/
theorem fills_modifyPort {dst : Slot} (e : ModelPort) (hport : (g.portList? dst).isSome)
    (hlo : lo ≤ dst.model) :
    Fills lo g (fun s => if s = dst then {e} else 0) (modifyPort dst (·.add e.1 e.2)) := by
  intro g₁ h₁
  obtain ⟨g₂, hrun⟩ := modifyPort_total (·.add e.1 e.2) ((h₁.ports dst).trans hport)
  obtain ⟨hr, hother, l, hl, hdst⟩ := modifyPort_entries hrun
  refine ⟨g₂, hrun, hr, fun s => ?_, fun n hn => ?_⟩
  split_ifs with hs
  · subst hs
    rw [hdst, ← hl, Multiset.coe_eq_coe.mpr (l.add_perm e.1 e.2), ← Multiset.cons_coe,
      ← Multiset.singleton_add, add_comm]
  · rw [hother s hs, add_zero]
  · exact modifyPort_frame hrun n (hn.trans_le hlo).ne

/-- A sum over the entries of a map that only counts those with the key `k`. -/
theorem sum_inOrder {β M : Type} [AddCommMonoid M] (m : AList fun _ : String => β) (k : String)
    (f : β → M) : ((inOrder m).map fun it => if it.1 = k then f it.2 else 0).sum =
      ((m.lookup k).map f).getD 0 := by
  have hzero : ∀ l : List (String × β), k ∉ l.map Prod.fst →
      (l.map fun it => if it.1 = k then f it.2 else 0).sum = 0 := by
    intro l hk
    refine List.sum_eq_zero fun x hx => ?_
    obtain ⟨it, hit, rfl⟩ := List.mem_map.mp hx
    exact if_neg fun (he : it.1 = k) => hk (he ▸ List.mem_map_of_mem hit)
  have hone : ∀ (l : List (String × β)) (b : β), (l.map Prod.fst).Nodup → (k, b) ∈ l →
      (l.map fun it => if it.1 = k then f it.2 else 0).sum = f b := by
    intro l b hnodup hmem
    obtain ⟨l₁, l₂, rfl⟩ := List.append_of_mem hmem
    rw [List.map_append, List.map_cons, List.nodup_middle, List.nodup_cons] at hnodup
    obtain ⟨h₁, h₂⟩ := not_or.mp (List.mem_append.not.mp hnodup.1)
    rw [List.map_append, List.sum_append, List.map_cons, List.sum_cons, hzero l₁ h₁, hzero l₂ h₂,
      if_pos rfl, zero_add, add_zero]
  cases hb : m.lookup k with
  | some b => exact hone _ b (nodup_inOrder m) ((mem_inOrder m k b).mpr hb)
  | none =>
    refine hzero _ fun hk => ?_
    obtain ⟨⟨k', b⟩, hmem, rfl⟩ := List.mem_map.mp hk
    rw [(mem_inOrder m k' b).mp hmem] at hb
    cases hb

end Graph

namespace CoupledModel

variable {g h : Graph} {lo c : NodeId} {parentSrc : Option NodeId} {φ : NodeId → NodeId}

/-- Where a connection end of the original is found in the copy. -/
structure Found (g h : Graph) (c : NodeId) (parentSrc : Option NodeId) (φ : NodeId → NodeId)
    (n : NodeId) : Prop where
  parent : some n = parentSrc → φ n = c
  child : some n ≠ parentSrc → ∃ mdl, g.model n = some mdl ∧ h.child? c mdl.name = some (φ n)

/-- A port list is copied end by end. -/
theorem fills_copyPort {src : ModelPortList} {dst : Slot}
    (hfound : ∀ e ∈ src.lst, Found g h c parentSrc φ e.1) (hport : (h.portList? dst).isSome)
    (hlo : lo ≤ dst.model) :
    Fills lo h (fun s => if s = dst then (src.lst : Multiset ModelPort).map (Prod.map φ id) else 0)
      (copyPort g c parentSrc src dst) := by
  have hsum : (fun s => (src.lst.map fun e => if s = dst then {(φ e.1, e.2)} else 0).sum) =
      fun s => if s = dst then (src.lst : Multiset ModelPort).map (Prod.map φ id) else 0 := by
    funext s
    split_ifs with hs
    · rw [← Multiset.sum_coe, ← Multiset.map_coe]
      change (src.lst : Multiset ModelPort).bind (fun e => {Prod.map φ id e}) = _
      exact Multiset.bind_singleton _ _
    · simp
  rw [← hsum]
  refine Fills.forM src.lst fun e he => ?_
  obtain ⟨hparent, hchild⟩ := hfound e he
  split_ifs with hsrc
  · have := fills_modifyPort (φ e.1, e.2) hport hlo
    rwa [hparent hsrc] at this ⊢
  · obtain ⟨mdl, hmdl, hname⟩ := hchild hsrc
    intro h₁ h₁'
    obtain ⟨h₂, hrun, hfill⟩ := fills_modifyPort (φ e.1, e.2) hport hlo h₁ h₁'
    have hfind : h₁.findModel c mdl.name = .ok (some (φ e.1)) := by
      rw [← h₁'.child?] at hname
      obtain ⟨cpled, hcpled, hlookup⟩ := Option.bind_eq_some_iff.mp hname
      unfold findModel
      rw [deref_eq_ok.mpr hcpled]
      exact congrArg Except.ok hlookup
    refine ⟨h₂, ?_, hfill⟩
    refine (EState.inspect_bind_run (f := fun _ => g.deref e.1) (deref_eq_ok.mpr hmdl)).trans ?_
    refine (EState.inspect_bind_run (f := fun k : Graph => k.findModel c mdl.name) hfind).trans ?_
    exact hrun

/-- The ends that a port of a map of ports has in the copy. -/
def copied (φ : NodeId → NodeId) (src : ConnectionList) (p : String) : Multiset ModelPort :=
  (((src.lookup p).getD .empty).lst : Multiset ModelPort).map (Prod.map φ id)

/-- The ports of one side of a model are copied one after the other. -/
theorem fills_copyConnection {src : ConnectionList} {dst : NodeId} {side : Side}
    (hfound : ∀ p l, src.lookup p = some l → ∀ e ∈ l.lst, Found g h c parentSrc φ e.1)
    (hport : ∀ p, (src.lookup p).isSome → (h.portList? ⟨dst, side, p⟩).isSome) (hlo : lo ≤ dst) :
    Fills lo h (fun s => if s.model = dst ∧ s.side = side then copied φ src s.port else 0)
      (copyConnection g c parentSrc src dst side) := by
  have hloop : Fills lo h (fun s => ((inOrder src).map fun it =>
      if s = ⟨dst, side, it.1⟩ then (it.2.lst : Multiset ModelPort).map (Prod.map φ id)
      else 0).sum) (copyConnection g c parentSrc src dst side) := by
    refine Fills.forM (inOrder src) fun it hit => ?_
    have hlookup := (mem_inOrder src it.1 it.2).mp hit
    exact fills_copyPort (hfound it.1 it.2 hlookup) (hport it.1 (by rw [hlookup]; rfl)) hlo
  convert hloop using 2 with s
  obtain ⟨n, side', p⟩ := s
  by_cases hs : n = dst ∧ side' = side
  · obtain ⟨rfl, rfl⟩ := hs
    have := sum_inOrder src p fun l => (l.lst : Multiset ModelPort).map (Prod.map φ id)
    rw [if_pos ⟨rfl, rfl⟩]
    simp only [Slot.mk.injEq, true_and, eq_comm (a := p), this, copied]
    cases src.lookup p <;> rfl
  · rw [if_neg hs]
    refine (List.sum_eq_zero fun x hx => ?_).symm
    obtain ⟨it, -, rfl⟩ := List.mem_map.mp hx
    exact if_neg fun he => hs (by simp_all)

end CoupledModel

/-! ## What a copy is -/

namespace BaseModel

/-- The data of a model that stand for themselves: not its place in the tree, its ports and its
simulator. -/
def attributes (m : BaseModel) : BaseModel :=
  { m with
    parent := none
    inPortList := ∅
    outPortList := ∅
    kind := match m.kind with
      | .atomic atom => .atomic { atom with simulator := none }
      | .coupled _ => .coupled {} }

/-- The simulator of an atomic model. -/
def simulator (m : BaseModel) : Option SimId :=
  match m.kind with
  | .atomic atom => atom.simulator
  | .coupled _ => none

/-- The ends recorded in a port. -/
def ends (m : BaseModel) (side : Side) (p : String) : Multiset ModelPort :=
  (((m.connections side).lookup p).getD .empty).lst

theorem attributes_shape (m : BaseModel) : m.shape.attributes = m.attributes := by
  obtain ⟨name, parent, ins, outs, x, y, w, h, kind⟩ := m
  cases kind <;> rfl

theorem simulator_shape (m : BaseModel) : m.shape.simulator = m.simulator := by
  obtain ⟨name, parent, ins, outs, x, y, w, h, kind⟩ := m
  cases kind <;> rfl

@[simp] theorem attributes_setModelList (m : BaseModel) (l : ModelList) :
    (m.setModelList l).attributes = m.attributes := by
  obtain ⟨name, parent, ins, outs, x, y, w, h, kind⟩ := m
  cases kind <;> rfl

@[simp] theorem simulator_setModelList (m : BaseModel) (l : ModelList) :
    (m.setModelList l).simulator = m.simulator := by
  obtain ⟨name, parent, ins, outs, x, y, w, h, kind⟩ := m
  cases kind <;> rfl

end BaseModel

namespace CoupledModel

@[simp] theorem attributes_copyOf (m : BaseModel) : (copyOf m).attributes = m.attributes := by
  obtain ⟨name, parent, ins, outs, x, y, w, h, kind⟩ := m
  cases kind <;> rfl

@[simp] theorem simulator_copyOf (m : BaseModel) : (copyOf m).simulator = none := by
  obtain ⟨name, parent, ins, outs, x, y, w, h, kind⟩ := m
  cases kind <;> rfl

@[simp] theorem modelList_copyOf (m : BaseModel) : (copyOf m).modelList = m.modelList := by
  obtain ⟨name, parent, ins, outs, x, y, w, h, kind⟩ := m
  cases kind <;> rfl

@[simp] theorem isCoupled_copyOf (m : BaseModel) : (copyOf m).isCoupled = m.isCoupled := by
  obtain ⟨name, parent, ins, outs, x, y, w, h, kind⟩ := m
  cases kind <;> rfl

/-- The ports stay, without their connections. -/
theorem lookup_copyWithoutConnection (l : ConnectionList) (p : String) :
    (copyWithoutConnection l).lookup p = (l.lookup p).map fun _ => .empty := by
  have hfold : ∀ (xs : List (String × ModelPortList)) (cnt : ConnectionList),
      (xs.foldl (fun cnt x => cnt.insert x.1 .empty) cnt).lookup p =
        if p ∈ xs.map Prod.fst then some .empty else cnt.lookup p := by
    intro xs
    induction xs with
    | nil => intro cnt; simp
    | cons x xs ih =>
      intro cnt
      rw [List.foldl_cons, ih]
      by_cases hmem : p ∈ xs.map Prod.fst
      · rw [if_pos hmem, List.map_cons, if_pos (List.mem_cons_of_mem _ hmem)]
      · rw [if_neg hmem, List.map_cons]
        by_cases hx : p = x.1
        · subst hx
          rw [AList.lookup_insert, if_pos List.mem_cons_self]
        · have hnot : p ∉ x.1 :: xs.map Prod.fst := fun h => (List.mem_cons.mp h).elim hx hmem
          rw [AList.lookup_insert_ne hx, if_neg hnot]
  rw [copyWithoutConnection, hfold]
  cases hl : l.lookup p with
  | some b =>
    rw [if_pos]
    · rfl
    · exact List.mem_map.mpr ⟨(p, b), (mem_inOrder l p b).mpr hl, rfl⟩
  | none =>
    rw [if_neg]
    · rfl
    · intro hmem
      obtain ⟨⟨k, b⟩, hkb, rfl⟩ := List.mem_map.mp hmem
      rw [(mem_inOrder l k b).mp hkb] at hl
      cases hl

theorem connections_copyOf (m : BaseModel) (side : Side) :
    (copyOf m).connections side = copyWithoutConnection (m.connections side) := by
  obtain ⟨name, parent, ins, outs, x, y, w, h, kind⟩ := m
  cases kind <;> cases side <;> rfl

theorem ports_copyOf (m : BaseModel) (side : Side) (p : String) :
    (((copyOf m).connections side).lookup p).isSome = ((m.connections side).lookup p).isSome := by
  rw [connections_copyOf, lookup_copyWithoutConnection, Option.isSome_map]

theorem ends_copyOf (m : BaseModel) (side : Side) (p : String) : (copyOf m).ends side p = 0 := by
  rw [BaseModel.ends, connections_copyOf, lookup_copyWithoutConnection]
  cases (m.connections side).lookup p <;> rfl

end CoupledModel

/-- The model `mdl'` is a copy of `mdl`, the models being renamed by `φ`. A copy at a root has the parent
`top`, and nothing is connected around it. -/
structure IsCopy (φ : NodeId → NodeId) (root : Prop) (top : Option NodeId) (mdl mdl' : BaseModel) :
    Prop where
  attributes : mdl'.attributes = mdl.attributes
  simulator : mdl'.simulator = none
  top : root → mdl'.parent = top
  parent : ¬ root → mdl'.parent = mdl.parent.map φ
  child : ∀ name, mdl'.modelList.lookup name = (mdl.modelList.lookup name).map φ
  ports : ∀ side p, ((mdl'.connections side).lookup p).isSome = ((mdl.connections side).lookup p).isSome
  outer : ∀ side p, root → side.inner ≠ side → mdl'.ends side p = 0
  ends : ∀ side p, ¬ (root ∧ side.inner ≠ side) →
    mdl'.ends side p = (mdl.ends side p).map (Prod.map φ id)

namespace IsCopy

variable {φ φ' : NodeId → NodeId} {root : Prop} {top : Option NodeId} {mdl mdl' : BaseModel}

/-- Only the models that `mdl` mentions have to be renamed. -/
theorem congr (h : IsCopy φ root top mdl mdl') (hparent : ¬ root → ∀ p, mdl.parent = some p → φ' p = φ p)
    (hchild : ∀ name x, mdl.modelList.lookup name = some x → φ' x = φ x)
    (hends : ∀ side p, ¬ (root ∧ side.inner ≠ side) → ∀ e ∈ mdl.ends side p, φ' e.1 = φ e.1) :
    IsCopy φ' root top mdl mdl' where
  attributes := h.attributes
  simulator := h.simulator
  top := h.top
  parent hr := by
    rw [h.parent hr]
    exact Option.map_congr fun p hp => (hparent hr p hp).symm
  child name := by
    rw [h.child]
    exact Option.map_congr fun x hx => (hchild name x hx).symm
  ports := h.ports
  outer := h.outer
  ends side p hr := by
    rw [h.ends side p hr]
    exact Multiset.map_congr rfl fun e he => Prod.ext (hends side p hr e he).symm rfl

/-- The copy of a root is given a parent. -/
theorem setParent (h : IsCopy φ root none mdl mdl') (hr : root) :
    IsCopy φ root top mdl { mdl' with parent := top } := by
  obtain ⟨name, parent, ins, outs, x, y, w, d, kind⟩ := mdl'
  refine ⟨?_, ?_, fun _ => rfl, fun hn => absurd hr hn, ?_, ?_, ?_, ?_⟩
  · exact h.attributes
  · exact h.simulator
  · exact h.child
  · intro side p
    have := h.ports side p
    cases side <;> exact this
  · intro side p hr hs
    have := h.outer side p hr hs
    cases side <;> exact this
  · intro side p hn
    have := h.ends side p hn
    cases side <;> exact this

theorem iff_root {root' : Prop} (h : IsCopy φ root top mdl mdl') (hr : root' ↔ root) :
    IsCopy φ root' top mdl mdl' := by
  rwa [propext hr]

/-- The parent of the roots does not matter to the others. -/
theorem of_not_root (h : IsCopy φ root top mdl mdl') (hr : ¬ root) (top' : Option NodeId) :
    IsCopy φ root top' mdl mdl' :=
  { h with top := fun hn => absurd hn hr }

end IsCopy

namespace Graph

/-- The models at or below the models `R`. -/
def Under (g : Graph) (R : NodeId → Prop) (n : NodeId) : Prop := ∃ r, R r ∧ g.Below r n

/-- The function `φ` gives the copies, in `h`, of the models of `g` at or below the models `R`. They are
the models of `h` from `lo` on. -/
structure Copies (φ : NodeId → NodeId) (R : NodeId → Prop) (top : Option NodeId) (lo : NodeId)
    (g h : Graph) : Prop where
  fresh : ∀ n, g.Under R n → lo ≤ φ n ∧ φ n < h.nextId
  inj : ∀ a b, g.Under R a → g.Under R b → φ a = φ b → a = b
  onto : ∀ k, lo ≤ k → k < h.nextId → ∃ n, g.Under R n ∧ φ n = k
  copy : ∀ n, g.Under R n → ∀ mdl, g.model n = some mdl →
    ∃ mdl', h.model (φ n) = some mdl' ∧ IsCopy φ (R n) top mdl mdl'

/-- The function `φ` gives the copies that a call allocates of the models at or below `m`. -/
structure Copied (φ : NodeId → NodeId) (m : NodeId) (g h h' : Graph) : Prop where
  copies : Copies φ (· = m) none h.nextId g h'
  le : h.nextId ≤ h'.nextId
  kept : ∀ n, n < h.nextId → h'.model n = h.model n
  beyond : ∀ n, h'.nextId ≤ n → h.model n = none → h'.model n = none

section Under

variable {g : Graph} {R : NodeId → Prop} {n : NodeId}

theorem Under.child {x : NodeId} (h : g.Under R n) (hx : g.parent? x = some n) : g.Under R x := by
  obtain ⟨r, hr, hn⟩ := h
  exact ⟨r, hr, hn.child hx⟩

/-- What is not one of the models `R` is below its parent. -/
theorem Under.parent (h : g.Under R n) (hR : ¬ R n) : ∃ p, g.parent? n = some p ∧ g.Under R p := by
  obtain ⟨r, hr, hn⟩ := h
  rcases hn.cases with rfl | ⟨p, hp, hb⟩
  · exact absurd hr hR
  · exact ⟨p, hp, r, hr, hb⟩

/-- What is connected inside, or around a model that is not at the top, is copied too. -/
theorem Under.ends (hg : g.Linked) (h : g.Under R n) {side : Side} {p : String}
    (hR : ¬ (R n ∧ side.inner ≠ side)) {e : ModelPort} (he : e ∈ g.entries ⟨n, side, p⟩) :
    g.Under R e.1 := by
  obtain ⟨t, rfl, hst⟩ := hg.joined _ e he
  by_cases hs : side.inner = side
  · exact h.child (hst.symm.of_inner hs).1
  · obtain ⟨q, hq, hu⟩ := h.parent fun hr => hR ⟨hr, hs⟩
    by_cases ht : t.side.inner = t.side
    · obtain rfl := Option.some.inj (hq.symm.trans (hst.of_inner ht).1)
      exact hu
    · exact hu.child ((hst.of_outer hs ht).symm.trans hq)

/-- What is written in a copied model speaks of copied models. -/
theorem Under.agree {φ φ' : NodeId → NodeId} {top : Option NodeId} {mdl mdl' : BaseModel}
    (hn : g.Under R n) (hg : g.WellFormed) (hm : g.model n = some mdl)
    (h : IsCopy φ (R n) top mdl mdl') (hφ : ∀ a, g.Under R a → φ' a = φ a) :
    IsCopy φ' (R n) top mdl mdl' := by
  refine h.congr (fun hr p hp => ?_) (fun name x hx => ?_) fun side p hr e he => ?_
  · obtain ⟨q, hq, hu⟩ := hn.parent hr
    rw [Graph.parent?, hm, Option.bind_some, hp] at hq
    exact hφ p (Option.some.inj hq ▸ hu)
  · have hchild : g.child? n name = some x := by
      rw [Graph.child?, hm]
      exact hx
    exact hφ x (hn.child ((hg.listed n name x).mp hchild).2)
  · refine hφ e.1 (hn.ends hg.linked hr (p := p) ?_)
    rw [Graph.entries, Graph.portList?, hm]
    exact he

end Under

/-- The copies of a further submodel `x` are added, under the parent of the others. -/
theorem Copies.union {φ ψ : NodeId → NodeId} {R : NodeId → Prop} {x c lo : NodeId} {g h₁ h₂ h₃ : Graph}
    (hg : g.WellFormed) (hφ : Copies φ R (some c) lo g h₁)
    (hψ : Copies ψ (· = x) none h₁.nextId g h₂) (hdisj : ∀ n, g.Under R n → ¬ g.Below x n)
    (hlo : lo ≤ h₁.nextId) (hle : h₁.nextId ≤ h₂.nextId)
    (hold : ∀ k, lo ≤ k → k < h₁.nextId → h₃.model k = h₁.model k)
    (hnew : ∀ k, h₁.nextId ≤ k → k ≠ ψ x → h₃.model k = h₂.model k)
    (hroot : ∀ mdl', h₂.model (ψ x) = some mdl' →
      h₃.model (ψ x) = some { mdl' with parent := some c }) (hnext : h₃.nextId = h₂.nextId) :
    ∃ φ', (∀ n, g.Under R n → φ' n = φ n) ∧ φ' x = ψ x ∧
      Copies φ' (fun n => R n ∨ n = x) (some c) lo g h₃ := by
  classical
  have hx : g.Under (· = x) x := ⟨x, rfl, Below.refl g x⟩
  have hbelow : ∀ {n}, g.Under (· = x) n ↔ g.Below x n :=
    ⟨fun ⟨r, hr, hb⟩ => hr ▸ hb, fun hb => ⟨x, rfl, hb⟩⟩
  have hunder : ∀ n, g.Under (fun n => R n ∨ n = x) n → g.Under R n ∨ g.Below x n := by
    rintro n ⟨r, hr | rfl, hb⟩
    · exact .inl ⟨r, hr, hb⟩
    · exact .inr hb
  let φ' := fun n => if g.Below x n then ψ n else φ n
  have hφ' : ∀ n, g.Under R n → φ' n = φ n := fun n hn => if_neg (hdisj n hn)
  have hψ' : ∀ n, g.Under (· = x) n → φ' n = ψ n := fun n hn => if_pos (hbelow.mp hn)
  refine ⟨φ', hφ', hψ' x hx, fun n hn => ?_, fun a b ha hb hab => ?_, fun k hlok hk => ?_,
    fun n hn mdl hmdl => ?_⟩
  · rcases hunder n hn with hn | hn
    · obtain ⟨hge, hlt⟩ := hφ.fresh n hn
      rw [hφ' n hn, hnext]
      exact ⟨hge, hlt.trans_le hle⟩
    · obtain ⟨hge, hlt⟩ := hψ.fresh n (hbelow.mpr hn)
      rw [hψ' n (hbelow.mpr hn), hnext]
      exact ⟨hlo.trans hge, hlt⟩
  · rcases hunder a ha with ha | ha <;> rcases hunder b hb with hb | hb
    · rw [hφ' a ha, hφ' b hb] at hab
      exact hφ.inj a b ha hb hab
    · rw [hφ' a ha, hψ' b (hbelow.mpr hb)] at hab
      have hlt := (hφ.fresh a ha).2.trans_le (hψ.fresh b (hbelow.mpr hb)).1
      exact absurd hab hlt.ne
    · rw [hψ' a (hbelow.mpr ha), hφ' b hb] at hab
      have hlt := (hφ.fresh b hb).2.trans_le (hψ.fresh a (hbelow.mpr ha)).1
      exact absurd hab hlt.ne'
    · rw [hψ' a (hbelow.mpr ha), hψ' b (hbelow.mpr hb)] at hab
      exact hψ.inj a b (hbelow.mpr ha) (hbelow.mpr hb) hab
  · by_cases hlt : k < h₁.nextId
    · obtain ⟨n, ⟨r, hr, hb⟩, rfl⟩ := hφ.onto k hlok hlt
      exact ⟨n, ⟨r, .inl hr, hb⟩, hφ' n ⟨r, hr, hb⟩⟩
    · obtain ⟨n, hn, rfl⟩ := hψ.onto k (not_lt.mp hlt) (hnext ▸ hk)
      exact ⟨n, ⟨x, .inr rfl, hbelow.mp hn⟩, hψ' n hn⟩
  · rcases hunder n hn with hn | hn
    · obtain ⟨mdl', hmdl', hcopy⟩ := hφ.copy n hn mdl hmdl
      have := hφ.fresh n hn
      refine ⟨mdl', ?_, (hn.agree hg hmdl hcopy hφ').iff_root ⟨fun hr => hr.resolve_right ?_, .inl⟩⟩
      · rw [hφ' n hn, hold _ this.1 this.2, hmdl']
      · intro he
        exact hdisj n hn (he ▸ Below.refl g n)
    · have hn' := hbelow.mpr hn
      obtain ⟨mdl', hmdl', hcopy⟩ := hψ.copy n hn' mdl hmdl
      have hcopy' := hn'.agree hg hmdl hcopy hψ'
      have hiff : R n ∨ n = x ↔ n = x :=
        ⟨fun hr => hr.resolve_left fun hr => hdisj n ⟨n, hr, Below.refl g n⟩ hn, .inr⟩
      by_cases hnx : n = x
      · subst hnx
        refine ⟨_, ?_, (hcopy'.setParent rfl).iff_root hiff⟩
        rw [hψ' n hn', hroot mdl' hmdl']
      · refine ⟨mdl', ?_, (hcopy'.of_not_root hnx _).iff_root hiff⟩
        rw [hψ' n hn', hnew _ (hψ.fresh n hn').1 fun he => hnx (hψ.inj n x hn' hx he), hmdl']

end Graph

namespace CoupledModel

/-! ## The submodels are copied one after the other -/

theorem setModelList_setModelList (m : BaseModel) (l l' : ModelList) :
    (m.setModelList l).setModelList l' = m.setModelList l' := by
  obtain ⟨name, parent, ins, outs, x, y, w, h, kind⟩ := m
  cases kind <;> rfl

/-- The loop over the submodels of `m` has copied those of `done`; the copy of `m` is the first model
that it allocated. -/
structure Cloning (φ : NodeId → NodeId) (mdl : BaseModel) (done : List (String × NodeId))
    (g h h₁ : Graph) : Prop where
  copies : Copies φ (fun x => ∃ name, (name, x) ∈ done) (some h.nextId) (h.nextId + 1) g h₁
  next : h.nextId < h₁.nextId
  kept : ∀ n, n < h.nextId → h₁.model n = h.model n
  beyond : ∀ n, h₁.nextId ≤ n → h.model n = none → h₁.model n = none
  node : ∃ l, h₁.model h.nextId = some ((copyOf mdl).setModelList l) ∧
    (∀ name x, (name, x) ∈ done → l.lookup name = some (φ x)) ∧
    ∀ name, (∀ x, (name, x) ∉ done) → l.lookup name = mdl.modelList.lookup name

/-- What is below a submodel that is not copied yet is not among the copied models. -/
theorem not_under {g : Graph} (hg : g.WellFormed) {m : NodeId} {mdl : BaseModel}
    (hm : g.model m = some mdl) {done todo : List (String × NodeId)} {name : String} {x : NodeId}
    (hall : inOrder mdl.modelList = done ++ (name, x) :: todo) {n : NodeId}
    (hn : g.Under (fun x => ∃ name, (name, x) ∈ done) n) : ¬ g.Below x n := by
  have hchild : ∀ {k y}, (k, y) ∈ inOrder mdl.modelList → g.name? y = some k ∧ g.parent? y = some m := by
    intro k y hmem
    refine (hg.listed m k y).mp ?_
    rw [Graph.child?, hm]
    exact (mem_inOrder _ k y).mp hmem
  obtain ⟨y, ⟨k, hk⟩, hb⟩ := hn
  intro hx
  have hmem : (name, x) ∈ inOrder mdl.modelList := by simp [hall]
  have hmem' : (k, y) ∈ inOrder mdl.modelList := by simp [hall, hk]
  obtain rfl := hg.forest.below_disjoint (hchild hmem').2 (hchild hmem).2 hb hx
  obtain rfl := Option.some.inj ((hchild hmem').1.symm.trans (hchild hmem).1)
  have hnodup := nodup_inOrder mdl.modelList
  rw [hall, List.map_append, List.map_cons, List.nodup_middle, List.nodup_cons] at hnodup
  exact hnodup.1 (List.mem_append_left _ (List.mem_map_of_mem hk))

/-- A turn of the loop. -/
theorem Cloning.step {g h h₁ h₂ : Graph} (hg : g.WellFormed) {m : NodeId} {mdl : BaseModel}
    (hm : g.model m = some mdl) {φ ψ : NodeId → NodeId} {done todo : List (String × NodeId)}
    {name : String} {x : NodeId} {fuel : ℕ}
    (hall : inOrder mdl.modelList = done ++ (name, x) :: todo) (hc : Cloning φ mdl done g h h₁)
    (hrun : clone g fuel x h₁ = .ok (ψ x) h₂) (hψ : Copies ψ (· = x) none h₁.nextId g h₂)
    (hle : h₁.nextId ≤ h₂.nextId) (hkept : ∀ n, n < h₁.nextId → h₂.model n = h₁.model n)
    (hbeyond : ∀ n, h₂.nextId ≤ n → h₁.model n = none → h₂.model n = none) : ∃ φ' h₃, (do
      let child ← clone g fuel x
      modifyModel child fun child => { child with parent := some h.nextId }
      modifyModel h.nextId fun cpled => cpled.setModelList (cpled.modelList.insert name child) :
        GraphM Unit) h₁ = .ok () h₃ ∧ Cloning φ' mdl (done ++ [(name, x)]) g h h₃ := by
  obtain ⟨l, hl, hdone, htodo⟩ := hc.node
  have hmem : (name, x) ∈ inOrder mdl.modelList := by simp [hall]
  have hlookup := (mem_inOrder mdl.modelList name x).mp hmem
  have hcoupled : (copyOf mdl).isCoupled = true := by
    rw [isCoupled_copyOf]
    obtain ⟨_, _, _, _, _, _, _, _, kind⟩ := mdl
    cases kind with
    | atomic a => cases hlookup
    | coupled c => rfl
  have hparent : g.parent? x = some m := by
    refine ((hg.listed m name x).mp ?_).2
    rw [Graph.child?, hm]
    exact hlookup
  obtain ⟨src, hsrc⟩ := exists_of_name? (name?_of_parent? hparent)
  have hx : g.Under (· = x) x := ⟨x, rfl, Below.refl g x⟩
  obtain ⟨child, hchild, -⟩ := hψ.copy x hx src hsrc
  obtain ⟨hge, hlt⟩ := hψ.fresh x hx
  have hne : h.nextId ≠ ψ x := (hc.next.trans_le hge).ne
  have hl₂ : h₂.model h.nextId = some ((copyOf mdl).setModelList l) := (hkept _ hc.next).trans hl
  let h₃ := (h₂.store (ψ x) { child with parent := some h.nextId }).store h.nextId
    ((copyOf mdl).setModelList (l.insert name (ψ x)))
  have hmodel : ∀ k, k ≠ h.nextId → k ≠ ψ x → h₃.model k = h₂.model k := by
    intro k hk hk'
    rw [model_store, Function.update_of_ne hk, model_store, Function.update_of_ne hk']
  have hmodelx : h₃.model (ψ x) = some { child with parent := some h.nextId } := by
    rw [model_store, Function.update_of_ne hne.symm, model_store, Function.update_self]
  obtain ⟨φ', hφ', hψ', hcopies⟩ := hc.copies.union hg hψ
    (fun n hn => not_under hg hm hall hn) hc.next hle
    (fun k hk hlt => by
      rw [hmodel k (Nat.lt_of_succ_le hk).ne' (hlt.trans_le hge).ne, hkept k hlt])
    (fun k hk hne' => hmodel k (hc.next.trans_le hk).ne' hne')
    (fun mdl' hmdl' => by
      obtain rfl := Option.some.inj (hchild.symm.trans hmdl')
      exact hmodelx) (show h₃.nextId = h₂.nextId from rfl)
  refine ⟨φ', h₃, ?_, ?_, hc.next.trans_le hle, fun n hn => ?_, fun n hn hnone => ?_,
    l.insert name (ψ x), ?_, ?_, ?_⟩
  · refine (EState.bind_run hrun).trans ?_
    refine (EState.bind_run (modifyModel_ok.mpr ⟨child, hchild, rfl⟩)).trans ?_
    refine modifyModel_ok.mpr ⟨(copyOf mdl).setModelList l, ?_, ?_⟩
    · rw [model_store, Function.update_of_ne hne, hl₂]
    · rw [setModelList_setModelList, BaseModel.modelList_setModelList hcoupled]
  · convert hcopies using 2 with n
    simp [exists_or]
  · rw [hmodel n hn.ne ((hn.trans hc.next).trans_le hge).ne, hkept n (hn.trans hc.next), hc.kept n hn]
  · rw [hmodel n ((hc.next.trans_le hle).trans_le hn).ne' (hlt.trans_le hn).ne']
    exact hbeyond n hn (hc.beyond n (hle.trans hn) hnone)
  · rw [model_store, Function.update_self]
  · intro k y hky
    rcases List.mem_append.mp hky with hy | hy
    · have hk : k ≠ name := by
        rintro rfl
        have hnodup := nodup_inOrder mdl.modelList
        rw [hall, List.map_append, List.map_cons, List.nodup_middle, List.nodup_cons] at hnodup
        have hk : k ∈ done.map Prod.fst := List.mem_map_of_mem hy
        exact hnodup.1 (List.mem_append_left _ hk)
      rw [AList.lookup_insert_ne hk, hdone k y hy, hφ' y ⟨y, ⟨k, hy⟩, Below.refl g y⟩]
    · obtain ⟨rfl, rfl⟩ := Prod.mk.inj (List.mem_singleton.mp hy)
      rw [AList.lookup_insert, hψ']
  · intro k hk
    have hne : k ≠ name := by
      rintro rfl
      exact hk x (by simp)
    rw [AList.lookup_insert_ne hne, htodo k fun y hy => hk y (List.mem_append_left _ hy)]

end CoupledModel

namespace CoupledModel

/-! ## Then the connections -/

/-- The ports of a model on one side. -/
def portsOf (g : Graph) (n : NodeId) (side : Side) : ConnectionList :=
  ((g.model n).map (·.connections side)).getD ∅

/-- The ends that the last part of `clone` adds to a list: inside the copy `c`, and around the copies of
the submodels. -/
def added (φ : NodeId → NodeId) (g : Graph) (c : NodeId) (mdl : BaseModel) (s : Slot) :
    Multiset ModelPort :=
  (if s.model = c ∧ s.side = .internalInput then
      copied φ (mdl.connections .internalInput) s.port else 0) +
    ((if s.model = c ∧ s.side = .internalOutput then
        copied φ (mdl.connections .internalOutput) s.port else 0) +
      ((inOrder mdl.modelList).map fun it =>
        (if s.model = φ it.2 ∧ s.side = .input then copied φ (portsOf g it.2 .input) s.port else 0) +
        (if s.model = φ it.2 ∧ s.side = .output then
          copied φ (portsOf g it.2 .output) s.port else 0)).sum)

section Fill

variable {g h h₁ : Graph} {m c : NodeId} {mdl : BaseModel} {φ : NodeId → NodeId}

/-- The graph has the ports of the copies, and each model that is mentioned has its copy. -/
structure Ready (φ : NodeId → NodeId) (g h : Graph) (m c : NodeId) (mdl : BaseModel) : Prop where
  model : g.model m = some mdl
  root : φ m = c
  child : ∀ name x, mdl.modelList.lookup name = some x → h.child? c name = some (φ x)
  inside : ∀ side p, side.inner = side → ((mdl.connections side).lookup p).isSome →
    (h.portList? ⟨c, side, p⟩).isSome
  around : ∀ name x, mdl.modelList.lookup name = some x → ∀ side p,
    ((portsOf g x side).lookup p).isSome → (h.portList? ⟨φ x, side, p⟩).isSome
  above : ∀ name x, mdl.modelList.lookup name = some x → c ≤ φ x

theorem Ready.submodel (hr : Ready φ g h m c mdl) (hg : g.WellFormed) {n : NodeId}
    (hn : g.parent? n = some m) : ∃ src, g.model n = some src ∧ mdl.modelList.lookup src.name = some n ∧
      h.child? c src.name = some (φ n) := by
  obtain ⟨src, hsrc⟩ := exists_of_name? (name?_of_parent? hn)
  have hchild : g.child? m src.name = some n := by
    refine (hg.listed m src.name n).mpr ⟨?_, hn⟩
    rw [Graph.name?, hsrc]
    rfl
  rw [Graph.child?, hr.model] at hchild
  exact ⟨src, hsrc, hchild, hr.child src.name n hchild⟩

/-- The ends inside the model are submodels. -/
theorem Ready.found_inside (hr : Ready φ g h m c mdl) (hg : g.WellFormed) {side : Side}
    (hs : side.inner = side) {p : String} {l : ModelPortList}
    (hl : (mdl.connections side).lookup p = some l) : ∀ e ∈ l.lst, Found g h c none φ e.1 := by
  intro e he
  have hmem : e ∈ g.entries ⟨m, side, p⟩ := by
    rw [Graph.entries, Graph.portList?, hr.model, Option.bind_some, hl]
    exact he
  obtain ⟨t, rfl, hst⟩ := hg.linked.joined _ e hmem
  obtain ⟨src, hsrc, -, hchild⟩ := hr.submodel hg (hst.symm.of_inner hs).1
  exact ⟨fun h => absurd h (Option.some_ne_none _), fun _ => ⟨src, hsrc, hchild⟩⟩

/-- The ends around a submodel are its siblings and the model. -/
theorem Ready.found_around (hr : Ready φ g h m c mdl) (hg : g.WellFormed) {x : NodeId}
    (hx : g.parent? x = some m) (side : Side) (hs : side.inner ≠ side) {p : String} {l : ModelPortList}
    (hl : (portsOf g x side).lookup p = some l) : ∀ e ∈ l.lst, Found g h c (some m) φ e.1 := by
  intro e he
  have hmem : e ∈ g.entries ⟨x, side, p⟩ := by
    obtain ⟨src, hsrc⟩ := exists_of_name? (name?_of_parent? hx)
    rw [portsOf, hsrc] at hl
    rw [Graph.entries, Graph.portList?, hsrc, Option.bind_some]
    change (src.connections side).lookup p = some l at hl
    rw [hl]
    exact he
  obtain ⟨t, rfl, hst⟩ := hg.linked.joined _ e hmem
  refine ⟨fun he => Option.some.inj he ▸ hr.root, fun hne => ?_⟩
  by_cases ht : t.side.inner = t.side
  · exact absurd ((hst.of_inner ht).1.symm.trans hx) hne
  · obtain ⟨src, hsrc, -, hchild⟩ := hr.submodel hg ((hst.of_outer hs ht).symm.trans hx)
    exact ⟨src, hsrc, hchild⟩

/-- The last part of `clone`. -/
theorem Ready.fills (hr : Ready φ g h m c mdl) (hg : g.WellFormed) :
    Fills c h (added φ g c mdl) (do
      copyConnection g c none (mdl.connections .internalInput) c .internalInput
      copyConnection g c none (mdl.connections .internalOutput) c .internalOutput
      (inOrder mdl.modelList).forM fun it => do
        let src ← EState.inspect fun _ => g.deref it.2
        match ← EState.inspect (·.findModel c it.1) with
        | some dst =>
          copyConnection g c (some m) src.inPortList dst .input
          copyConnection g c (some m) src.outPortList dst .output
        | none => throw .null) := by
  refine Fills.seq ?_ (Fills.seq ?_ (Fills.forM _ fun it hit => ?_))
  · exact fills_copyConnection (fun p l hl => hr.found_inside hg rfl hl)
      (fun p hp => hr.inside .internalInput p rfl hp) le_rfl
  · exact fills_copyConnection (fun p l hl => hr.found_inside hg rfl hl)
      (fun p hp => hr.inside .internalOutput p rfl hp) le_rfl
  · have hlookup := (mem_inOrder mdl.modelList it.1 it.2).mp hit
    have hx : g.parent? it.2 = some m := by
      refine ((hg.listed m it.1 it.2).mp ?_).2
      rw [Graph.child?, hr.model]
      exact hlookup
    obtain ⟨src, hsrc⟩ := exists_of_name? (name?_of_parent? hx)
    have hports : ∀ side, portsOf g it.2 side = src.connections side := fun side => by
      rw [portsOf, hsrc]
      rfl
    have hcopy : Fills c h (fun s =>
        (if s.model = φ it.2 ∧ s.side = .input then copied φ (portsOf g it.2 .input) s.port else 0) +
        (if s.model = φ it.2 ∧ s.side = .output then
          copied φ (portsOf g it.2 .output) s.port else 0)) (do
        copyConnection g c (some m) src.inPortList (φ it.2) .input
        copyConnection g c (some m) src.outPortList (φ it.2) .output) := by
      have habove := hr.above it.1 it.2 hlookup
      rw [hports, hports]
      refine Fills.seq (fills_copyConnection (fun p l hl => ?_) (fun p hp => ?_) habove)
        (fills_copyConnection (fun p l hl => ?_) (fun p hp => ?_) habove)
      · exact hr.found_around hg hx .input (by decide) ((hports .input).symm ▸ hl)
      · exact hr.around it.1 it.2 hlookup .input p ((hports .input).symm ▸ hp)
      · exact hr.found_around hg hx .output (by decide) ((hports .output).symm ▸ hl)
      · exact hr.around it.1 it.2 hlookup .output p ((hports .output).symm ▸ hp)
    intro h₂ h₂'
    obtain ⟨h₃, hrun, hfilled⟩ := hcopy h₂ h₂'
    have hfind : h₂.findModel c it.1 = .ok (some (φ it.2)) := by
      have hname := hr.child it.1 it.2 hlookup
      rw [← h₂'.child?] at hname
      obtain ⟨cpled, hcpled, hcl⟩ := Option.bind_eq_some_iff.mp hname
      unfold findModel
      rw [deref_eq_ok.mpr hcpled]
      exact congrArg Except.ok hcl
    refine ⟨h₃, ?_, hfilled⟩
    refine (EState.inspect_bind_run (f := fun _ => g.deref it.2) (deref_eq_ok.mpr hsrc)).trans ?_
    refine (EState.inspect_bind_run (f := fun k : Graph => k.findModel c it.1) hfind).trans ?_
    exact hrun

end Fill

end CoupledModel

namespace CoupledModel

section Clone

variable {g h h₁ : Graph} {m c : NodeId} {mdl : BaseModel} {φ : NodeId → NodeId}

/-- A sum over the submodels that only counts a list around one of them. -/
theorem sum_around (l : List (String × NodeId)) (k : NodeId) (F : String × NodeId → Multiset ModelPort)
    (hne : ∀ it ∈ l, k ≠ φ it.2) (P : Prop) [Decidable P] :
    (l.map fun it => if k = φ it.2 ∧ P then F it else 0).sum = 0 := by
  refine List.sum_eq_zero fun x hx => ?_
  obtain ⟨it, hit, rfl⟩ := List.mem_map.mp hx
  exact if_neg fun he => hne it hit he.1

theorem added_eq (s : Slot) : added φ g c mdl s =
    (if s.model = c ∧ s.side.inner = s.side then copied φ (mdl.connections s.side) s.port else 0) +
      ((inOrder mdl.modelList).map fun it => if s.model = φ it.2 ∧ s.side.inner ≠ s.side then
        copied φ (portsOf g it.2 s.side) s.port else 0).sum := by
  obtain ⟨k, side, p⟩ := s
  cases side <;> simp [added, Side.inner]

/-- What is added inside the copy. -/
theorem added_inside (hne : ∀ it ∈ inOrder mdl.modelList, c ≠ φ it.2)
    (side : Side) (p : String) : added φ g c mdl ⟨c, side, p⟩ =
      if side.inner = side then (mdl.ends side p).map (Prod.map φ id) else 0 := by
  have hsum := sum_around (inOrder mdl.modelList) c
    (fun it => copied φ (portsOf g it.2 side) p) hne (side.inner ≠ side)
  rw [added_eq]
  dsimp only at hsum ⊢
  rw [hsum, add_zero]
  simp only [true_and]
  rfl

/-- What is added around the copy of a submodel. -/
theorem Ready.added_around (hr : Ready φ g h m c mdl) (hg : g.WellFormed) {n : NodeId}
    {src : BaseModel} (hsrc : g.model n = some src) (hn : g.parent? n = some m) (hc : φ n ≠ c)
    (hinj : ∀ it ∈ inOrder mdl.modelList, φ n = φ it.2 → it.2 = n) (side : Side) (p : String) :
    added φ g c mdl ⟨φ n, side, p⟩ =
      if side.inner ≠ side then (src.ends side p).map (Prod.map φ id) else 0 := by
  obtain ⟨src', hsrc', hlookup, -⟩ := hr.submodel hg hn
  obtain rfl := Option.some.inj (hsrc.symm.trans hsrc')
  rw [added_eq, if_neg fun he => hc he.1, zero_add]
  have hkey : ∀ it ∈ inOrder mdl.modelList,
      (if φ n = φ it.2 ∧ side.inner ≠ side then copied φ (portsOf g it.2 side) p else 0) =
        if it.1 = src.name then
          if side.inner ≠ side then copied φ (portsOf g it.2 side) p else 0 else 0 := by
    intro it hit
    have hit' := (mem_inOrder mdl.modelList it.1 it.2).mp hit
    by_cases hname : it.1 = src.name
    · obtain rfl : it.2 = n := by
        rw [hname, hlookup] at hit'
        exact (Option.some.inj hit').symm
      rw [if_pos hname]
      simp only [true_and]
    · have hne : φ n ≠ φ it.2 := by
        intro he
        have hx := hinj it hit he
        have hchild : g.child? m it.1 = some it.2 := by
          rw [Graph.child?, hr.model]
          exact hit'
        have := ((hg.listed m it.1 it.2).mp hchild).1
        rw [hx, Graph.name?, hsrc] at this
        exact hname (Option.some.inj this).symm
      rw [if_neg hname, if_neg fun h => hne h.1]
  rw [List.map_congr_left hkey, sum_inOrder mdl.modelList src.name
    fun x => if side.inner ≠ side then copied φ (portsOf g x side) p else 0, hlookup]
  simp only [Option.map_some, Option.getD_some]
  rw [portsOf, hsrc]
  rfl

/-- Nothing is added elsewhere. -/
theorem added_other {k : NodeId} (hc : k ≠ c) (hne : ∀ it ∈ inOrder mdl.modelList, k ≠ φ it.2)
    (side : Side) (p : String) : added φ g c mdl ⟨k, side, p⟩ = 0 := by
  have hsum := sum_around (inOrder mdl.modelList) k
    (fun it => copied φ (portsOf g it.2 side) p) hne (side.inner ≠ side)
  rw [added_eq, if_neg fun he => hc he.1, zero_add]
  exact hsum

/-- What filling lists does to a model. -/
theorem filled_model {lo : NodeId} {F : Slot → Multiset ModelPort} {h h' : Graph} (hf : Filled lo F h h')
    {k : NodeId} {mdl : BaseModel} (hk : h.model k = some mdl) : ∃ mdl', h'.model k = some mdl' ∧
      mdl'.shape = mdl.shape ∧
      (∀ side p, ((mdl'.connections side).lookup p).isSome = ((mdl.connections side).lookup p).isSome) ∧
      ∀ side p, mdl'.ends side p = mdl.ends side p + F ⟨k, side, p⟩ := by
  have hshape := congrFun hf.rewired.shape k
  unfold shape? at hshape
  rw [hk, Option.map_some, Option.map_eq_some_iff] at hshape
  obtain ⟨mdl', hmdl', hs⟩ := hshape
  refine ⟨mdl', hmdl', hs, fun side p => ?_, fun side p => ?_⟩
  · have := hf.rewired.ports ⟨k, side, p⟩
    unfold portList? at this
    rwa [hk, hmdl'] at this
  · have := hf.entries ⟨k, side, p⟩
    unfold Graph.entries portList? at this
    rwa [hk, hmdl'] at this

end Clone

end CoupledModel

namespace CoupledModel

section Clone

variable {g h h₁ h' : Graph} {m : NodeId} {mdl : BaseModel} {φ : NodeId → NodeId}

/-- What is below a model and is not the model is below a submodel. -/
theorem under_submodel (hg : g.WellFormed) (hm : g.model m = some mdl) {n : NodeId} (hb : g.Below m n)
    (hn : n ≠ m) : g.Under (fun x => ∃ name, (name, x) ∈ inOrder mdl.modelList) n := by
  rcases Relation.ReflTransGen.cases_head hb with h | ⟨x, hx, hb⟩
  · exact absurd h.symm hn
  · obtain ⟨src, hsrc⟩ := exists_of_name? (name?_of_parent? hx)
    have hchild : g.child? m src.name = some x := by
      refine (hg.listed m src.name x).mpr ⟨?_, hx⟩
      rw [Graph.name?, hsrc]
      rfl
    rw [Graph.child?, hm] at hchild
    exact ⟨x, ⟨src.name, (mem_inOrder _ _ _).mpr hchild⟩, hb⟩

theorem parent_of_mem (hg : g.WellFormed) (hm : g.model m = some mdl) {name : String} {x : NodeId}
    (hx : (name, x) ∈ inOrder mdl.modelList) : g.parent? x = some m := by
  refine ((hg.listed m name x).mp ?_).2
  rw [Graph.child?, hm]
  exact (mem_inOrder _ _ _).mp hx

/-- The list of the copy, when all submodels are copied. -/
theorem lookup_copied {l : ModelList}
    (hdone : ∀ name x, (name, x) ∈ inOrder mdl.modelList → l.lookup name = some (φ x))
    (htodo : ∀ name, (∀ x, (name, x) ∉ inOrder mdl.modelList) →
      l.lookup name = mdl.modelList.lookup name) (name : String) :
    ((copyOf mdl).setModelList l).modelList.lookup name = (mdl.modelList.lookup name).map φ := by
  by_cases hcoupled : mdl.isCoupled = true
  · rw [BaseModel.modelList_setModelList (by rwa [isCoupled_copyOf])]
    cases hx : mdl.modelList.lookup name with
    | some x => exact hdone name x ((mem_inOrder _ _ _).mpr hx)
    | none =>
      have hnone : ∀ x, (name, x) ∉ inOrder mdl.modelList := fun x hmem => by
        rw [(mem_inOrder _ _ _).mp hmem] at hx
        cases hx
      rw [htodo name hnone, hx]
      rfl
  · obtain ⟨_, _, _, _, _, _, _, _, kind⟩ := mdl
    cases kind with
    | atomic a => rfl
    | coupled c => exact absurd rfl hcoupled

/-- The copies are known by their correspondence on the copied models. -/
theorem Cloning.rename {φ' : NodeId → NodeId} {done : List (String × NodeId)} (hg : g.WellFormed)
    (hc : Cloning φ mdl done g h h₁)
    (hφ : ∀ n, g.Under (fun x => ∃ name, (name, x) ∈ done) n → φ' n = φ n) :
    Cloning φ' mdl done g h h₁ where
  copies := by
    refine ⟨fun n hn => ?_, fun a b ha hb hab => ?_, fun k hlo hk => ?_, fun n hn src hsrc => ?_⟩
    · rw [hφ n hn]
      exact hc.copies.fresh n hn
    · rw [hφ a ha, hφ b hb] at hab
      exact hc.copies.inj a b ha hb hab
    · obtain ⟨n, hn, rfl⟩ := hc.copies.onto k hlo hk
      exact ⟨n, hn, hφ n hn⟩
    · obtain ⟨mdl', hmdl', hcopy⟩ := hc.copies.copy n hn src hsrc
      exact ⟨mdl', by rw [hφ n hn, hmdl'], hn.agree hg hsrc hcopy hφ⟩
  next := hc.next
  kept := hc.kept
  beyond := hc.beyond
  node := by
    obtain ⟨l, hl, hdone, htodo⟩ := hc.node
    refine ⟨l, hl, fun name x hx => ?_, htodo⟩
    rw [hdone name x hx, hφ x ⟨x, ⟨name, hx⟩, Below.refl g x⟩]

/-- When all submodels are copied, the lists can be filled. -/
theorem Cloning.ready (hg : g.WellFormed) (hm : g.model m = some mdl)
    (hc : Cloning φ mdl (inOrder mdl.modelList) g h h₁) (hroot : φ m = h.nextId) :
    Ready φ g h₁ m h.nextId mdl := by
  obtain ⟨l, hl, hdone, htodo⟩ := hc.node
  have hunder : ∀ {name x}, mdl.modelList.lookup name = some x →
      g.Under (fun x => ∃ name, (name, x) ∈ inOrder mdl.modelList) x := fun {name x} hx =>
    ⟨x, ⟨name, (mem_inOrder _ _ _).mpr hx⟩, Below.refl g x⟩
  refine ⟨hm, hroot, fun name x hx => ?_, fun side p _ hp => ?_, fun name x hx side p hp => ?_,
    fun name x hx => (Nat.lt_of_succ_le (hc.copies.fresh x (hunder hx)).1).le⟩
  · have hmem := (mem_inOrder mdl.modelList name x).mpr hx
    have hcoupled : (copyOf mdl).isCoupled = true := by
      rw [isCoupled_copyOf]
      obtain ⟨_, _, _, _, _, _, _, _, kind⟩ := mdl
      cases kind with
      | atomic a => cases hx
      | coupled c => rfl
    rw [Graph.child?, hl, Option.bind_some, BaseModel.modelList_setModelList hcoupled]
    exact hdone name x hmem
  · rw [Graph.portList?, hl, Option.bind_some, BaseModel.connections_setModelList, ports_copyOf]
    exact hp
  · obtain ⟨src, hsrc⟩ := exists_of_name? (name?_of_parent? (parent_of_mem hg hm
      ((mem_inOrder mdl.modelList name x).mpr hx)))
    obtain ⟨mdl', hmdl', hcopy⟩ := hc.copies.copy x (hunder hx) src hsrc
    rw [portsOf, hsrc] at hp
    rw [Graph.portList?, hmdl', Option.bind_some, hcopy.ports]
    exact hp

/-- When the lists are filled too, the copy is complete. -/
theorem Cloning.filled (hg : g.WellFormed) (hm : g.model m = some mdl)
    (hc : Cloning φ mdl (inOrder mdl.modelList) g h h₁) (hroot : φ m = h.nextId)
    (hf : Filled h.nextId (added φ g h.nextId mdl) h₁ h') :
    Copied φ m g h h' := by
  have hnext := hf.rewired.nextId
  have hready := hc.ready hg hm hroot
  set R : NodeId → Prop := fun x => ∃ name, (name, x) ∈ inOrder mdl.modelList with hR
  have hparent : ∀ {x}, R x ↔ g.parent? x = some m := by
    refine fun {x} => ⟨fun ⟨name, hx⟩ => parent_of_mem hg hm hx, fun hx => ?_⟩
    obtain ⟨src, -, hlookup, -⟩ := hready.submodel hg hx
    exact ⟨src.name, (mem_inOrder _ _ _).mpr hlookup⟩
  have hunder : ∀ {n}, g.Under (· = m) n → n ≠ m → g.Under R n := by
    rintro n ⟨r, rfl, hb⟩ hn
    exact under_submodel hg hm hb hn
  have hbelow : ∀ {n}, g.Under R n → g.Below m n := fun ⟨x, hx, hb⟩ =>
    ((Below.refl g m).child (hparent.mp hx)).trans hb
  have hnot : ∀ {n}, g.Under R n → n ≠ m := by
    rintro n ⟨x, hx, hb⟩ rfl
    exact hg.forest.not_below (hparent.mp hx) hb
  have hgt : ∀ {n}, g.Under R n → h.nextId < φ n := fun hn =>
    Nat.lt_of_succ_le (hc.copies.fresh _ hn).1
  have hself : ∀ {x}, R x → g.Under R x := fun {x} hx => ⟨x, hx, Below.refl g x⟩
  have hmemR : ∀ it ∈ inOrder mdl.modelList, g.Under R it.2 := fun it hit => hself ⟨it.1, hit⟩
  refine ⟨⟨fun n hn => ?_, fun a b ha hb hab => ?_, fun k hlo hk => ?_, fun n hn src hsrc => ?_⟩,
    hnext ▸ hc.next.le, fun n hn => (hf.kept n hn).trans (hc.kept n hn), fun n hn hnone => ?_⟩
  · by_cases hnm : n = m
    · rw [hnm, hroot, hnext]
      exact ⟨le_rfl, hc.next⟩
    · exact ⟨(hgt (hunder hn hnm)).le, hnext ▸ (hc.copies.fresh n (hunder hn hnm)).2⟩
  · by_cases ham : a = m <;> by_cases hbm : b = m
    · rw [ham, hbm]
    · rw [ham, hroot] at hab
      exact absurd hab (hgt (hunder hb hbm)).ne
    · rw [hbm, hroot] at hab
      exact absurd hab (hgt (hunder ha ham)).ne'
    · exact hc.copies.inj a b (hunder ha ham) (hunder hb hbm) hab
  · rcases hlo.eq_or_lt with rfl | hlt
    · exact ⟨m, ⟨m, rfl, Below.refl g m⟩, hroot⟩
    · obtain ⟨n, hn, rfl⟩ := hc.copies.onto k hlt (hnext ▸ hk)
      exact ⟨n, ⟨m, rfl, hbelow hn⟩, rfl⟩
  by_cases hnm : n = m
  · subst hnm
    obtain rfl := Option.some.inj (hm.symm.trans hsrc)
    obtain ⟨l, hl, hdone, htodo⟩ := hc.node
    obtain ⟨mdl', hmdl', hshape, hports, hends⟩ := filled_model hf hl
    have hne : ∀ it ∈ inOrder mdl.modelList, h.nextId ≠ φ it.2 := fun it hit => (hgt (hmemR it hit)).ne
    have hin := added_inside (g := g) hne
    refine ⟨mdl', by rw [hroot, hmdl'], ?_, ?_, fun _ => ?_, fun hn => absurd rfl hn, fun name => ?_,
      fun side p => ?_, fun side p _ hs => ?_, fun side p hs => ?_⟩
    · rw [← BaseModel.attributes_shape, hshape, BaseModel.attributes_shape,
        BaseModel.attributes_setModelList, attributes_copyOf]
    · rw [← BaseModel.simulator_shape, hshape, BaseModel.simulator_shape,
        BaseModel.simulator_setModelList, simulator_copyOf]
    · have := congrArg BaseModel.parent hshape
      exact this.trans (BaseModel.parent_setModelList _ _)
    · rw [← BaseModel.modelList_shape, hshape, BaseModel.modelList_shape]
      exact lookup_copied hdone htodo name
    · rw [hports, BaseModel.connections_setModelList, ports_copyOf]
    · rw [hends, hin, if_neg hs, add_zero, BaseModel.ends, BaseModel.connections_setModelList]
      exact ends_copyOf mdl side p
    · have hs : side.inner = side := by simpa using hs
      rw [hends, hin, if_pos hs, BaseModel.ends, BaseModel.connections_setModelList]
      exact (congrArg (· + _) (ends_copyOf mdl side p)).trans (zero_add _)
  · have hn' := hunder hn hnm
    obtain ⟨mdl₁, hmdl₁, hcopy⟩ := hc.copies.copy n hn' src hsrc
    obtain ⟨mdl', hmdl', hshape, hports, hends⟩ := filled_model hf hmdl₁
    have hinj : ∀ it ∈ inOrder mdl.modelList, φ n = φ it.2 → it.2 = n := fun it hit he =>
      (hc.copies.inj n it.2 hn' (hmemR it hit) he).symm
    refine ⟨mdl', hmdl', ?_, ?_, fun he => absurd he hnm, fun _ => ?_, fun name => ?_,
      fun side p => ?_, fun side p he => absurd he hnm, fun side p _ => ?_⟩
    · rw [← BaseModel.attributes_shape, hshape, BaseModel.attributes_shape, hcopy.attributes]
    · rw [← BaseModel.simulator_shape, hshape, BaseModel.simulator_shape, hcopy.simulator]
    · have hpar : mdl'.shape.parent = mdl₁.shape.parent := congrArg BaseModel.parent hshape
      change mdl'.shape.parent = _
      rw [hpar]
      change mdl₁.parent = _
      by_cases hRn : R n
      · have hp := hparent.mp hRn
        rw [Graph.parent?, hsrc, Option.bind_some] at hp
        rw [hcopy.top hRn, hp, Option.map_some, hroot]
      · exact hcopy.parent hRn
    · rw [← BaseModel.modelList_shape, hshape, BaseModel.modelList_shape, hcopy.child]
    · rw [hports, hcopy.ports]
    · rw [hends]
      by_cases hRn : R n
      · rw [hready.added_around hg hsrc (hparent.mp hRn) (hgt hn').ne' hinj]
        by_cases hs : side.inner = side
        · rw [hcopy.ends side p fun h => h.2 hs, if_neg (not_not.mpr hs), add_zero]
        · rw [hcopy.outer side p hRn hs, if_pos hs, zero_add]
      · have hne : ∀ it ∈ inOrder mdl.modelList, φ n ≠ φ it.2 := fun it hit he =>
          hRn (hinj it hit he ▸ ⟨it.1, hit⟩)
        rw [added_other (hgt hn').ne' hne, add_zero, hcopy.ends side p fun h => hRn h.1]
  · have hshape := congrFun hf.rewired.shape n
    unfold shape? at hshape
    rw [hc.beyond n (hnext ▸ hn) hnone] at hshape
    exact Option.map_eq_none_iff.mp hshape

end Clone

end CoupledModel

namespace CoupledModel

/-- The copy constructors copy a model with all that is below it, provided the fuel is enough for the
depth. -/
theorem clone_run {g : Graph} (hg : g.WellFormed) {N : ℕ} {rank : NodeId → ℕ}
    (hrank : ∀ n c, g.parent? n = some c → rank c < rank n)
    (hbound : ∀ n, (g.name? n).isSome → rank n < N) (fuel : ℕ) {m : NodeId}
    (hm : (g.name? m).isSome) (hfuel : N < fuel + rank m) (h : Graph) :
    ∃ φ h', clone g fuel m h = .ok (φ m) h' ∧ Copied φ m g h h' := by
  induction fuel generalizing m h with
  | zero =>
    have := hbound m hm
    omega
  | succ fuel ih =>
    obtain ⟨mdl, hmdl⟩ := exists_of_name? hm
    let h₀ := { h with nextId := h.nextId + 1 }.store h.nextId (copyOf mdl)
    have hstart : ∃ φ, Cloning φ mdl [] g h h₀ := by
      refine ⟨id, ⟨fun n hn => ?_, fun a b ha => ?_, fun k hlo hk => ?_, fun n hn => ?_⟩,
        Nat.lt_succ_self _, fun n hn => ?_, fun n hn hnone => ?_, mdl.modelList, ?_,
        fun name x hx => ?_, fun _ _ => rfl⟩
      · obtain ⟨x, ⟨name, hx⟩, -⟩ := hn
        cases hx
      · obtain ⟨x, ⟨name, hx⟩, -⟩ := ha
        cases hx
      · exact absurd hk (not_lt.mpr hlo)
      · obtain ⟨x, ⟨name, hx⟩, -⟩ := hn
        cases hx
      · rw [model_store, Function.update_of_ne hn.ne]
      · rw [model_store, Function.update_of_ne (Nat.lt_of_succ_le hn).ne', hnone]
      · rw [model_store, Function.update_self]
        obtain ⟨_, _, _, _, _, _, _, _, kind⟩ := mdl
        cases kind <;> rfl
      · cases hx
    obtain ⟨h₁, hloop, φ₀, hcloning⟩ := EState.forM_total
      (f := fun x : String × NodeId => (do
        let child ← clone g fuel x.2
        modifyModel child fun child => { child with parent := some h.nextId }
        modifyModel h.nextId fun cpled => cpled.setModelList (cpled.modelList.insert x.1 child) :
          GraphM Unit))
      (I := fun done h₁ => ∃ φ, Cloning φ mdl done g h h₁) (inOrder mdl.modelList)
      (fun done x todo h₁ hall hc => by
        obtain ⟨φ, hc⟩ := hc
        have hmem : (x.1, x.2) ∈ inOrder mdl.modelList := by simp [hall]
        have hx := parent_of_mem hg hmdl hmem
        have := hrank x.2 m hx
        obtain ⟨ψ, h₂, hrun, hψ, hle, hkept, hbeyond⟩ := ih (name?_of_parent? hx) (by omega) h₁
        obtain ⟨φ', h₃, hrun', hc'⟩ := hc.step hg hmdl hall hrun hψ hle hkept hbeyond
        exact ⟨h₃, hrun', φ', hc'⟩) hstart
    classical
    let φ := fun n => if n = m then h.nextId else φ₀ n
    have hφ : ∀ n, g.Under (fun x => ∃ name, (name, x) ∈ inOrder mdl.modelList) n → φ n = φ₀ n := by
      rintro n ⟨x, ⟨name, hx⟩, hb⟩
      refine if_neg ?_
      rintro rfl
      exact hg.forest.not_below (parent_of_mem hg hmdl hx) hb
    have hcloning' := hcloning.rename hg hφ
    have hroot : φ m = h.nextId := if_pos rfl
    obtain ⟨h', hfill, hfilled⟩ := (hcloning'.ready hg hmdl hroot).fills hg h₁ (Rewired.refl h₁)
    refine ⟨φ, h', ?_, hcloning'.filled hg hmdl hroot hfilled⟩
    rw [hroot]
    have hstore : (set h₀ : GraphM PUnit) h = .ok ⟨⟩ h₀ := rfl
    refine (EState.inspect_bind_run (f := fun _ => g.deref m) (deref_eq_ok.mpr hmdl)).trans ?_
    refine (EState.bind_run (EState.get_run h)).trans ?_
    refine (EState.bind_run hstore).trans ?_
    refine (EState.bind_run hloop).trans ?_
    obtain ⟨⟨⟩, h₂, hin, hfill⟩ := EState.bind_eq_ok.mp hfill
    obtain ⟨⟨⟩, h₃, hout, hfill⟩ := EState.bind_eq_ok.mp hfill
    exact (EState.bind_run hin).trans ((EState.bind_run hout).trans (EState.bind_run hfill))

end CoupledModel

end Vle.Vpz
