import Vle.Lib.Kernel
import Vle.Vpz.Runs

/-!
# Routing

What `getAtomicModelsTarget` and `getAtomicModelsSource` compute on a wired graph. They are the same
search on different sides (`expand`), so everything is said once, for the side `o` on which the
search leaves a model: `output` for the targets, `input` for the sources.

The search works on the slots `OnRoute`: the outer slots of the models it climbs, and the inner slots
of the models it goes down. Climbing lowers the depth and going down raises it, which gives the rank
that bounds the search. Its result is counted by three kernels: `climb` any number of times, `across`
once, `descend` any number of times. Since every connection is recorded at both ends, `climb` on one
side is dual to `descend` on the other and `across` to `across`, so the targets and the sources are
dual.
-/

namespace Vle.Vpz

open Vle.Lib Vle.Vpz.Graph

namespace Graph

/-- Whether there is an atomic model here. -/
def atomic? (g : Graph) (n : NodeId) : Bool := ((g.model n).map (·.isAtomic)).getD false

theorem atomic?_of_coupled? {g : Graph} {n : NodeId} (h : g.coupled? n = true) :
    g.atomic? n = false := by
  unfold coupled? at h
  unfold atomic?
  cases hn : g.model n with
  | none => rfl
  | some mdl => simpa [hn, BaseModel.isCoupled] using h

/-- A model that is there and not atomic is coupled. -/
theorem coupled?_of_atomic? {g : Graph} {n : NodeId} {mdl : BaseModel} (hn : g.model n = some mdl)
    (h : g.atomic? n = false) : g.coupled? n = true := by
  unfold atomic? at h
  unfold coupled?
  simpa [hn, BaseModel.isCoupled] using h

/-- A connection path from an input port down to an input port of an atomic model: the positions of
the connections it takes in the internal lists. -/
inductive DownPath (g : Graph) : ModelPort → List ℕ → ModelPort → Prop where
  | arrive {d : NodeId} {q : String} (hd : g.atomic? d = true) : DownPath g (d, q) [] (d, q)
  | enter {d i : ℕ} {q : String} {e r : ModelPort} {is : List ℕ} (hd : g.coupled? d = true)
      (he : (g.entries ⟨d, .internalInput, q⟩)[i]? = some e) (h : DownPath g e is r) :
      DownPath g (d, q) (i :: is) r

/-- A connection path from an output port: up through the output ports of the parents, across to a
sibling, then down. -/
inductive OutPath (g : Graph) : ModelPort → List ℕ → ModelPort → Prop where
  | climb {m c i : ℕ} {p q : String} {r : ModelPort} {is : List ℕ} (hm : g.parent? m = some c)
      (he : (g.entries ⟨m, .output, p⟩)[i]? = some (c, q)) (h : OutPath g (c, q) is r) :
      OutPath g (m, p) (i :: is) r
  | across {m d c i : ℕ} {p q : String} {r : ModelPort} {is : List ℕ} (hm : g.parent? m = some c)
      (hd : g.parent? d = some c) (he : (g.entries ⟨m, .output, p⟩)[i]? = some (d, q))
      (h : DownPath g (d, q) is r) : OutPath g (m, p) (i :: is) r

/-! ## The search -/

/-- One pass of the loops over the list `top` of the model `source`, for the side `o`. -/
def expand (g : Graph) (o : Side) (item : ModelPortList × NodeId) :
    Except Error (List (ModelPort ⊕ (ModelPortList × NodeId))) :=
  item.1.lst.mapM fun (mdl, port) => do
    if (← g.deref mdl).isAtomic then
      pure (.inl (mdl, port))
    else if (← g.deref item.2).parent = some mdl then
      pure (.inr (← g.getPort ⟨mdl, o, port⟩, mdl))
    else
      pure (.inr (← g.getPort ⟨mdl, o.flip.inner, port⟩, mdl))

theorem expandTarget_eq (g : Graph) : g.expandTarget = g.expand .output := rfl

theorem expandSource_eq (g : Graph) : g.expandSource = g.expand .input := rfl

/-- The slots that a search leaving on the side `o` works on. -/
structure OnRoute (g : Graph) (o : Side) (s : Slot) : Prop where
  side : s.side = o ∨ s.side = o.flip.inner
  port : (g.portList? s).isSome

/-- Where an end recorded in the slot `s` leads. -/
def next (g : Graph) (o : Side) (s : Slot) (e : ModelPort) : ModelPort ⊕ Slot :=
  if g.atomic? e.1 then .inl e
  else if g.parent? s.model = some e.1 then .inr ⟨e.1, o, e.2⟩
  else .inr ⟨e.1, o.flip.inner, e.2⟩

end Graph

/-- The sides of a port seen from outside. -/
theorem Side.outer_cases {o : Side} (ho : o.inner ≠ o) : o = .output ∨ o = .input := by
  cases o <;> simp_all [Side.inner]

namespace Graph

section

variable {g : Graph} {o : Side}

/-- The slots at the other end of a connection from a slot on the route. -/
theorem Joined.turn (ho : o.inner ≠ o) {s t : Slot} (hs : s.side = o ∨ s.side = o.flip.inner)
    (h : g.Joined s t) :
    (s.side = o ∧ g.parent? s.model = some t.model ∧ t.side = o.inner) ∨
      (s.side = o ∧ (∃ c, g.parent? s.model = some c ∧ g.parent? t.model = some c) ∧
        t.side = o.flip) ∨
      (s.side = o.flip.inner ∧ g.parent? t.model = some s.model ∧ t.side = o.flip) := by
  rcases Side.outer_cases ho with rfl | rfl <;>
  rcases h with (⟨p, q, hm, hd⟩ | ⟨p, q, hm⟩ | ⟨p, q, hm⟩) |
    (⟨p, q, hm, hd⟩ | ⟨p, q, hm⟩ | ⟨p, q, hm⟩) <;>
  simp_all [Side.inner, Side.flip]

/-- A model that has a port exists. -/
theorem exists_of_port {g : Graph} {s : Slot} (h : (g.portList? s).isSome) :
    ∃ mdl, g.model s.model = some mdl := by
  obtain ⟨l, hl⟩ := Option.isSome_iff_exists.mp h
  obtain ⟨mdl, hmdl, -⟩ := Option.bind_eq_some_iff.mp hl
  exact ⟨mdl, hmdl⟩

/-- An end recorded on the route is at an existing model; when the search goes on from there, the
slot that it goes on with exists, and it is above the model, across from it or below it. -/
theorem Wired.next_spec (h : g.Wired) (ho : o.inner ≠ o) {s : Slot} (hs : g.OnRoute o s)
    {e : ModelPort} (he : e ∈ g.entries s) :
    (∃ mdl, g.model e.1 = some mdl) ∧ ∀ w, g.next o s e = .inr w → g.OnRoute o w ∧
      ((s.side = o ∧ w.side = o ∧ g.parent? s.model = some w.model) ∨
        (s.side = o ∧ w.side = o.flip.inner) ∨
        (s.side = o.flip.inner ∧ w.side = o.flip.inner ∧ g.parent? w.model = some s.model)) := by
  obtain ⟨t, rfl, hst⟩ := h.linked.joined s e he
  have hback := (h.linked.mem_comm hst).mp he
  have hport := port_of_mem hback
  obtain ⟨mdl, hmdl⟩ := exists_of_port hport
  refine ⟨⟨mdl, hmdl⟩, fun w hw => ?_⟩
  have hnext : g.next o s t.entry = if g.atomic? t.model then .inl t.entry
      else if g.parent? s.model = some t.model then .inr ⟨t.model, o, t.port⟩
      else .inr ⟨t.model, o.flip.inner, t.port⟩ := rfl
  have hatomic : g.atomic? t.model = false := by
    by_contra ha
    rw [hnext, if_pos (by simpa using ha)] at hw
    cases hw
  have hcoupled := coupled?_of_atomic? hmdl hatomic
  rw [hnext, if_neg (by simpa using hatomic)] at hw
  -- A port that the other end is on is there from inside too.
  have hinner : t.side = o.flip → g.OnRoute o ⟨t.model, o.flip.inner, t.port⟩ := by
    intro ht
    refine ⟨.inr rfl, h.linked.inner t.model o.flip t.port hcoupled ?_⟩
    rwa [← ht]
  rcases hst.turn ho hs.side with ⟨hside, hp, ht⟩ | ⟨hside, ⟨c, hp, hp'⟩, ht⟩ | ⟨hside, hp, ht⟩
  · rw [if_pos hp] at hw
    cases hw
    refine ⟨⟨.inl rfl, h.linked.outer t.model o t.port ho ?_⟩, .inl ⟨hside, rfl, hp⟩⟩
    rw [← ht]
    exact List.ne_nil_of_mem hback
  · rw [if_neg] at hw
    · cases hw
      exact ⟨hinner ht, .inr (.inl ⟨hside, rfl⟩)⟩
    · intro hp''
      exact h.forest.parent_ne hp' (Option.some.inj (hp''.symm.trans hp))
  · rw [if_neg] at hw
    · cases hw
      exact ⟨hinner ht, .inr (.inr ⟨hside, rfl, hp⟩)⟩
    · intro hp'
      exact h.forest.not_below hp ((Below.refl g t.model).child hp')

/-- The length of a port list is bounded. -/
theorem Forest.length_entries_le (h : g.Forest) (s : Slot) : (g.entries s).length ≤ g.fanOut := by
  cases hl : g.portList? s with
  | none => rw [entries_of_none hl]; exact Nat.zero_le _
  | some l =>
    obtain ⟨mdl, hmdl, hlookup⟩ := Option.bind_eq_some_iff.mp hl
    have hbound : s.model < g.nextId := h.bound s.model (by rw [Graph.name?, hmdl]; rfl)
    rw [entries_of_port hl]
    calc l.lst.length
        ≤ ((mdl.connections s.side).entries.map fun e => e.2.lst.length).sum :=
          List.le_sum_of_mem (List.mem_map.mpr ⟨⟨s.port, l⟩, AList.mem_lookup_iff.mp hlookup, rfl⟩)
      _ ≤ fanOutOf mdl :=
          List.le_sum_of_mem (List.mem_map.mpr ⟨s.side, by cases s.side <;> simp, rfl⟩)
      _ ≤ g.fanOut := List.le_sum_of_mem (List.mem_map.mpr
          ⟨s.model, List.mem_range.mpr hbound, by rw [hmdl]; rfl⟩)

/-- The search as a space of slots, with a rank that the fuel of the search is enough for. -/
theorem Wired.exists_space (h : g.Wired) (ho : o.inner ≠ o) :
    ∃ S : Search.Space Slot ModelPort, (S.items = fun s => (g.entries s).map (g.next o s)) ∧
      S.Valid = g.OnRoute o ∧ ∀ s, S.Valid s → S.cost s < g.searchFuel := by
  obtain ⟨rank, hrank, hbound⟩ := h.forest.exists_rank
  have hlt : ∀ {s}, g.OnRoute o s → rank s.model < g.nextId := by
    intro s hs
    obtain ⟨mdl, hmdl⟩ := exists_of_port hs.port
    exact hbound _ (by rw [Graph.name?, hmdl]; rfl)
  have hne : o.flip.inner ≠ o := by rcases Side.outer_cases ho with rfl | rfl <;> decide
  refine ⟨⟨fun s => (g.entries s).map (g.next o s), g.OnRoute o,
    fun s => if s.side = o then g.nextId + rank s.model else g.nextId - 1 - rank s.model,
    g.fanOut, fun s _ => ?_, fun s w hs hw => ?_⟩, rfl, rfl, fun s hs => ?_⟩
  · rw [List.length_map]
    exact h.forest.length_entries_le s
  · obtain ⟨e, he, hew⟩ := List.mem_map.mp hw
    obtain ⟨hvalid, hturn⟩ := (h.next_spec ho hs he).2 w hew
    refine ⟨hvalid, ?_⟩
    have := hlt hs
    have := hlt hvalid
    rcases hturn with ⟨hs', hw', hp⟩ | ⟨hs', hw'⟩ | ⟨hs', hw', hp⟩
    · have := hrank _ _ hp
      simp only [hs', hw', if_true]
      omega
    · simp only [hs', hw', if_true, if_neg hne]
      omega
    · have := hrank _ _ hp
      simp only [hs', hw', if_neg hne]
      omega
  · have := hlt hs
    refine Nat.lt_succ_of_le (Nat.pow_le_pow_right (Nat.succ_pos _) ?_)
    dsimp only
    split_ifs <;> omega

theorem mapM_ok {α β ε : Type} {f : α → Except ε β} {φ : α → β} (l : List α)
    (h : ∀ a ∈ l, f a = .ok (φ a)) : l.mapM f = .ok (l.map φ) := by
  induction l with
  | nil => rfl
  | cons a l ih =>
    rw [List.mapM_cons, h a List.mem_cons_self, ih fun b hb => h b (List.mem_cons_of_mem a hb)]
    rfl

/-- The stack item for a slot. -/
def stacked (g : Graph) (s : Slot) : ModelPortList × NodeId :=
  ((g.portList? s).getD .empty, s.model)

/-- One pass of the loops on a slot of the route. -/
theorem Wired.expand_eq (h : g.Wired) (ho : o.inner ≠ o) {s : Slot} (hs : g.OnRoute o s) :
    g.expand o (g.stacked s) =
      .ok (((g.entries s).map (g.next o s)).map (Sum.map id g.stacked)) := by
  rw [List.map_map]
  refine mapM_ok _ fun e he => ?_
  obtain ⟨⟨mdl, hmdl⟩, hnext⟩ := h.next_spec ho hs he
  obtain ⟨source, hsource⟩ := exists_of_port hs.port
  have hpush : ∀ w : Slot, (g.portList? w).isSome →
      (do pure (Sum.inr (← g.getPort w, w.model)) :
        Except Error (ModelPort ⊕ (ModelPortList × NodeId))) = .ok (.inr (g.stacked w)) := by
    intro w hw
    obtain ⟨l, hl⟩ := Option.isSome_iff_exists.mp hw
    rw [getPort_eq_ok.mpr hl, stacked, hl]
    rfl
  have hparent : g.parent? s.model = source.parent := by rw [Graph.parent?, hsource]; rfl
  have hatomic : g.atomic? e.1 = mdl.isAtomic := by rw [atomic?, hmdl]; rfl
  change (g.deref e.1 >>= fun mdl => ite (mdl.isAtomic = true) _ (g.deref s.model >>= _)) = _
  rw [deref_eq_ok.mpr hmdl, deref_eq_ok.mpr hsource]
  change ite (mdl.isAtomic = true) _ (ite (source.parent = some e.1) _ _) =
    Except.ok (Sum.map id g.stacked (g.next o s e))
  have hcase : g.next o s e = if mdl.isAtomic then .inl e
      else if source.parent = some e.1 then .inr ⟨e.1, o, e.2⟩
      else .inr ⟨e.1, o.flip.inner, e.2⟩ := by rw [next, hatomic, hparent]
  rw [hcase]
  split_ifs at hcase ⊢ with ha hp
  · rfl
  · exact hpush ⟨e.1, o, e.2⟩ (hnext _ hcase).1.port
  · exact hpush ⟨e.1, o.flip.inner, e.2⟩ (hnext _ hcase).1.port

/-- Adding results to a list, one after the other. -/
theorem foldl_add_perm (found : List ModelPort) (result : ModelPortList) :
    ((found.foldl (fun result e => result.add e.1 e.2) result).lst).Perm (result.lst ++ found) := by
  induction found generalizing result with
  | nil => simp
  | cons e found ih =>
    refine (ih (result.add e.1 e.2)).trans (((result.add_perm e.1 e.2).append_right found).trans ?_)
    exact List.perm_middle.symm

/-! ## Counting the results -/

/-- A list of ends counted as a multiset. -/
theorem count_coe (l : List ModelPort) (e : ModelPort) :
    (l : Multiset ModelPort).count e = l.count e := by
  rw [Multiset.coe_count]
  exact congrArg (fun i => @List.count _ i e l) (lawful_beq_subsingleton _ _)

/-- The steps up: the ends at the parent. -/
def climb (g : Graph) (o : Side) : Kernel ModelPort ModelPort := fun v =>
  (g.entries ⟨v.1, o, v.2⟩ : Multiset ModelPort).filter fun e => g.parent? v.1 = some e.1

/-- The step across: the ends at siblings. -/
def across (g : Graph) (o : Side) : Kernel ModelPort ModelPort := fun v =>
  (g.entries ⟨v.1, o, v.2⟩ : Multiset ModelPort).filter fun e => ¬ g.parent? v.1 = some e.1

/-- The steps down: the ends recorded inside a coupled model. -/
def descend (g : Graph) (o : Side) : Kernel ModelPort ModelPort := fun v =>
  (g.entries ⟨v.1, o.flip.inner, v.2⟩ : Multiset ModelPort)

/-- Everything that a step across leads to, down to the atomic models. -/
def route (g : Graph) (o : Side) : Kernel ModelPort ModelPort :=
  ((Kernel.star (g.climb o) g.nextId).comp (g.across o)).comp (Kernel.star (g.descend o) g.nextId)

/-- The atomic models among the ends. -/
def arrivals (g : Graph) (l : Multiset ModelPort) : Multiset ModelPort :=
  l.filter fun e => g.atomic? e.1 = true

/-- Climbing on one side is going down on the other. -/
theorem Wired.dual_climb (h : g.Wired) (ho : o.inner ≠ o) :
    Kernel.Dual (g.climb o) (g.descend o.flip) := by
  intro v w
  have hflip : o.flip.flip = o := by rcases Side.outer_cases ho with rfl | rfl <;> rfl
  rw [climb, descend, hflip]
  by_cases hp : g.parent? v.1 = some w.1
  · have hj : g.Joined ⟨v.1, o, v.2⟩ ⟨w.1, o.inner, w.2⟩ := by
      rcases Side.outer_cases ho with rfl | rfl
      · exact .inl (.output v.2 w.2 hp)
      · exact .inr (.input w.2 v.2 hp)
    rw [Multiset.count_filter, if_pos hp, count_coe, count_coe]
    exact h.linked.count_comm hj
  · rw [Multiset.count_filter, if_neg hp, count_coe]
    refine (List.count_eq_zero.mpr fun hv => hp ?_).symm
    obtain ⟨t, ht, hj⟩ := h.linked.joined _ _ hv
    have hinner : o.inner.inner = o.inner := by rcases Side.outer_cases ho with rfl | rfl <;> rfl
    have := (hj.symm.of_inner hinner).1
    rwa [← congrArg Prod.fst ht]

/-- Two models with the same parent. -/
def Siblings (g : Graph) (m d : NodeId) : Prop := ∃ c, g.parent? m = some c ∧ g.parent? d = some c

/-- What a step across leads to is at a sibling, and is all that is recorded of this sibling. -/
theorem Wired.count_across (h : g.Wired) (ho : o.inner ≠ o) (v w : ModelPort)
    [Decidable (g.Siblings v.1 w.1)] :
    (g.across o v).count w =
      if g.Siblings v.1 w.1 then (g.entries ⟨v.1, o, v.2⟩).count w else 0 := by
  rw [across, Multiset.count_filter, count_coe]
  by_cases hsib : g.Siblings v.1 w.1
  · obtain ⟨c, hc, hc'⟩ := hsib
    have hp : ¬ g.parent? v.1 = some w.1 := fun hp =>
      h.forest.parent_ne hc' (Option.some.inj (hp.symm.trans hc))
    rw [if_pos hp, if_pos ⟨c, hc, hc'⟩]
  · rw [if_neg hsib]
    refine ite_eq_right_iff.mpr fun hp => List.count_eq_zero.mpr fun hw => ?_
    obtain ⟨t, rfl, hj⟩ := h.linked.joined _ _ hw
    rcases hj.turn ho (.inl rfl) with ⟨-, hp', -⟩ | ⟨-, hsib', -⟩ | ⟨hside, -, -⟩
    · exact hp hp'
    · exact hsib hsib'
    · rcases Side.outer_cases ho with rfl | rfl <;> cases hside

/-- Going across is the same from both sides. -/
theorem Wired.dual_across (h : g.Wired) (ho : o.inner ≠ o) :
    Kernel.Dual (g.across o) (g.across o.flip) := by
  classical
  intro v w
  have ho' : o.flip.inner ≠ o.flip := by rcases Side.outer_cases ho with rfl | rfl <;> decide
  have hcomm : g.Siblings v.1 w.1 ↔ g.Siblings w.1 v.1 :=
    ⟨fun ⟨c, hv, hw⟩ => ⟨c, hw, hv⟩, fun ⟨c, hw, hv⟩ => ⟨c, hv, hw⟩⟩
  rw [h.count_across ho, h.count_across ho']
  refine if_ctx_congr hcomm (fun hsib => ?_) fun _ => rfl
  obtain ⟨c, hw, hv⟩ := hsib
  have hj : g.Joined ⟨v.1, o, v.2⟩ ⟨w.1, o.flip, w.2⟩ := by
    rcases Side.outer_cases ho with rfl | rfl
    · exact .inl (.internal v.2 w.2 hv hw)
    · exact .inr (.internal w.2 v.2 hw hv)
  exact h.linked.count_comm hj

/-- The routes of the two sides are dual. -/
theorem Wired.dual_route (h : g.Wired) (ho : o.inner ≠ o) :
    Kernel.Dual (g.route o) (g.route o.flip) := by
  have ho' : o.flip.inner ≠ o.flip := by rcases Side.outer_cases ho with rfl | rfl <;> decide
  have hflip : o.flip.flip = o := by rcases Side.outer_cases ho with rfl | rfl <;> rfl
  have hdown : Kernel.Dual (g.descend o) (g.climb o.flip) := by
    have := h.dual_climb ho'
    rw [hflip] at this
    exact fun v w => (this w v).symm
  have hup := (h.dual_climb ho).star g.nextId
  intro v w
  rw [route, (hup.comp (h.dual_across ho)).comp (hdown.star g.nextId) v w, route, Kernel.comp_assoc]

/-- What a slot's list says of the routes from it: a slot of the side `o` is left by climbing or
across, another by going down. -/
def routes (g : Graph) (o : Side) (s : Slot) : Multiset ModelPort :=
  if s.side = o then g.route o (s.model, s.port)
  else (g.descend o (s.model, s.port)).bind (Kernel.star (g.descend o) g.nextId)

/-- Going down raises the depth, climbing lowers it. -/
theorem Wired.exists_ranks (h : g.Wired) (ho : o.inner ≠ o) : ∃ down up : ModelPort → ℕ,
    (∀ v, ∀ w ∈ g.descend o v, down w < down v) ∧ (∀ v, ∀ w ∈ g.climb o v, up w < up v) ∧
      ∀ v, down v ≤ g.nextId ∧ up v ≤ g.nextId := by
  obtain ⟨rank, hrank, hbound⟩ := h.forest.exists_rank
  refine ⟨fun v => g.nextId - rank v.1, fun v => min (rank v.1) g.nextId, fun v w hw => ?_,
    fun v w hw => ?_, fun v => ⟨Nat.sub_le _ _, Nat.min_le_right _ _⟩⟩
  · obtain ⟨t, rfl, hj⟩ := h.linked.joined _ _ (Multiset.mem_coe.mp hw)
    have hinner : o.flip.inner.inner = o.flip.inner := by
      rcases Side.outer_cases ho with rfl | rfl <;> rfl
    have hp := (hj.symm.of_inner hinner).1
    have := hrank _ _ hp
    have := hbound t.model (name?_of_parent? hp)
    dsimp only [Slot.entry] at *
    omega
  · have hp := (Multiset.mem_filter.mp hw).2
    have := hrank _ _ hp
    have := hbound v.1 (name?_of_parent? hp)
    dsimp only
    omega

/-- The routes go down to an end, and go on from there. -/
theorem Wired.star_descend (h : g.Wired) (ho : o.inner ≠ o) (v : ModelPort) :
    Kernel.star (g.descend o) g.nextId v =
      {v} + (g.descend o v).bind (Kernel.star (g.descend o) g.nextId) := by
  obtain ⟨down, up, hdown, -, hbound⟩ := h.exists_ranks ho
  exact Kernel.star_unfold hdown (hbound v).1

/-- The routes take an end: they climb to the parent and go on from there, or go across to a sibling
and then down. -/
theorem Wired.route_eq (h : g.Wired) (ho : o.inner ≠ o) (v : ModelPort) : g.route o v =
    (g.entries ⟨v.1, o, v.2⟩ : Multiset ModelPort).bind fun e =>
      if g.parent? v.1 = some e.1 then g.route o e
      else Kernel.star (g.descend o) g.nextId e := by
  obtain ⟨down, up, -, hup, hbound⟩ := h.exists_ranks ho
  have hstep : g.route o v = (g.across o v).bind (Kernel.star (g.descend o) g.nextId) +
      (g.climb o v).bind (g.route o) := by
    rw [route, Kernel.comp, Kernel.comp, Kernel.star_unfold hup (hbound v).2, Multiset.add_bind,
      Multiset.singleton_bind, Multiset.add_bind, Multiset.bind_assoc, Multiset.bind_assoc]
    refine congrArg _ (Multiset.bind_congr fun w _ => ?_)
    rw [← Multiset.bind_assoc]
    rfl
  rw [hstep, ← Multiset.filter_add_not (fun e : ModelPort => g.parent? v.1 = some e.1)
    (g.entries ⟨v.1, o, v.2⟩ : Multiset ModelPort), Multiset.add_bind, add_comm]
  refine congrArg₂ _ (Multiset.bind_congr fun e he => ?_) (Multiset.bind_congr fun e he => ?_)
  · rw [if_pos (Multiset.mem_filter.mp he).2]
  · rw [if_neg (Multiset.mem_filter.mp he).2]

/-- An atomic model has nothing inside. -/
theorem entries_of_atomic {d : NodeId} (hd : g.atomic? d = true) {side : Side}
    (hside : side.inner = side) (q : String) : g.entries ⟨d, side, q⟩ = [] := by
  refine List.eq_nil_iff_forall_not_mem.mpr fun e he => ?_
  obtain ⟨l, hl⟩ := Option.isSome_iff_exists.mp (port_of_mem he)
  obtain ⟨mdl, hmdl, hlookup⟩ := Option.bind_eq_some_iff.mp hl
  have hc := BaseModel.hasSide_of_lookup hlookup hside
  have : g.coupled? d = true := by rw [coupled?, hmdl]; exact hc
  rw [atomic?_of_coupled? this] at hd
  cases hd

/-- The leaves of the search from a slot are the atomic models that the routes arrive at. -/
theorem Wired.leaves_eq (h : g.Wired) (ho : o.inner ≠ o) {S : Search.Space Slot ModelPort}
    (hitems : S.items = fun s => (g.entries s).map (g.next o s)) (hvalid : S.Valid = g.OnRoute o)
    {s : Slot} (hs : g.OnRoute o s) :
    (S.leaves s : Multiset ModelPort) = g.arrivals (g.routes o s) := by
  induction hn : S.rank s using Nat.strong_induction_on generalizing s with
  | _ n ih =>
    have hne : o.flip.inner ≠ o := by rcases Side.outer_cases ho with rfl | rfl <;> decide
    rw [S.leaves_eq (hvalid ▸ hs), hitems, List.flatMap_map, ← Multiset.coe_bind]
    have hgo : ∀ e ∈ g.entries s, ∀ w, g.next o s e = .inr w →
        (S.leaves w : Multiset ModelPort) = g.arrivals (g.routes o w) := by
      intro e he w hw
      have hmem : Sum.inr w ∈ S.items s := by rw [hitems, ← hw]; exact List.mem_map_of_mem he
      obtain ⟨hwvalid, hlt⟩ := S.descends s w (hvalid ▸ hs) hmem
      exact ih _ (hn ▸ hlt) (hvalid ▸ hwvalid) rfl
    -- An end that is not at the parent goes on down.
    have hdown : ∀ e ∈ g.entries s, ¬ (s.side = o ∧ g.parent? s.model = some e.1) →
        ((Sum.elim (fun r => [r]) S.leaves (g.next o s e) : List ModelPort) :
          Multiset ModelPort) = g.arrivals (Kernel.star (g.descend o) g.nextId e) := by
      intro e he hp
      have hinner : o.flip.inner.inner = o.flip.inner := by
        rcases Side.outer_cases ho with rfl | rfl <;> rfl
      rw [h.star_descend ho, arrivals, Multiset.filter_add, Multiset.filter_singleton]
      cases ha : g.atomic? e.1 with
      | true =>
        have hnone : g.descend o e = 0 := by
          rw [descend, entries_of_atomic ha hinner]
          rfl
        rw [next, if_pos ha, hnone]
        simp
      | false =>
        have hparent : ¬ g.parent? s.model = some e.1 := by
          intro hp'
          have hw : g.next o s e = .inr ⟨e.1, o, e.2⟩ := by
            rw [next, if_neg (by simp [ha]), if_pos hp']
          rcases ((h.next_spec ho hs he).2 _ hw).2 with ⟨hside, -⟩ | ⟨hside, -⟩ | ⟨-, hside, -⟩
          · exact hp ⟨hside, hp'⟩
          · exact hp ⟨hside, hp'⟩
          · exact hne hside.symm
        have hw : g.next o s e = .inr ⟨e.1, o.flip.inner, e.2⟩ := by
          rw [next, if_neg (by simp [ha]), if_neg hparent]
        rw [hw]
        refine (hgo e he _ hw).trans ?_
        rw [routes, if_neg hne, arrivals]
        simp
    rw [routes]
    split_ifs with hside
    · have hup : ∀ e ∈ g.entries s, g.parent? s.model = some e.1 →
          ((Sum.elim (fun r => [r]) S.leaves (g.next o s e) : List ModelPort) :
            Multiset ModelPort) = g.arrivals (g.route o e) := by
        intro e he hp
        have hc := h.forest.above _ _ hp
        have hw : g.next o s e = .inr ⟨e.1, o, e.2⟩ := by
          rw [next, if_neg (by simp [atomic?_of_coupled? hc]), if_pos hp]
        rw [hw]
        refine (hgo e he _ hw).trans ?_
        rw [routes, if_pos rfl]
      obtain ⟨m, side, p⟩ := s
      obtain rfl : side = o := hside
      rw [h.route_eq ho, arrivals, Multiset.filter_bind]
      refine Multiset.bind_congr fun e he => ?_
      have he' := Multiset.mem_coe.mp he
      split_ifs with hp
      · exact hup e he' hp
      · exact hdown e he' fun h => hp h.2
    · rw [arrivals, Multiset.filter_bind]
      have hside' : s.side = o.flip.inner := hs.side.resolve_left hside
      obtain ⟨m, side, p⟩ := s
      obtain rfl : side = o.flip.inner := hside'
      exact Multiset.bind_congr fun e he => hdown e (Multiset.mem_coe.mp he) fun h => hside h.1

/-- The search ends, without exception, and finds what the routes arrive at. -/
theorem Wired.search (h : g.Wired) (ho : o.inner ≠ o) {m : NodeId} {p : String} {l : ModelPortList}
    (hl : g.portList? ⟨m, o, p⟩ = some l) :
    ∃ found, Search.run (g.expand o) .outOfFuel g.searchFuel [(l, m)] [] = .ok found ∧
      (found : Multiset ModelPort) = g.arrivals (g.route o (m, p)) := by
  obtain ⟨S, hitems, hvalid, hcost⟩ := h.exists_space ho
  have hs : g.OnRoute o ⟨m, o, p⟩ := ⟨.inl rfl, by rw [hl]; rfl⟩
  obtain ⟨found, hrun, hperm⟩ := S.run_spec g.stacked
    (fun s hs' => by rw [hitems]; exact h.expand_eq ho (hvalid ▸ hs')) Error.outOfFuel g.searchFuel
    [⟨m, o, p⟩] [] (by simpa [hvalid] using hs) (by simpa using hcost _ (hvalid ▸ hs))
  refine ⟨found, ?_, ?_⟩
  · rw [← hrun, List.map_singleton, stacked, hl]
    rfl
  · rw [← Multiset.coe_eq_coe.mpr hperm.symm, List.flatMap_singleton, List.nil_append,
      h.leaves_eq ho hitems hvalid hs, routes, if_pos rfl]

/-! ## Counting the paths -/

/-- A way down arrives once for each path. -/
theorem Wired.encard_downPath (h : g.Wired) (v r : ModelPort) :
    {is | g.DownPath v is r}.encard =
      (g.arrivals (Kernel.star (g.descend .output) g.nextId v)).count r := by
  obtain ⟨down, up, hdown, -, -⟩ := h.exists_ranks (o := .output) (by decide)
  induction hn : down v using Nat.strong_induction_on generalizing v with
  | _ n ih =>
    obtain ⟨d, q⟩ := v
    rw [h.star_descend (by decide), arrivals, Multiset.filter_add, Multiset.filter_singleton]
    cases ha : g.atomic? d with
    | true =>
      have hnone : g.descend .output (d, q) = 0 := by
        rw [descend, entries_of_atomic ha rfl]
        rfl
      have hset : {is | g.DownPath (d, q) is r} = if r = (d, q) then {[]} else ∅ := by
        ext is
        constructor
        · rintro (hd | ⟨hd, -, -⟩)
          · simp
          · rw [atomic?_of_coupled? hd] at ha
            cases ha
        · intro his
          split_ifs at his with hr
          · obtain rfl := Set.mem_singleton_iff.mp his
            subst hr
            exact .arrive ha
          · cases his
      rw [hset, hnone, if_pos rfl]
      split_ifs with hr
      · simp [hr]
      · simp [hr]
    | false =>
      have hset : {is | g.DownPath (d, q) is r} = {is | ∃ i is' e, is = i :: is' ∧
          (g.entries ⟨d, .internalInput, q⟩)[i]? = some e ∧ g.DownPath e is' r} := by
        ext is
        constructor
        · rintro (hd | ⟨-, he, hpath⟩)
          · rw [ha] at hd
            cases hd
          · exact ⟨_, _, _, rfl, he, hpath⟩
        · rintro ⟨i, is', e, rfl, he, hpath⟩
          obtain ⟨mdl, hmdl⟩ := exists_of_port (port_of_mem (List.mem_of_getElem? he))
          exact .enter (coupled?_of_atomic? hmdl ha) he hpath
      rw [hset, encard_positions, if_neg (by simp), Multiset.empty_eq_zero, zero_add,
        Multiset.filter_bind]
      refine (congrArg List.sum (List.map_congr_left fun e he => ?_)).trans
        (Kernel.count_coe_bind (g.entries ⟨d, .internalInput, q⟩) _ r).symm
      exact ih _ (hn ▸ hdown _ e (Multiset.mem_coe.mpr he)) e rfl

/-- The search from an output port arrives once for each path. -/
theorem Wired.encard_outPath (h : g.Wired) (v r : ModelPort) :
    {is | g.OutPath v is r}.encard = (g.arrivals (g.route .output v)).count r := by
  obtain ⟨down, up, -, hup, -⟩ := h.exists_ranks (o := .output) (by decide)
  induction hn : up v using Nat.strong_induction_on generalizing v with
  | _ n ih =>
    obtain ⟨m, p⟩ := v
    have hset : {is | g.OutPath (m, p) is r} = {is | ∃ i is' e, is = i :: is' ∧
        (g.entries ⟨m, .output, p⟩)[i]? = some e ∧ if g.parent? m = some e.1 then
          g.OutPath e is' r else g.DownPath e is' r} := by
      ext is
      constructor
      · rintro (⟨hm, he, hpath⟩ | ⟨hm, hd, he, hpath⟩)
        · exact ⟨_, _, _, rfl, he, by rwa [if_pos hm]⟩
        · refine ⟨_, _, _, rfl, he, ?_⟩
          rwa [if_neg fun hm' => h.forest.parent_ne hd (Option.some.inj (hm'.symm.trans hm))]
      · rintro ⟨i, is', e, rfl, he, hpath⟩
        obtain ⟨t, rfl, hj⟩ := h.linked.joined _ _ (List.mem_of_getElem? he)
        rcases hj.turn (o := .output) (by decide) (.inl rfl) with
          ⟨-, hp, -⟩ | ⟨-, ⟨c, hc, hc'⟩, -⟩ | ⟨hside, -, -⟩
        · exact .climb hp he (by rwa [if_pos (by exact hp)] at hpath)
        · refine .across hc hc' he ?_
          rwa [if_neg fun hp => h.forest.parent_ne hc' (Option.some.inj (hp.symm.trans hc))] at hpath
        · cases hside
    rw [hset, encard_positions, h.route_eq (by decide), arrivals, Multiset.filter_bind,
      Kernel.count_coe_bind]
    refine congrArg List.sum (List.map_congr_left fun e he => ?_)
    split_ifs with hp
    · exact ih _ (hn ▸ hup _ e (Multiset.mem_filter.mpr ⟨Multiset.mem_coe.mpr he, hp⟩)) e rfl
    · exact h.encard_downPath e r

end

/-! ## The targets and the sources -/

/-- The results of a search are added to those that there are. -/
theorem count_search {found : List ModelPort} {l : Multiset ModelPort}
    (hfound : (found : Multiset ModelPort) = l) (result : ModelPortList) (e : ModelPort) :
    ((found.foldl (fun result e => result.add e.1 e.2) result).lst).count e =
      result.lst.count e + l.count e := by
  rw [(foldl_add_perm found result).count_eq, List.count_append, ← hfound, count_coe]

theorem Wired.getAtomicModelsTarget {g : Graph} (h : g.Wired) {m : NodeId} {p : String}
    (hp : (g.portList? ⟨m, .output, p⟩).isSome) (result : ModelPortList) :
    ∃ result', g.getAtomicModelsTarget m p result = .ok result' ∧ ∀ e, result'.lst.count e =
      result.lst.count e + (g.arrivals (g.route .output (m, p))).count e := by
  obtain ⟨l, hl⟩ := Option.isSome_iff_exists.mp hp
  obtain ⟨found, hrun, hfound⟩ := h.search (o := .output) (by decide) hl
  refine ⟨_, ?_, count_search hfound result⟩
  unfold Graph.getAtomicModelsTarget getOutPort
  rw [getPort_eq_ok.mpr hl, expandTarget_eq]
  change (Search.run _ _ _ [(l, m)] [] >>= _) = _
  rw [hrun]
  rfl

theorem Wired.getAtomicModelsSource {g : Graph} (h : g.Wired) {m : NodeId} {p : String}
    (hp : (g.portList? ⟨m, .input, p⟩).isSome) (result : ModelPortList) :
    ∃ result', g.getAtomicModelsSource m p result = .ok result' ∧ ∀ e, result'.lst.count e =
      result.lst.count e + (g.arrivals (g.route .input (m, p))).count e := by
  obtain ⟨l, hl⟩ := Option.isSome_iff_exists.mp hp
  obtain ⟨found, hrun, hfound⟩ := h.search (o := .input) (by decide) hl
  refine ⟨_, ?_, count_search hfound result⟩
  unfold Graph.getAtomicModelsSource getInPort
  rw [getPort_eq_ok.mpr hl, expandSource_eq]
  change (Search.run _ _ _ [(l, m)] [] >>= _) = _
  rw [hrun]
  rfl

/-- Between atomic models, the arrivals are the same from both ends. -/
theorem Wired.count_arrivals_comm {g : Graph} (h : g.Wired) {v w : ModelPort}
    (hv : g.atomic? v.1 = true) (hw : g.atomic? w.1 = true) :
    (g.arrivals (g.route .output v)).count w = (g.arrivals (g.route .input w)).count v := by
  rw [arrivals, arrivals, Multiset.count_filter, Multiset.count_filter, if_pos hv, if_pos hw]
  exact h.dual_route (o := .output) (by decide) v w

end Graph

/-- On a wired graph the searches end, the targets of an output port are the ends of the connection
paths from it, the sources of an input port the atomic origins of the paths to it, each once for each
path, and targets and sources are dual. -/
theorem routing_exact {g : Graph} (h : g.Wired) :
    (∀ a p, g.atomic? a = true → (g.portList? ⟨a, .output, p⟩).isSome → ∀ result,
      ∃ targets, g.getAtomicModelsTarget a p result = .ok targets ∧
        ∀ e, (targets.lst.count e : ℕ∞) =
          result.lst.count e + {is | g.OutPath (a, p) is e}.encard) ∧
    (∀ b q, g.atomic? b = true → (g.portList? ⟨b, .input, q⟩).isSome → ∀ result,
      ∃ sources, g.getAtomicModelsSource b q result = .ok sources ∧
        ∀ e, (sources.lst.count e : ℕ∞) = result.lst.count e +
          if g.atomic? e.1 = true then {is | g.OutPath e is (b, q)}.encard else 0) ∧
    (∀ a p b q targets sources, g.atomic? a = true → g.atomic? b = true →
      g.getAtomicModelsTarget a p .empty = .ok targets →
      g.getAtomicModelsSource b q .empty = .ok sources →
      targets.lst.count (b, q) = sources.lst.count (a, p)) := by
  refine ⟨fun a p ha hp result => ?_, fun b q hb hq result => ?_, ?_⟩
  · obtain ⟨targets, hrun, hcount⟩ := h.getAtomicModelsTarget hp result
    refine ⟨targets, hrun, fun e => ?_⟩
    rw [hcount, h.encard_outPath, Nat.cast_add]
  · obtain ⟨sources, hrun, hcount⟩ := h.getAtomicModelsSource hq result
    refine ⟨sources, hrun, fun e => ?_⟩
    rw [hcount, Nat.cast_add]
    split_ifs with he
    · rw [h.encard_outPath, h.count_arrivals_comm he hb]
    · rw [arrivals, Multiset.count_filter, if_neg he]
      rfl
  · intro a p b q targets sources ha hb ht hs
    have hport : ∀ {s : Slot} {k : ModelPortList → Except Error ModelPortList} {r : ModelPortList},
        (g.getPort s >>= k) = .ok r → (g.portList? s).isSome := by
      intro s k r hr
      cases hl : g.getPort s with
      | error e => rw [hl] at hr; cases hr
      | ok l => rw [getPort_eq_ok.mp hl]; rfl
    obtain ⟨targets', ht', htargets⟩ := h.getAtomicModelsTarget (hport ht) .empty
    obtain ⟨sources', hs', hsources⟩ := h.getAtomicModelsSource (hport hs) .empty
    obtain rfl := Except.ok.inj (ht.symm.trans ht')
    obtain rfl := Except.ok.inj (hs.symm.trans hs')
    rw [htargets, hsources, h.count_arrivals_comm ha hb]
    rfl

/-- Two atomic models with a connection recorded twice: there are two paths. -/
theorem routing_exact_parallel : ∃ g : Graph, {is | g.OutPath (1, "o") is (2, "i")}.encard = 2 := by
  have h₁ := Reachable.step .start
    (⟨⟨by decide, trivial⟩, trivial⟩ : Op.Proper .empty (.newCoupledModel "top")) rfl
  have h₂ := h₁.step (⟨⟨by decide, trivial⟩, trivial⟩ : Op.Proper _ (.addAtomicModel 0 "a")) rfl
  have h₃ := h₂.step (⟨⟨by decide, trivial⟩, trivial⟩ : Op.Proper _ (.addAtomicModel 0 "b")) rfl
  have h₄ := h₃.step (⟨⟨by decide, trivial⟩, trivial⟩ : Op.Proper _ (.addOutputPort 1 "o")) rfl
  have h₅ := h₄.step (⟨⟨by decide, trivial⟩, trivial⟩ : Op.Proper _ (.addInputPort 2 "i")) rfl
  have h₆ := h₅.step (⟨⟨by decide, trivial⟩, trivial⟩ :
    Op.Proper _ (.addInternalConnection 0 "a" "o" "b" "i")) rfl
  have h₇ := h₆.step (⟨⟨by decide, trivial⟩, trivial⟩ :
    Op.Proper _ (.addInternalConnection 0 "a" "o" "b" "i")) rfl
  obtain ⟨g, hg, hatomic, hport, htargets⟩ : ∃ g : Graph, g.Wired ∧ g.atomic? 1 = true ∧
      (g.portList? ⟨1, .output, "o"⟩).isSome ∧
      (g.getAtomicModelsTarget 1 "o" .empty).toOption.map (·.lst.count (2, "i")) = some 2 :=
    ⟨_, h₇.consistent.toWired, by decide, by decide, by decide⟩
  obtain ⟨targets, hrun, hcount⟩ := (routing_exact hg).1 1 "o" hatomic hport .empty
  rw [hrun] at htargets
  have htwo : targets.lst.count (2, "i") = 2 := Option.some.inj htargets
  refine ⟨g, ?_⟩
  have := hcount (2, "i")
  rw [htwo] at this
  simpa [ModelPortList.empty] using this.symm

end Vle.Vpz
