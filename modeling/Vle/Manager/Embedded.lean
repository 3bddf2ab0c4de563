import Vle.Lib.Except
import Vle.Manager.RunPlan

/-!
# The embedded experiment

`Manager::getEmbedded` gives the model of one simulation of a plan, with its conditions set by
`configEmbedded`. This is a second reading of the values next to that of the workers: it sets the
replicates before the inputs, and leaves a single value out. What it sets is what `post` sets when the
single values are left out (`post_of_embed`), so the two readings can be compared port by port.
-/

namespace Vle.Manager

open Vpz Lib

variable {D : Type}

/-- The text in front of the errors of `configEmbedded`. -/
def embeddedContext : String := "[Manager] error in 'getEmbedded' config : "

/-- The `switch` on the type of the values of a variable: a single value is not set. -/
def embedValue (exp : Value D) (index : ℕ) (m : ManInput D) (conds : Conditions D) :
    Except Fault (Conditions D) :=
  match exp with
  | .set s => do
    let value ← Value.setGet s index >>= Value.deref
    conds.modify m.cond (·.setValueToPort m.port value)
  | .tuple t => do
    let value ← Value.tupleAt t index
    conds.modify m.cond (·.setValueToPort m.port (.double value))
  | _ => .ok conds

/-- One of the two loops of `configEmbedded`, which takes the values of an index. -/
def embed (values : ManInput D → Except Fault (Value D)) (index : ℕ) :
    List (ManInput D) → Conditions D → Except Fault (Conditions D)
  | [], conds => .ok conds
  | m :: vars, conds => do
    discard <| conds.get m.cond
    let exp ← values m
    let conds ← embedValue exp index m conds
    embed values index vars conds

namespace Plan

/-- `configEmbedded`: the conditions of the embedded model for an input and a replicate. -/
def configEmbedded (P : Plan D) (inputIndex replicateIndex : ℕ) : Except Halt (Conditions D) := do
  let o ← P.initFromPlan
  let conds ← postDefine o.mDefine P.conditions
  let conds ← postPropagates o.mPropagate P.init conds
  if P.views.code ≠ 0 then
    throw (.reported P.views)
  if inputIndex ≥ o.inputsSize then
    throw (.reported { code := -1, message := embeddedContext ++ " 'input_index' too big" })
  if replicateIndex ≥ o.replicasSize then
    throw (.reported { code := -1, message := embeddedContext ++ " 'replicate_index' too big" })
  catching embeddedContext do
    let conds ← embed (ManReplicate.values · P.init) replicateIndex o.mReplicates conds
    embed (·.values P.init) inputIndex o.mInputs conds

/-- No input and no replicate is given as a map, which might be a distribution. -/
def NoMap (P : Plan D) : Prop :=
  ∀ e ∈ P.entries, (parseInput e.1).isSome ∨ (parseInput e.1 "replicate_").isSome →
    ∀ m, e.2 ≠ .map m

end Plan

/-- For an input and a replicate, the two readings of a plan give every port the same value. A single
value, which the embedded model does not get, is the one the port holds already, unless a replicate
sets the port in both; many values that share their port with a replicate are the same at the two
indices, since the one is set over the other in one order or in the other. -/
def Agrees {O : Type} (o : ManagerObjects D O) (init : Init D) (model : Conditions D) (i j : ℕ) :
    Prop :=
  ∀ m ∈ o.mInputs, ∀ v, m.values init = .ok v →
    if single v then
      (∃ r ∈ o.mReplicates, r.cond = m.cond ∧ r.port = m.port) ∨
        model.port m.cond m.port = some (some v)
    else
      ∀ r ∈ o.mReplicates, r.cond = m.cond → r.port = m.port →
        ∀ w, ManReplicate.values r init = .ok w → (given v)[i]? = (given w)[j]?

/-! ## What is set -/

section Embed

variable {values : ManInput D → Except Fault (Value D)} {k : ℕ}

/-- A variable of many values. -/
def many (values : ManInput D → Except Fault (Value D)) (m : ManInput D) : Bool :=
  match values m with
  | .ok v => !single v
  | .error _ => false

/-- One variable, then the others: a single value is left out, and one out of many is set. -/
theorem embed_cons {m : ManInput D} {vars : List (ManInput D)} {conds conds' : Conditions D}
    (h : embed values k (m :: vars) conds = .ok conds') : ∃ v conds₁, values m = .ok v ∧
      (single v = true → conds₁ = conds) ∧
      (single v = false → ∃ x c, (given v)[k]? = some (some x) ∧ conds.lookup m.cond = some c ∧
        conds₁ = conds.insert m.cond (c.setValueToPort m.port x)) ∧
      embed values k vars conds₁ = .ok conds' := by
  unfold embed at h
  obtain ⟨-, -, h⟩ := Except.bind_eq_ok.mp h
  obtain ⟨v, hv, h⟩ := Except.bind_eq_ok.mp h
  obtain ⟨conds₁, hset, h⟩ := Except.bind_eq_ok.mp h
  refine ⟨v, conds₁, hv, fun hs => ?_, fun hs => ?_, h⟩
  · cases v <;> first | exact (Except.ok.inj hset).symm | cases hs
  · cases v with
    | set s =>
      obtain ⟨x, hx, hmodify⟩ := Except.bind_eq_ok.mp hset
      obtain ⟨p, hp, hderef⟩ := Except.bind_eq_ok.mp hx
      obtain ⟨c, hc, rfl⟩ := Conditions.modify_eq_ok.mp hmodify
      refine ⟨x, c, ?_, hc, rfl⟩
      rw [given, Value.setGet_eq_ok.mp hp]
      cases p with
      | none => cases hderef
      | some y => rw [Except.ok.inj hderef]
    | tuple t =>
      obtain ⟨d, hd, hmodify⟩ := Except.bind_eq_ok.mp hset
      obtain ⟨c, hc, rfl⟩ := Conditions.modify_eq_ok.mp hmodify
      refine ⟨.double d, c, ?_, hc, rfl⟩
      rw [given, List.getElem?_map, Value.tupleAt_eq_ok.mp hd]
      rfl
    | _ => cases hs

/-- What is set is what a worker sets of the variables of many values. -/
theorem post_of_embed {vars : List (ManInput D)} {conds conds' : Conditions D} (n : ℕ)
    (h : embed values k vars conds = .ok conds') :
    post values n k (vars.filter (many values)) conds = .ok conds' := by
  induction vars generalizing conds with
  | nil =>
    cases h
    rfl
  | cons m vars ih =>
    obtain ⟨v, conds₁, hv, hsingle, hmany, hrest⟩ := embed_cons h
    cases hs : single v with
    | true =>
      rw [List.filter_cons_of_neg (by simp [many, hv, hs]), ← hsingle hs]
      exact ih hrest
    | false =>
      obtain ⟨x, c, hx, hc, rfl⟩ := hmany hs
      rw [List.filter_cons_of_pos (by simp [many, hv, hs])]
      exact post_cons.mpr ⟨v, x, c, hv, (pick_many hs).mpr hx, hc, ih hrest⟩

end Embed

/-- The conditions of the simulation of an input and a replicate. -/
theorem Batch.settings_pair (B : Batch D) {i j : ℕ} (hj : j < B.replicasSize) :
    B.settings (i * B.replicasSize + j) =
      post (·.values B.init) B.inputsSize i B.mInputs B.model >>=
        post (ManReplicate.values · B.init) B.replicasSize j B.mReplicates := by
  rw [settings, mul_comm i, Nat.mul_add_div (by omega), Nat.div_eq_of_lt hj, add_zero,
    Nat.mul_add_mod, Nat.mod_eq_of_lt hj]

namespace Plan

variable {P : Plan D} {i j : ℕ}

/-- What the embedded model of a simulation comes from: the plan is prepared, the indices are below its
sizes, and the replicates are set before the inputs. -/
theorem configEmbedded_eq_ok {emb : Conditions D} (h : P.configEmbedded i j = .ok emb) :
    ∃ o model c, P.prepare = .ok (o, model) ∧ i < o.inputsSize ∧ j < o.replicasSize ∧
      embed (ManReplicate.values · P.init) j o.mReplicates model = .ok c ∧
      embed (·.values P.init) i o.mInputs c = .ok emb := by
  unfold configEmbedded at h
  obtain ⟨o, ho, h⟩ := Except.bind_eq_ok.mp h
  obtain ⟨defined, hdefined, h⟩ := Except.bind_eq_ok.mp h
  obtain ⟨model, hmodel, h⟩ := Except.bind_eq_ok.mp h
  by_cases hviews : P.views.code ≠ 0
  · rw [if_pos hviews] at h
    cases h
  by_cases hi : i ≥ o.inputsSize
  · rw [if_neg hviews, if_pos hi] at h
    cases h
  by_cases hj : j ≥ o.replicasSize
  · rw [if_neg hviews, if_neg hi, if_pos hj] at h
    cases h
  rw [if_neg hviews, if_neg hi, if_neg hj] at h
  obtain ⟨c, hc, h⟩ := Except.bind_eq_ok.mp (catching_eq_ok.mp h)
  refine ⟨o, model, c, ?_, not_le.mp hi, not_le.mp hj, hc, h⟩
  unfold prepare
  rw [ho]
  simp [hviews, hdefined, hmodel]

/-! ## The random numbers -/

/-- The plan, for another state of the generator of random numbers. -/
def withSeed (P : Plan D) (s : P.rand.State) : Plan D := { P with seed := s }

theorem make_seed {rn : Rand D} {cond port : String} {val : Value D} (hval : ∀ m, val ≠ .map m)
    {s s' : rn.State} {m : ManInput D} (t : rn.State)
    (h : ManInput.make rn cond port val s = .ok (m, s')) :
    ManInput.make rn cond port val t = .ok (m, t) := by
  unfold ManInput.make at h ⊢
  split_ifs at h ⊢
  · cases h
  · cases val with
    | map l => exact absurd rfl (hval l)
    | _ => cases h; rfl

theorem makeReplicate_seed {rn : Rand D} {cond port : String} {val : Value D}
    (hval : ∀ m, val ≠ .map m) {s s' : rn.State} {m : ManReplicate D} (t : rn.State)
    (h : ManReplicate.make rn cond port val s = .ok (m, s')) :
    ManReplicate.make rn cond port val t = .ok (m, t) := by
  unfold ManReplicate.make at h ⊢
  simp only at h ⊢
  split_ifs at h ⊢
  · cases h
  · cases val with
    | map l => exact absurd rfl (hval l)
    | tuple l => cases h; rfl
    | set l => cases h; rfl
    | _ => cases h

/-- A turn that draws nothing gives the same objects from every state. -/
theorem addEntry_seed {e : String × Value D}
    (he : (parseInput e.1).isSome ∨ (parseInput e.1 "replicate_").isSome → ∀ m, e.2 ≠ .map m)
    {o o' : ManagerObjects D P.Output} {s s' : P.rand.State} (t : P.rand.State)
    (h : P.addEntry (o, s) e = .ok (o', s')) : ∃ t', P.addEntry (o, t) e = .ok (o', t') := by
  obtain ⟨conf, val⟩ := e
  unfold addEntry at h ⊢
  simp only at h ⊢ he
  cases hdefine : parseInput conf "define_" with
  | some x =>
    simp only [hdefine] at h ⊢
    obtain ⟨d, hd, h⟩ := Except.bind_eq_ok.mp h
    cases h
    exact ⟨t, Except.bind_eq_ok.mpr ⟨d, hd, rfl⟩⟩
  | none =>
    cases hpropagate : parseInput conf "propagate_" with
    | some x =>
      simp only [hdefine, hpropagate] at h ⊢
      obtain ⟨d, hd, h⟩ := Except.bind_eq_ok.mp h
      cases h
      exact ⟨t, Except.bind_eq_ok.mpr ⟨d, hd, rfl⟩⟩
    | none =>
      cases hinput : parseInput conf with
      | some x =>
        simp only [hdefine, hpropagate, hinput] at h ⊢
        obtain ⟨⟨m, s₁⟩, hm, h⟩ := Except.bind_eq_ok.mp h
        cases h
        exact ⟨t, Except.bind_eq_ok.mpr ⟨(m, t), make_seed (he (.inl (by simp [hinput]))) t hm, rfl⟩⟩
      | none =>
        cases hreplicate : parseInput conf "replicate_" with
        | some x =>
          simp only [hdefine, hpropagate, hinput, hreplicate] at h ⊢
          obtain ⟨⟨m, s₁⟩, hm, h⟩ := Except.bind_eq_ok.mp h
          cases h
          exact ⟨t, Except.bind_eq_ok.mpr
            ⟨(m, t), makeReplicate_seed (he (.inr (by simp [hreplicate]))) t hm, rfl⟩⟩
        | none =>
          cases houtput : parseOutput conf with
          | some id =>
            simp only [hdefine, hpropagate, hinput, hreplicate, houtput] at h ⊢
            obtain ⟨d, hd, h⟩ := Except.bind_eq_ok.mp h
            cases h
            exact ⟨t, Except.bind_eq_ok.mpr ⟨d, hd, rfl⟩⟩
          | none =>
            simp only [hdefine, hpropagate, hinput, hreplicate, houtput] at h ⊢
            cases h
            exact ⟨t, rfl⟩

/-- The objects of a plan that draws nothing do not depend on the state of the generator. -/
theorem initFromPlan_seed (hP : P.NoMap) (s : P.rand.State) {o : ManagerObjects D P.Output}
    (h : P.initFromPlan = .ok o) : (P.withSeed s).initFromPlan = .ok o := by
  have hloop : ∀ (entries : List (String × Value D)), entries ⊆ P.entries →
      ∀ (o₀ o₁ : ManagerObjects D P.Output) (s₀ s₁ t : P.rand.State),
      entries.foldlM P.addEntry (o₀, s₀) = .ok (o₁, s₁) →
      ∃ t', entries.foldlM P.addEntry (o₀, t) = .ok (o₁, t') := by
    intro entries
    induction entries with
    | nil =>
      intro _ o₀ o₁ s₀ s₁ t h
      cases h
      exact ⟨t, rfl⟩
    | cons e entries ih =>
      intro hsub o₀ o₁ s₀ s₁ t h
      rw [List.foldlM_cons] at h ⊢
      obtain ⟨⟨o₂, s₂⟩, he, hrest⟩ := Except.bind_eq_ok.mp h
      obtain ⟨t₂, ht₂⟩ := addEntry_seed (hP e (hsub List.mem_cons_self)) t he
      obtain ⟨t', ht'⟩ := ih (List.subset_of_cons_subset hsub) o₂ o₁ s₂ s₁ t₂ hrest
      exact ⟨t', Except.bind_eq_ok.mpr ⟨(o₂, t₂), ht₂, ht'⟩⟩
  unfold initFromPlan at h ⊢
  obtain ⟨⟨o₁, s₁⟩, hfold, h⟩ := Except.bind_eq_ok.mp h
  obtain ⟨t', ht'⟩ := hloop P.entries (List.Subset.refl _) _ o₁ _ s₁ s (catching_eq_ok.mp hfold)
  exact Except.bind_eq_ok.mpr ⟨(o₁, t'), catching_eq_ok.mpr ht', h⟩

theorem prepare_seed (hP : P.NoMap) (s : P.rand.State) {o : ManagerObjects D P.Output}
    {model : Conditions D} (h : P.prepare = .ok (o, model)) :
    (P.withSeed s).prepare = .ok (o, model) := by
  have ho := initFromPlan_seed hP s (prepare_eq_ok h)
  unfold prepare at h ⊢
  rw [prepare_eq_ok h] at h
  rw [ho]
  exact h

/-! ## Port by port -/

/-- Two variables of one port, of which a list has only one, are the same. -/
theorem eq_of_port {vars : List (ManInput D)} (hnodup : (vars.map fun m => (m.cond, m.port)).Nodup)
    {m m' : ManInput D} (hm : m ∈ vars) (hm' : m' ∈ vars) (hcond : m.cond = m'.cond)
    (hport : m.port = m'.port) : m = m' :=
  List.inj_on_of_nodup_map hnodup hm hm' (Prod.ext hcond hport)

section Ports

variable {o : ManagerObjects D P.Output} {model c emb c' conds : Conditions D} {n k : ℕ}

/-- What the loop of the embedded model leaves in the port of a variable of many values. -/
theorem embed_port {values : ManInput D → Except Fault (Value D)} {vars : List (ManInput D)}
    (hnodup : (vars.map fun m => (m.cond, m.port)).Nodup) (h : embed values k vars model = .ok c)
    {m : ManInput D} (hm : m ∈ vars) {v : Value D} (hv : values m = .ok v) (hs : single v = false) :
    ∃ x, (given v)[k]? = some (some x) ∧ c.port m.cond m.port = some (some x) := by
  have hpost := post_of_embed 1 h
  have hmem : m ∈ vars.filter (many values) := List.mem_filter.mpr ⟨hm, by simp [many, hv, hs]⟩
  obtain ⟨-, v', x, hv', hx⟩ := post_settable hpost m hmem
  obtain rfl : v = v' := Except.ok.inj (hv.symm.trans hv')
  exact ⟨x, (pick_many hs).mp hx, post_ok (hnodup.sublist (List.filter_sublist.map _)) hpost hmem hv hx⟩

/-- The ports of single values, and those of no variable, are left as they are. -/
theorem embed_frame {values : ManInput D → Except Fault (Value D)} {vars : List (ManInput D)}
    (h : embed values k vars model = .ok c) {cond port : String}
    (hne : ∀ m ∈ vars, m.cond = cond → m.port = port → ∀ v, values m = .ok v → single v = true) :
    c.port cond port = model.port cond port := by
  refine (post_frame (post_of_embed 1 h)).2 cond port fun m hm heq => ?_
  obtain ⟨hmem, hmany⟩ := List.mem_filter.mp hm
  cases hv : values m with
  | error e => simp [many, hv] at hmany
  | ok v =>
    have hs := hne m hmem heq.1.symm heq.2.symm v hv
    simp [many, hv, hs] at hmany

/-- What a worker leaves in the port of a variable. -/
theorem post_port {values : ManInput D → Except Fault (Value D)} {vars : List (ManInput D)}
    (hnodup : (vars.map fun m => (m.cond, m.port)).Nodup) (h : post values n k vars model = .ok c)
    {m : ManInput D} (hm : m ∈ vars) {v : Value D} (hv : values m = .ok v) :
    ∃ x, pick v n k = .ok x ∧ c.port m.cond m.port = some (some x) := by
  obtain ⟨-, v', x, hv', hx⟩ := post_settable h m hm
  obtain rfl : v = v' := Except.ok.inj (hv.symm.trans hv')
  exact ⟨x, hx, post_ok hnodup h hm hv hx⟩

section Compare

variable {i j N M : ℕ}
  (hinputs : (o.mInputs.map fun m => (m.cond, m.port)).Nodup)
  (hreplicates : (o.mReplicates.map fun m => (m.cond, m.port)).Nodup)
  (hmany : ∀ r ∈ o.mReplicates, ∃ w, ManReplicate.values r P.init = .ok w ∧ single w = false)
  (hc : embed (ManReplicate.values · P.init) j o.mReplicates model = .ok c)
  (hemb : embed (·.values P.init) i o.mInputs c = .ok emb)
  (hc' : post (·.values P.init) N i o.mInputs model = .ok c')
  (hconds : post (ManReplicate.values · P.init) M j o.mReplicates c' = .ok conds)

include hreplicates hmany hc hemb hconds

/-- A port that only a replicate sets has the same value in both. -/
theorem replicate_port_eq {r : ManReplicate D} (hr : r ∈ o.mReplicates)
    (hne : ∀ m ∈ o.mInputs, m.cond = r.cond → m.port ≠ r.port) :
    emb.port r.cond r.port = conds.port r.cond r.port := by
  obtain ⟨w, hw, hs⟩ := hmany r hr
  obtain ⟨x, hx, hcx⟩ := embed_port hreplicates hc hr hw hs
  obtain ⟨y, hy, hcy⟩ := post_port hreplicates hconds hr hw
  rw [embed_frame hemb fun m hm hcond hport => absurd hport (hne m hm hcond), hcx, hcy]
  exact hx.symm.trans ((pick_many hs).mp hy)

include hinputs hc'

/-- The port of an input has the same value in both exactly when the two readings agree on it. -/
theorem input_port_iff {m : ManInput D} (hm : m ∈ o.mInputs) {v : Value D}
    (hv : m.values P.init = .ok v) :
    emb.port m.cond m.port = conds.port m.cond m.port ↔
      if single v then
        (∃ r ∈ o.mReplicates, r.cond = m.cond ∧ r.port = m.port) ∨
          model.port m.cond m.port = some (some v)
      else
        ∀ r ∈ o.mReplicates, r.cond = m.cond → r.port = m.port →
          ∀ w, ManReplicate.values r P.init = .ok w → (given v)[i]? = (given w)[j]? := by
  have hsame : ∀ m' ∈ o.mInputs, m'.cond = m.cond → m'.port = m.port → m' = m := fun m' hm' hcond hport =>
    eq_of_port hinputs hm' hm hcond hport
  by_cases hr : ∃ r ∈ o.mReplicates, r.cond = m.cond ∧ r.port = m.port
  · obtain ⟨r, hr, hcond, hport⟩ := hr
    obtain ⟨w, hw, hws⟩ := hmany r hr
    obtain ⟨x, hx, hcx⟩ := embed_port hreplicates hc hr hw hws
    obtain ⟨y, hy, hcy⟩ := post_port hreplicates hconds hr hw
    rw [hcond, hport] at hcx hcy
    have hxy : x = y := Option.some.inj (Option.some.inj (hx.symm.trans ((pick_many hws).mp hy)))
    cases hs : single v with
    | true =>
      have hport_emb : emb.port m.cond m.port = c.port m.cond m.port := by
        refine embed_frame hemb fun m' hm' hcond' hport' v' hv' => ?_
        obtain rfl := hsame m' hm' hcond' hport'
        rw [← Except.ok.inj (hv.symm.trans hv'), hs]
      rw [hport_emb, hcx, hcy, hxy, if_pos rfl]
      exact iff_of_true rfl (.inl ⟨r, hr, hcond, hport⟩)
    | false =>
      obtain ⟨z, hz, hembz⟩ := embed_port hinputs hemb hm hv hs
      rw [hembz, hcy, ← hxy, if_neg (by decide), hz]
      constructor
      · intro heq r' hr' hcond' hport' w' hw'
        obtain rfl := eq_of_port hreplicates hr' hr (hcond'.trans hcond.symm) (hport'.trans hport.symm)
        rw [← Except.ok.inj (hw.symm.trans hw'), hx]
        exact heq
      · intro hall
        exact (hall r hr hcond hport w hw).trans hx
  · have hne : ∀ r ∈ o.mReplicates, ¬ (m.cond = r.cond ∧ m.port = r.port) := fun r hr' heq =>
      hr ⟨r, hr', heq.1.symm, heq.2.symm⟩
    obtain ⟨y, hy, hcy⟩ := post_port hinputs hc' hm hv
    have hcondsy : conds.port m.cond m.port = some (some y) :=
      ((post_frame hconds).2 _ _ hne).trans hcy
    cases hs : single v with
    | true =>
      have hport_emb : emb.port m.cond m.port = c.port m.cond m.port := by
        refine embed_frame hemb fun m' hm' hcond' hport' v' hv' => ?_
        obtain rfl := hsame m' hm' hcond' hport'
        rw [← Except.ok.inj (hv.symm.trans hv'), hs]
      have hport_c : c.port m.cond m.port = model.port m.cond m.port :=
        embed_frame hc fun r hr' hcond hport => absurd ⟨r, hr', hcond, hport⟩ hr
      have hyv : y = v := by
        rw [pick_single hs] at hy
        split_ifs at hy
        exact (Except.ok.inj hy).symm
      rw [hport_emb, hport_c, hcondsy, hyv, if_pos rfl, or_iff_right hr]
    | false =>
      obtain ⟨z, hz, hembz⟩ := embed_port hinputs hemb hm hv hs
      rw [hembz, hcondsy, if_neg (by decide)]
      refine iff_of_true (hz.symm.trans ((pick_many hs).mp hy)) fun r hr' hcond hport => ?_
      exact absurd ⟨r, hr', hcond, hport⟩ hr

end Compare

end Ports

/-- The embedded model of a simulation, whenever there is one, has the value that the workers set on
every port of the inputs and of the replicates exactly when the two readings of the plan agree. The
state of the generator of random numbers plays no part. -/
theorem configEmbedded_eq_settings_iff (P : Plan D) (hP : P.NoMap) (s : P.rand.State)
    {o : ManagerObjects D P.Output} {model emb conds : Conditions D} {i j : ℕ}
    (hprep : P.prepare = .ok (o, model)) (hemb : (P.withSeed s).configEmbedded i j = .ok emb)
    (hconds : (P.batch o model).settings (i * (P.batch o model).replicasSize + j) = .ok conds) :
    (∀ m ∈ o.mInputs ++ o.mReplicates,
      emb.port m.cond m.port = conds.port m.cond m.port) ↔ Agrees o P.init model i j := by
  obtain ⟨o', model', c, hprep', hi, hj, hc, hemb⟩ := configEmbedded_eq_ok hemb
  obtain ⟨rfl, rfl⟩ : o' = o ∧ model' = model := by
    have := hprep'.symm.trans (prepare_seed hP s hprep)
    exact ⟨congrArg Prod.fst (Except.ok.inj this), congrArg Prod.snd (Except.ok.inj this)⟩
  have hB := batch_wellFormed hprep
  rw [Batch.settings_pair _ hj] at hconds
  obtain ⟨c', hc', hconds⟩ := Except.bind_eq_ok.mp hconds
  have hmany : ∀ r ∈ o'.mReplicates, ∃ w, ManReplicate.values r P.init = .ok w ∧ single w = false := by
    intro r hr
    obtain ⟨w, hw, -, hs⟩ := hB.replicate r hr
    exact ⟨w, hw, hs⟩
  have hinput := fun m hm v hv => input_port_iff hB.inputs_nodup hB.replicates_nodup hmany
    hc hemb hc' hconds (m := m) hm (v := v) hv
  constructor
  · exact fun h m hm v hv => (hinput m hm v hv).mp (h m (List.mem_append_left _ hm))
  · intro h m hm
    have hports : ∀ m ∈ o'.mInputs, emb.port m.cond m.port = conds.port m.cond m.port := by
      intro m hm
      obtain ⟨v, hv, -⟩ := hB.input m hm
      exact (hinput m hm v hv).mpr (h m hm v hv)
    rcases List.mem_append.mp hm with hm | hm
    · exact hports m hm
    · by_cases hne : ∀ m' ∈ o'.mInputs, m'.cond = m.cond → m'.port ≠ m.port
      · exact replicate_port_eq hB.replicates_nodup hmany hc hemb hconds hm hne
      · push Not at hne
        obtain ⟨m', hm', hcond, hport⟩ := hne
        rw [← hcond, ← hport]
        exact hports m' hm'

theorem configEmbedded_eq_settings_tuples :
    let P := plain [("input_c.a", .tuple [1, 2]), ("replicate_c.b", .set [some (.string "s")])] ["c"]
    ∃ o model emb conds, P.prepare = .ok (o, model) ∧ P.configEmbedded 1 0 = .ok emb ∧
      (P.batch o model).settings (1 * (P.batch o model).replicasSize + 0) = .ok conds ∧
      ∀ m ∈ o.mInputs ++ o.mReplicates, emb.port m.cond m.port = conds.port m.cond m.port := by
  intro P
  have hP : P.NoMap := by
    intro e he _ m
    rcases List.mem_pair.mp he with rfl | rfl <;> simp
  refine ⟨_, _, _, _, rfl, rfl, (Batch.settings_pair _ (i := 1) (j := 0) (by decide)).trans rfl,
    (configEmbedded_eq_settings_iff P hP () rfl rfl
      ((Batch.settings_pair _ (i := 1) (j := 0) (by decide)).trans rfl)).mpr fun m hm v hv => ?_⟩
  obtain rfl : m = { cond := "c", port := "a", nbValues := 2 } := List.mem_singleton.mp hm
  obtain rfl : Value.tuple [1, 2] = v := Except.ok.inj hv
  rw [single, if_neg (by decide)]
  intro r hr _ hport
  obtain rfl : r = { cond := "c", port := "b", nbValues := 1 } := List.mem_singleton.mp hr
  exact absurd hport (by decide)

/-- The embedded model does not get the single value of an input. -/
theorem not_configEmbedded_eq_settings : ¬ ∀ (P : Plan ℤ) (o : ManagerObjects ℤ P.Output)
    (model emb conds : Conditions ℤ) (i j : ℕ), P.NoMap → P.prepare = .ok (o, model) →
    P.configEmbedded i j = .ok emb →
    (P.batch o model).settings (i * (P.batch o model).replicasSize + j) = .ok conds →
    ∀ m ∈ o.mInputs ++ o.mReplicates, emb.port m.cond m.port = conds.port m.cond m.port := by
  intro h
  have hport := h (plain [("input_c.a", .double 1)] ["c"]) _ _ _ _ 0 0 (fun e he _ m => by
    rcases List.mem_singleton.mp he with rfl
    simp) rfl rfl rfl { cond := "c", port := "a", nbValues := 1 } List.mem_cons_self
  have hnone : none = some (some (Value.double (1 : ℤ))) := hport
  cases hnone

end Plan

end Vle.Manager
