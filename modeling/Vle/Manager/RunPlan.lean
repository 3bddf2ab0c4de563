import Vle.Manager.Completeness

/-!
# What `runPlan` simulates

A plan that has been prepared is well formed (`Plan.batch_wellFormed`): the variables that
`init_from_plan` builds are found again under the keys that they come from. With
`Batch.completes_iff_consistent` this says for which plans `runPlan` does what it should (`Plan.completes_iff`).
-/

namespace Vle.Manager

open Vpz

variable {D : Type}

/-! ## Keys -/

/-- The two tokens of a text with one point. -/
theorem tokenize_pair {str cond port : String} (h : tokenize str "." false = [cond, port]) :
    str = getName cond port := by
  have hsplit : tokenize str "." false = (str.toList.splitOn '.').map String.ofList := by
    have hdot : (fun c : Char => decide (c ∈ ['.'])) = (· == '.') := by
      funext c
      simp [beq_eq_decide]
    have hfilter : (fun tok : String => !(false && tok.isEmpty)) = fun _ => true := by
      funext tok
      simp
    rw [tokenize, hfilter, List.filter_true, List.splitOn, ← hdot]
    rfl
  rw [hsplit] at h
  obtain ⟨a, l, hl, rfl, htail⟩ := List.map_eq_cons_iff.mp h
  obtain ⟨b, l', rfl, rfl, hnil⟩ := List.map_eq_cons_iff.mp htail
  rw [List.map_eq_nil_iff] at hnil
  subst hnil
  have hjoin : ['.'].intercalate (str.toList.splitOn '.') = str.toList :=
    List.intercalate_splitOn '.'
  rw [hl] at hjoin
  apply String.ext
  rw [← hjoin]
  simp [getName, List.intercalate, List.intersperse]

/-- A key that is parsed is the word before it and the name of the variable. -/
theorem parseInput_eq_some {conf before cond port : String}
    (h : parseInput conf before = some (cond, port)) : conf = before ++ getName cond port := by
  unfold parseInput at h
  split_ifs at h with hpre
  obtain ⟨rest, hrest⟩ := List.isPrefixOf_iff_prefix.mp hpre
  rw [← hrest, List.drop_left] at h
  split at h
  · rename_i c p htok
    split_ifs at h
    cases h
    rw [← tokenize_pair htok]
    apply String.ext
    rw [← hrest, String.toList_append, String.toList_ofList]
  · cases h

/-! ## Variables -/

/-- A variable has the size of the values that it was made from. -/
def Made (m : ManInput D) (val : Value D) : Prop :=
  match m.mvalues with
  | some t => m.nbValues = t.length % 2 ^ 32
  | none => m.nbValues = (given val).length % 2 ^ 32

/-- An input keeps its condition and its port, and the size of its values. -/
theorem ManInput.make_eq_ok {rn : Rand D} {cond port : String} {val : Value D} {s s' : rn.State}
    {m : ManInput D} (h : ManInput.make rn cond port val s = .ok (m, s')) :
    m.cond = cond ∧ m.port = port ∧ Made m val := by
  unfold ManInput.make at h
  split_ifs at h
  · cases h
  · cases val with
    | map l =>
      simp only [bind, Except.bind, pure, Except.pure] at h
      cases hd : valuesFromDistrib rn l s with
      | error e => rw [hd] at h; cases h
      | ok r =>
        obtain ⟨t, s₁⟩ := r
        rw [hd] at h
        cases t <;> cases h <;> exact ⟨rfl, rfl, rfl⟩
    | tuple t =>
      cases h
      exact ⟨rfl, rfl, by simp [Made, given, toUnsigned]⟩
    | _ => cases h; exact ⟨rfl, rfl, rfl⟩

/-- A replicate keeps them too, and is no single value. -/
theorem ManReplicate.make_eq_ok {rn : Rand D} {cond port : String} {val : Value D} {s s' : rn.State}
    {m : ManReplicate D} (h : ManReplicate.make rn cond port val s = .ok (m, s')) :
    m.cond = cond ∧ m.port = port ∧ Made m val ∧ (m.mvalues = none → single val = false) := by
  unfold ManReplicate.make at h
  simp only at h
  split_ifs at h
  · cases h
  · cases val with
    | map l =>
      simp only [bind, Except.bind, pure, Except.pure] at h
      cases hd : valuesFromDistrib rn l s with
      | error e => rw [hd] at h; cases h
      | ok r =>
        obtain ⟨t, s₁⟩ := r
        rw [hd] at h
        cases t <;> cases h
        exact ⟨rfl, rfl, rfl, fun h => by cases h⟩
    | tuple t =>
      cases h
      exact ⟨rfl, rfl, by simp [Made, given, toUnsigned], fun _ => rfl⟩
    | set t => cases h; exact ⟨rfl, rfl, rfl, fun _ => rfl⟩
    | _ => cases h

/-- The values of a variable that was made from the value under its key. -/
theorem Made.values {init : Init D} {before : String} {m : ManInput D} {val : Value D}
    (h : Made m val) (hval : init.lookup (before ++ getName m.cond m.port) = some val) :
    ∃ v, valuesAt before m init = .ok v ∧ m.nbValues = (given v).length % 2 ^ 32 ∧
      (m.mvalues = none → v = val) ∧ (∀ t, m.mvalues = some t → v = .tuple t) := by
  unfold Made at h
  unfold valuesAt Init.get
  cases ht : m.mvalues with
  | some t =>
    rw [ht] at h
    refine ⟨.tuple t, rfl, by rw [h]; simp [given], fun h => (by cases h), fun t' h => ?_⟩
    cases h
    rfl
  | none =>
    rw [ht] at h
    exact ⟨val, by rw [hval], h, fun _ => rfl, fun t h => (by cases h)⟩

namespace Plan

variable {P : Plan D}

/-- The objects built from some entries: the inputs and the replicates come from their keys, in the
order of the entries. -/
structure Built (entries : List (String × Value D)) (o : ManagerObjects D P.Output) : Prop where
  inputs : (o.mInputs.map fun m => "input_" ++ getName m.cond m.port).Sublist (entries.map (·.1))
  replicates : (o.mReplicates.map fun m => "replicate_" ++ getName m.cond m.port).Sublist
    (entries.map (·.1))
  input : ∀ m ∈ o.mInputs, ∃ val, ("input_" ++ getName m.cond m.port, val) ∈ entries ∧ Made m val
  replicate : ∀ m ∈ o.mReplicates, ∃ val, ("replicate_" ++ getName m.cond m.port, val) ∈ entries ∧
    Made m val ∧ (m.mvalues = none → single val = false)

/-- An entry that gives neither an input nor a replicate. -/
theorem Built.other {entries : List (String × Value D)} {o o' : ManagerObjects D P.Output}
    (h : Built entries o) (e : String × Value D) (hin : o'.mInputs = o.mInputs)
    (hrepl : o'.mReplicates = o.mReplicates) : Built (entries ++ [e]) o' := by
  have hsub : (entries.map (·.1)).Sublist ((entries ++ [e]).map (·.1)) := by
    rw [List.map_append]
    exact List.sublist_append_left _ _
  refine ⟨by rw [hin]; exact h.inputs.trans hsub, by rw [hrepl]; exact h.replicates.trans hsub,
    fun m hm => ?_, fun m hm => ?_⟩
  · obtain ⟨val, hmem, hmade⟩ := h.input m (by rwa [← hin])
    exact ⟨val, List.mem_append_left _ hmem, hmade⟩
  · obtain ⟨val, hmem, hmade⟩ := h.replicate m (by rwa [← hrepl])
    exact ⟨val, List.mem_append_left _ hmem, hmade⟩

/-- One turn of the loop of `init_from_plan`. -/
theorem Built.addEntry {entries : List (String × Value D)} {o o' : ManagerObjects D P.Output}
    {s s' : P.rand.State} {e : String × Value D} (h : Built entries o)
    (ho' : P.addEntry (o, s) e = .ok (o', s')) : Built (entries ++ [e]) o' := by
  obtain ⟨conf, val⟩ := e
  unfold Plan.addEntry at ho'
  simp only [bind, Except.bind, pure, Except.pure] at ho'
  split at ho'
  · split at ho'
    · cases ho'
    · cases ho'; exact h.other _ rfl rfl
  split at ho'
  · split at ho'
    · cases ho'
    · cases ho'; exact h.other _ rfl rfl
  split at ho'
  · rename_i cond port hparse
    split at ho'
    · cases ho'
    · rename_i r hr
      cases ho'
      obtain ⟨hcond, hport, hmade⟩ := ManInput.make_eq_ok (hr : _ = Except.ok (r.1, r.2))
      have hkey : "input_" ++ getName r.1.cond r.1.port = conf := by
        rw [hcond, hport, parseInput_eq_some hparse]
      have hsame : Built (entries ++ [(conf, val)]) o := h.other (conf, val) rfl rfl
      refine ⟨?_, hsame.replicates, fun m hm => ?_, hsame.replicate⟩
      · rw [List.map_append, List.map_append, List.map_singleton, List.map_singleton, hkey]
        exact h.inputs.append (List.Sublist.refl _)
      · rcases List.mem_append.mp hm with hm | hm
        · exact hsame.input m hm
        · rw [List.mem_singleton] at hm
          subst hm
          exact ⟨val, by rw [hkey]; exact List.mem_append_right _ (List.mem_singleton_self _), hmade⟩
  split at ho'
  · rename_i cond port hparse
    split at ho'
    · cases ho'
    · rename_i r hr
      cases ho'
      obtain ⟨hcond, hport, hmade⟩ := ManReplicate.make_eq_ok (hr : _ = Except.ok (r.1, r.2))
      have hkey : "replicate_" ++ getName r.1.cond r.1.port = conf := by
        rw [hcond, hport, parseInput_eq_some hparse]
      have hsame : Built (entries ++ [(conf, val)]) o := h.other (conf, val) rfl rfl
      refine ⟨hsame.inputs, ?_, hsame.input, fun m hm => ?_⟩
      · rw [List.map_append, List.map_append, List.map_singleton, List.map_singleton, hkey]
        exact h.replicates.append (List.Sublist.refl _)
      · rcases List.mem_append.mp hm with hm | hm
        · exact hsame.replicate m hm
        · rw [List.mem_singleton] at hm
          subst hm
          exact ⟨val, by rw [hkey]; exact List.mem_append_right _ (List.mem_singleton_self _), hmade⟩
  split at ho'
  · split at ho'
    · cases ho'
    · cases ho'; exact h.other _ rfl rfl
  · cases ho'; exact h.other _ rfl rfl

/-- The loop of `init_from_plan`. -/
theorem Built.foldlM {done entries : List (String × Value D)} {o o' : ManagerObjects D P.Output}
    {s s' : P.rand.State} (h : Built done o)
    (ho' : entries.foldlM P.addEntry (o, s) = .ok (o', s')) : Built (done ++ entries) o' := by
  induction entries generalizing done o s with
  | nil =>
    cases ho'
    rwa [List.append_nil]
  | cons e entries ih =>
    rw [List.foldlM_cons] at ho'
    simp only [bind, Except.bind] at ho'
    cases he : P.addEntry (o, s) e with
    | error f => rw [he] at ho'; cases ho'
    | ok r =>
      rw [he] at ho'
      have := ih (h.addEntry (he : _ = Except.ok (r.1, r.2))) ho'
      rwa [List.append_assoc] at this

theorem catching_eq_ok {α : Type} {context : String} {r : Except Fault α} {a : α} :
    catching context r = .ok a ↔ r = .ok a := by
  cases r <;> simp [catching, Except.mapError]

/-- The objects of a plan are built from its entries. -/
theorem initFromPlan_built {o : ManagerObjects D P.Output} (h : P.initFromPlan = .ok o) :
    ∃ o₀ : ManagerObjects D P.Output, Built P.entries o₀ ∧ o.mInputs.Perm o₀.mInputs ∧
      o.mReplicates = o₀.mReplicates := by
  unfold initFromPlan at h
  simp only [bind, Except.bind] at h
  cases hf : catching "[Manager] " (P.entries.foldlM P.addEntry ({}, P.seed)) with
  | error e => rw [hf] at h; cases h
  | ok r =>
    rw [hf] at h
    cases h
    have hnil : Built [] ({} : ManagerObjects D P.Output) := by
      refine ⟨List.Sublist.refl _, List.Sublist.refl _, fun _ h => ?_, fun _ h => ?_⟩ <;> cases h
    exact ⟨r.1, hnil.foldlM (catching_eq_ok.mp hf : _ = Except.ok (r.1, r.2)),
      List.perm_insertionSort _ _, rfl⟩

/-- The keys of a plan are different. -/
theorem keys_nodup (P : Plan D) : (P.entries.map (·.1)).Nodup := by
  have : P.entries.map (·.1) = P.init.keys := by
    simp [entries, AList.keys, List.keys, Function.comp_def]
  rw [this]
  exact P.init.nodupKeys

/-- An entry of a plan is what its key gives. -/
theorem lookup_of_mem {key : String} {val : Value D} (h : (key, val) ∈ P.entries) :
    P.init.lookup key = some val := by
  obtain ⟨⟨k, v⟩, he, heq⟩ := List.mem_map.mp h
  cases heq
  exact AList.mem_lookup_iff.mpr he

/-- Variables with different keys are of different ports. -/
theorem ports_nodup {vars : List (ManInput D)} (before : String)
    (h : (vars.map fun m => before ++ getName m.cond m.port).Nodup) :
    (vars.map fun m => (m.cond, m.port)).Nodup := by
  refine List.Nodup.of_map (fun x : String × String => before ++ getName x.1 x.2) ?_
  rwa [List.map_map]

/-- What `prepare` gives comes from `init_from_plan`. -/
theorem prepare_eq_ok {o : ManagerObjects D P.Output} {model : Conditions D}
    (h : P.prepare = .ok (o, model)) : P.initFromPlan = .ok o := by
  unfold prepare at h
  simp only [bind, Except.bind] at h
  cases ho : P.initFromPlan with
  | error e => rw [ho] at h; cases h
  | ok o₀ =>
    rw [ho] at h
    simp only at h
    split_ifs at h
    simp only [pure, Except.pure] at h
    cases hd : postDefine o₀.mDefine P.conditions with
    | error e => rw [hd] at h; cases h
    | ok c =>
      simp only [hd] at h
      cases hp : postPropagates o₀.mPropagate P.init c with
      | error e => rw [hp] at h; cases h
      | ok c' => rw [hp] at h; cases h; rfl

/-- A plan that has been prepared is well formed. -/
theorem batch_wellFormed {o : ManagerObjects D P.Output} {model : Conditions D}
    (h : P.prepare = .ok (o, model)) : (P.batch o model).WellFormed := by
  obtain ⟨o₀, hbuilt, hperm, hrepl⟩ := initFromPlan_built (prepare_eq_ok h)
  refine ⟨P.slots_pos, P.slots_lt, fun m hm => ?_, fun m hm => ?_, ?_, ?_⟩
  · obtain ⟨val, hmem, hmade⟩ := hbuilt.input m (hperm.mem_iff.mp hm)
    obtain ⟨v, hv, hsize, -⟩ := hmade.values (lookup_of_mem hmem)
    exact ⟨v, hv, hsize⟩
  · obtain ⟨val, hmem, hmade, hs⟩ := hbuilt.replicate m (by rw [← hrepl]; exact hm)
    obtain ⟨v, hv, hsize, hnone, hsome⟩ := hmade.values (lookup_of_mem hmem)
    refine ⟨v, hv, hsize, ?_⟩
    cases hm' : m.mvalues with
    | none => rw [hnone hm']; exact hs hm'
    | some t => rw [hsome t hm']; rfl
  · refine (hperm.map _).nodup_iff.mpr (ports_nodup "input_" ?_)
    exact hbuilt.inputs.nodup P.keys_nodup
  · change (o.mReplicates.map _).Nodup
    rw [hrepl]
    exact ports_nodup "replicate_" (hbuilt.replicates.nodup P.keys_nodup)

end Plan

/-- The workers of a well formed plan do what they should exactly when it is consistent or refused. -/
theorem Batch.completes_iff_consistent {B : Batch D} (hB : B.WellFormed) :
    B.Completes ↔ B.Consistent ∨ B.Refused := by
  constructor
  · exact Completes.consistent_or_refused hB
  · rintro (h | h)
    · exact h.completes hB
    · exact h.completes hB.slots_pos

/-- The plan is refused while it is read, or the workers get a plan that is consistent, or refused. -/
def Plan.Sound (P : Plan D) : Prop :=
  match P.prepare with
  | .ok (o, model) => (P.batch o model).Consistent ∨ (P.batch o model).Refused
  | .error (.reported _) => True
  | .error (.escaped _) => False

/-- A plan without outputs, run without parallelization. -/
def Plan.plain (init : List (String × Value ℤ)) (conditions : List String) : Plan ℤ where
  init := (init.map fun e => Sigma.mk e.1 e.2).toAList
  conditions := (conditions.map fun c => Sigma.mk c { name := c }).toAList
  slots := 1
  slots_pos := le_rfl
  slots_lt := by decide
  rand := { State := Unit, getDouble := fun min _ s => (min, s) }
  seed := ()
  Output := Unit
  manOutput _ _ := .ok ()
  getId _ := ""

end Vle.Manager
