import Vle.Manager.Insertion
import Vle.Manager.RunPlan

/-!
# The order of the simulations

The workers of a consistent plan insert the result of every number once, in some order (`Progress`), and
what good outputs give does not depend on it. `Plan.independent_iff` says for which plans this is so:
those whose outputs are good, and whose numbers do not wrap around. The other ones read outside of an
accumulator, find no column, or simulate a number twice or not at all.
-/

namespace Vle.Manager

open Vpz Lib Lib.Except

variable {D : Type}

/-! ## The numbers that are inserted -/

/-- The results of the numbers of its residue below this one have been inserted by a worker. -/
def WorkerPc.inserted {V : Type} (bound : ℕ) : WorkerPc V → ℕ
  | .loop i | .ran i _ _ => i
  | .done => bound
  | .escaped _ => 0

namespace System

variable {E : Env D} {B : Batch D} {result : ℕ → E.View} {s s' : System E} {l : List ℕ}

/-- The simulations of a plan succeed, with these results. -/
def Yields (E : Env D) (B : Batch D) (result : ℕ → E.View) : Prop :=
  ∀ i < B.bound, ∀ conds, B.settings i = .ok conds →
    (E.simulate conds).1.code = 0 ∧ (E.simulate conds).2 = result i

/-- The insertions of the results of some numbers. -/
def insertions (E : Env D) (B : Batch D) (result : ℕ → E.View) (l : List ℕ) :
    Except Fault E.Outputs :=
  l.foldlM (fun outputs i => E.insertReplicate outputs (result i) (i / B.replicasSize) B.inputsSize
    B.replicasSize) E.outputs

/-- The results can be inserted in every order. -/
def Accepts (E : Env D) (B : Batch D) (result : ℕ → E.View) : Prop :=
  ∀ l : List ℕ, l.Nodup → (∀ i ∈ l, i < B.bound) → ∃ outputs, insertions E B result l = .ok outputs

/-- The states that the workers come to when nothing goes wrong: the results of some numbers have been
inserted, those that the workers have gone past. -/
structure Progress (B : Batch D) (result : ℕ → E.View) (s : System E) (l : List ℕ) : Prop where
  inv : Inv B s
  err : s.err.code = 0
  ran : ∀ w < B.slots, ∀ i error view, s.workers w = .ran i error view →
    error.code = 0 ∧ view = result i
  inserted : s.inserted = l.map fun i => (i / B.replicasSize, i % B.replicasSize)
  nodup : l.Nodup
  mem : ∀ i, i ∈ l ↔ i < B.bound ∧ i < (s.workers (i % B.slots)).inserted B.bound
  outputs : insertions E B result l = .ok s.outputs

theorem Progress.start : Progress B result ({} : System E) [] := by
  refine ⟨.start, rfl, fun _ _ _ _ _ h => (by cases h), rfl, List.nodup_nil, fun i => ?_, rfl⟩
  have := Nat.mod_le i B.slots
  simp only [List.not_mem_nil, WorkerPc.inserted, false_iff, not_and, not_lt]
  exact fun _ => this

/-- A worker moves without an insertion. -/
theorem Progress.move (h : Progress B result s l) {w : ℕ} {pc : WorkerPc E.View} (hinv : Inv B s')
    (hworkers : s'.workers = Function.update s.workers w pc) (herr : s'.err.code = 0)
    (hins : s'.inserted = s.inserted) (hout : s'.outputs = s.outputs)
    (hran : ∀ i error view, pc = .ran i error view → error.code = 0 ∧ view = result i)
    (hpc : ∀ i < B.bound, i % B.slots = w →
      (i < pc.inserted B.bound ↔ i < (s.workers w).inserted B.bound)) :
    Progress B result s' l := by
  refine ⟨hinv, herr, fun w' hw' i error view heq => ?_, by rw [hins]; exact h.inserted, h.nodup,
    fun i => ?_, by rw [hout]; exact h.outputs⟩
  · rw [hworkers] at heq
    by_cases e : w' = w
    · subst e
      rw [Function.update_self] at heq
      exact hran i error view heq
    · rw [Function.update_of_ne e] at heq
      exact h.ran w' hw' i error view heq
  · rw [h.mem, hworkers]
    refine and_congr_right fun hi => ?_
    by_cases e : i % B.slots = w
    · rw [e, Function.update_self]
      exact (hpc i hi e).symm
    · rw [Function.update_of_ne e]

/-- A state that is followed by a clean one only. -/
def NextClean (B : Batch D) (s : System E) : Prop :=
  ∀ s', Step B s s' → s'.err.code = 0 ∧ ∀ w < B.slots, ∀ fault, s'.workers w ≠ .escaped fault

/-- Every step goes on with the progress. -/
theorem Progress.step (hB : B.WellFormed) (hC : B.Counted) (hyields : Yields E B result)
    (h : Progress B result s l) (hclean : NextClean B s) (hs' : Step B s s') :
    ∃ l', Progress B result s' l' := by
  have hdue : Due B s := by
    intro w hw i error view hpc fault hins
    by_contra hfault
    push Not at hfault
    have hcode := (h.ran w hw i error view hpc).1
    have hstep : s.step B w = some (s.goto w (.escaped fault)) := by
      simp only [System.step, hpc, h.err, hcode, ne_eq, not_true_eq_false, if_false, hins]
    exact (hclean _ ⟨w, hw, hstep⟩).2 w hw fault (Function.update_self ..)
  have hinv := h.inv.step hB hC hdue hs'
  obtain ⟨herr', hsafe'⟩ := hclean s' hs'
  obtain ⟨w, hw, hstep⟩ := hs'
  have hplace := h.inv.place w hw
  rcases step_done hstep with ⟨i, hpc⟩ | ⟨i, error, view, hpc⟩
  · rcases step_loop hpc hstep with ⟨hi, conds, hconds, rfl⟩ | ⟨hi, err, hset, -⟩ |
      ⟨hi, fault, hset, -⟩ | ⟨hi, rfl⟩
    · refine ⟨l, h.move hinv rfl h.err rfl rfl (fun j error view heq => ?_) fun j _ _ => ?_⟩
      · cases heq
        exact hyields i hi conds hconds
      · rw [hpc]
        rfl
    · obtain ⟨conds, hconds⟩ := hC.settings_ok hB hi
      rw [hset] at hconds; cases hconds
    · obtain ⟨conds, hconds⟩ := hC.settings_ok hB hi
      rw [hset] at hconds; cases hconds
    · refine ⟨l, h.move hinv rfl h.err rfl rfl (fun j error view heq => by cases heq)
        fun j hj _ => ?_⟩
      rw [hpc]
      simp only [WorkerPc.inserted]
      omega
  · rw [hpc] at hplace
    rcases step_ran hpc hstep with ⟨herr, -⟩ | ⟨-, err, hcode, rfl, -⟩ | ⟨-, outputs, hins, rfl⟩ |
      ⟨-, fault, -, -, rfl⟩
    · exact absurd h.err herr
    · exact absurd herr' hcode
    · obtain ⟨-, rfl⟩ := h.ran w hw i error view hpc
      have hnew : i ∉ l := by
        rw [h.mem, hplace.1, hpc]
        exact fun hlt => lt_irrefl i hlt.2
      have hnowrap : (i + B.slots) % 2 ^ 32 = i + B.slots := by
        have h1 := hC.small
        have h2 := hC.bound_eq hB
        have h3 := hplace.2
        exact Nat.mod_eq_of_lt (by omega)
      refine ⟨l ++ [i], hinv, h.err, fun w' hw' j error' view' heq => ?_, ?_, ?_, fun j => ?_, ?_⟩
      · by_cases e : w' = w
        · subst e
          rw [show (goto s w' _).workers w' = _ from Function.update_self ..] at heq
          cases heq
        · rw [show (goto s w _).workers w' = _ from Function.update_of_ne e ..] at heq
          exact h.ran w' hw' j error' view' heq
      · simp only [h.inserted, List.map_append, List.map_singleton]
      · refine List.nodup_append.mpr ⟨h.nodup, List.nodup_singleton _, fun a ha b hb hab => hnew ?_⟩
        rw [List.mem_singleton] at hb
        rwa [← hb, ← hab]
      · rw [List.mem_append, List.mem_singleton, h.mem]
        simp only [goto, hnowrap]
        by_cases e : j % B.slots = w
        · have := lt_add_slots_iff hB.slots_pos (e.trans hplace.1.symm)
          rw [e, Function.update_self, hpc]
          simp only [WorkerPc.inserted]
          have := hplace.2
          omega
        · rw [Function.update_of_ne e]
          refine or_iff_left fun hji => e ?_
          rw [hji, hplace.1]
      · rw [insertions, foldlM_concat]
        have hout := h.outputs
        rw [insertions] at hout
        rw [hout, ok_bind]
        exact hins
    · exact absurd (Function.update_self ..) (hsafe' w hw fault)

/-- When the results can be inserted in every order, nothing goes wrong. -/
theorem Progress.nextClean (hB : B.WellFormed) (hC : B.Counted) (hacc : Accepts E B result)
    (h : Progress B result s l) : NextClean B s := by
  rintro s' ⟨w, hw, hstep⟩
  have hplace := h.inv.place w hw
  -- The other workers stay where they are.
  have hsafe : ∀ pc : WorkerPc E.View, (∀ fault, pc ≠ .escaped fault) → ∀ w' < B.slots, ∀ fault,
      Function.update s.workers w pc w' ≠ .escaped fault := by
    intro pc hpc w' hw' fault heq
    by_cases e : w' = w
    · subst e
      rw [Function.update_self] at heq
      exact hpc fault heq
    · rw [Function.update_of_ne e] at heq
      have := h.inv.place w' hw'
      rw [heq] at this
      exact this
  rcases step_done hstep with ⟨i, hpc⟩ | ⟨i, error, view, hpc⟩
  · rcases step_loop hpc hstep with ⟨-, conds, -, rfl⟩ | ⟨hi, err, hset, -⟩ |
      ⟨hi, fault, hset, -⟩ | ⟨-, rfl⟩
    · exact ⟨h.err, hsafe _ fun _ heq => by cases heq⟩
    · obtain ⟨conds, hconds⟩ := hC.settings_ok hB hi
      rw [hset] at hconds; cases hconds
    · obtain ⟨conds, hconds⟩ := hC.settings_ok hB hi
      rw [hset] at hconds; cases hconds
    · exact ⟨h.err, hsafe _ fun _ heq => by cases heq⟩
  · obtain ⟨hcode, rfl⟩ := h.ran w hw i error view hpc
    rw [hpc] at hplace
    -- The result can be inserted after those before it.
    obtain ⟨outputs, hins⟩ : ∃ outputs, E.insertReplicate s.outputs (result i)
        (i / B.replicasSize) B.inputsSize B.replicasSize = .ok outputs := by
      have hnew : i ∉ l := by
        rw [h.mem, hplace.1, hpc]
        exact fun hlt => lt_irrefl i hlt.2
      obtain ⟨outputs, hout⟩ := hacc (l ++ [i])
        (List.nodup_append.mpr ⟨h.nodup, List.nodup_singleton _, fun a ha b hb hab => hnew (by
          rw [List.mem_singleton] at hb
          rwa [← hb, ← hab])⟩)
        fun j hj => by
          rcases List.mem_append.mp hj with hj | hj
          · exact ((h.mem j).mp hj).1
          · rw [List.mem_singleton] at hj
            rw [hj]
            exact hplace.2
      have hprev := h.outputs
      rw [insertions] at hprev
      rw [insertions, foldlM_concat, hprev, ok_bind] at hout
      exact ⟨outputs, hout⟩
    rcases step_ran hpc hstep with ⟨herr, -⟩ | ⟨-, err, -, -, hne | ⟨what, hins'⟩⟩ |
      ⟨-, outputs', -, rfl⟩ | ⟨-, fault, -, hins', -⟩
    · exact absurd h.err herr
    · exact absurd hcode hne
    · rw [hins] at hins'; cases hins'
    · exact ⟨h.err, hsafe _ fun _ heq => by cases heq⟩
    · rw [hins] at hins'; cases hins'

/-- Every state of a clean plan is one of progress. -/
theorem Clean.progress (hB : B.WellFormed) (hC : B.Counted) (hyields : Yields E B result)
    (hclean : Clean E B) (hs : Reachable E B s) : ∃ l, Progress B result s l := by
  induction hs with
  | refl => exact ⟨[], .start⟩
  | @tail s₁ s₂ hrun hst ih =>
    obtain ⟨l, hl⟩ := ih
    exact hl.step hB hC hyields (fun s' hs' => hclean s' (hrun.tail hs')) hst

/-- When the results can be inserted in every order, every state is one of progress. -/
theorem Accepts.progress (hB : B.WellFormed) (hC : B.Counted) (hyields : Yields E B result)
    (hacc : Accepts E B result) (hs : Reachable E B s) : ∃ l, Progress B result s l := by
  induction hs with
  | refl => exact ⟨[], .start⟩
  | tail _ hst ih =>
    obtain ⟨l, hl⟩ := ih
    exact hl.step hB hC hyields (hl.nextClean hB hC hacc) hst

/-- A state of progress is clean. -/
theorem Progress.clean (h : Progress B result s l) :
    s.err.code = 0 ∧ ∀ w < B.slots, ∀ fault, s.workers w ≠ .escaped fault := by
  refine ⟨h.err, fun w hw fault heq => ?_⟩
  have := h.inv.place w hw
  rw [heq] at this
  exact this

/-- At the end, all numbers have been inserted. -/
theorem Progress.perm (hB : B.WellFormed) (h : Progress B result s l) (hstuck : ∀ s', ¬ Step B s s') :
    l.Perm (List.range B.bound) := by
  refine (List.perm_ext_iff_of_nodup h.nodup List.nodup_range).mpr fun i => ?_
  rw [h.mem, List.mem_range, done_of_stuck h.clean.2 hstuck (Nat.mod_lt _ hB.slots_pos)]
  exact ⟨fun hi => hi.1, fun hi => ⟨hi, hi⟩⟩

/-- A step simulates a number below the bound, or none. -/
theorem step_simulated (hs' : Step B s s') : s'.simulated = s.simulated ∨
    ∃ i < B.bound, ∃ conds, s'.simulated =
      s.simulated ++ [(i / B.replicasSize, i % B.replicasSize, conds)] := by
  obtain ⟨w, -, hstep⟩ := hs'
  rcases step_done hstep with ⟨i, hpc⟩ | ⟨i, error, view, hpc⟩
  · rcases step_loop hpc hstep with ⟨hi, conds, -, rfl⟩ | ⟨-, err, -, rfl⟩ | ⟨-, fault, -, rfl⟩ |
      ⟨-, rfl⟩
    · exact .inr ⟨i, hi, conds, rfl⟩
    · exact .inl rfl
    · exact .inl rfl
    · exact .inl rfl
  · rcases step_ran hpc hstep with ⟨-, rfl⟩ | ⟨-, err, -, rfl, -⟩ | ⟨-, outputs, -, rfl⟩ |
      ⟨-, fault, -, -, rfl⟩ <;> exact .inl rfl

/-- A run goes on with its simulations. -/
theorem pairs_prefix (hrun : Relation.ReflTransGen (Step B) s s') : s.pairs <+: s'.pairs := by
  induction hrun with
  | refl => exact List.prefix_refl _
  | tail _ hst ih =>
    refine ih.trans ?_
    unfold pairs
    rcases step_simulated hst with heq | ⟨i, -, conds, heq⟩
    · rw [heq]
    · rw [heq, List.map_append]
      exact List.prefix_append _ _

/-- The simulations are of numbers below the bound. -/
theorem pairs_mem (hs : Reachable E B s) : ∀ x ∈ s.pairs, ∃ i < B.bound,
    x = (i / B.replicasSize, i % B.replicasSize) := by
  induction hs with
  | refl => exact fun _ h => absurd h List.not_mem_nil
  | tail _ hst h =>
    intro x hx
    rcases step_simulated hst with heq | ⟨i, hi, conds, heq⟩
    · rw [pairs, heq] at hx
      exact h x hx
    · rw [pairs, heq, List.map_append, List.mem_append] at hx
      rcases hx with hx | hx
      · exact h x hx
      · rw [List.map_singleton, List.mem_singleton] at hx
        exact ⟨i, hi, hx⟩

end System

/-! ## The outputs of a plan -/

namespace ManOutput

variable {m : List (String × Option (Value ℚ))} {id : String} {o o' : ManOutput}

/-- The configuration gives one of the aggregations over the replicates. -/
theorem replicateAggregation_allowed (h : o.Allowed) (ho' : replicateAggregation m id o = .ok o') :
    o'.Allowed := by
  unfold replicateAggregation at ho'
  split at ho'
  · cases ho'; exact h
  · obtain ⟨name, -, ho'⟩ := bind_eq_ok.mp ho'
    split at ho'
    · cases ho'; exact ⟨.inl rfl, h.input⟩
    · split at ho'
      · obtain ⟨q, -, ho'⟩ := bind_eq_ok.mp ho'
        cases ho'; exact ⟨.inr (.inr rfl), h.input⟩
      · cases ho'; exact ⟨.inr (.inr rfl), h.input⟩
    · cases ho'; exact ⟨.inr (.inl rfl), h.input⟩
    · cases ho'

/-- The configuration gives one of the aggregations over the inputs. -/
theorem inputAggregation_allowed (h : o.Allowed) (ho' : inputAggregation m id o = .ok o') :
    o'.Allowed := by
  unfold inputAggregation at ho'
  split at ho'
  · cases ho'; exact h
  · obtain ⟨name, -, ho'⟩ := bind_eq_ok.mp ho'
    split at ho' <;> cases ho' <;> exact ⟨h.replicate, by simp⟩

/-- The integration leaves the aggregations as they are. -/
theorem integration_allowed (h : o.Allowed) (ho' : integration m id o = .ok o') : o'.Allowed := by
  unfold integration at ho'
  split at ho'
  · cases ho'; exact ⟨h.replicate, h.input⟩
  · obtain ⟨name, -, ho'⟩ := bind_eq_ok.mp ho'
    split at ho'
    · cases ho'; exact ⟨h.replicate, h.input⟩
    · cases ho'; exact ⟨h.replicate, h.input⟩
    · cases ho'; exact ⟨h.replicate, h.input⟩
    · split at ho'
      · cases ho'
      · obtain ⟨times, -, ho'⟩ := bind_eq_ok.mp ho'
        obtain ⟨observations, -, ho'⟩ := bind_eq_ok.mp ho'
        split at ho'
        · cases ho'; exact ⟨h.replicate, h.input⟩
        · cases ho'
    · cases ho'; exact ⟨h.replicate, h.input⟩
    · cases ho'

/-- An output is configured with aggregations that are allowed. -/
theorem make_allowed {val : Value ℚ} (h : make id val = .ok o) : o.Allowed := by
  have hdefault : ∀ view port, ({ id, view, absolutePort := port } : ManOutput).Allowed :=
    fun _ _ => ⟨.inl rfl, by simp⟩
  unfold make at h
  split at h
  · split at h
    · cases h; exact hdefault _ _
    · cases h
  · rename_i m
    have hrest : ∀ o₁ : ManOutput, o₁.Allowed → (do
        let o₂ ← replicateAggregation m id o₁
        let o₃ ← inputAggregation m id o₂
        integration m id o₃) = .ok o → o.Allowed := by
      intro o₁ ho₁ hrun
      obtain ⟨o₂, ho₂, hrun⟩ := bind_eq_ok.mp hrun
      obtain ⟨o₃, ho₃, hrun⟩ := bind_eq_ok.mp hrun
      exact integration_allowed (inputAggregation_allowed (replicateAggregation_allowed ho₁ ho₂) ho₃)
        hrun
    split at h
    · obtain ⟨path, -, h⟩ := bind_eq_ok.mp h
      split at h
      · exact hrest _ (hdefault _ _) h
      · cases h
    · exact hrest _ (hdefault _ _) h
  · cases h; exact hdefault _ _

end ManOutput

/-! ## Plans whose results do not depend on the order -/

/-- A simulator, and the insertion in some outputs. -/
def outputsEnv (os : List ManOutput) (simulate : Conditions ℚ → Error × Views) : Env ℚ where
  View := Views
  simulate := simulate
  Outputs := Outputs
  outputs := .start os
  insertReplicate := Outputs.insertReplicate

namespace Batch

variable (B : Batch ℚ) (os : List ManOutput) (simulate : Conditions ℚ → Error × Views)

/-- The same plan without parallelization. -/
def single : Batch ℚ := { B with slots := 1 }

/-- There are inputs and replicates, whose simulations all succeed, with numeric views of one shape for the
outputs. -/
structure Shaped (S : Shape) : Prop where
  outputs : ∀ o ∈ os, o.Shaped S
  pos : 0 < B.inputsSize ∧ 0 < B.replicasSize
  succeeds : ∀ i < B.inputsSize * B.replicasSize, ∃ conds, B.settings i = .ok conds ∧
    (simulate conds).1.code = 0 ∧ ∀ o ∈ os, (simulate conds).2.Numeric S o

/-- In whatever order the workers take their steps, they come to their ends without an error, each
pair is simulated and inserted once, each output gets its value with the last insertion, and what the
outputs get is what they get without parallelization. -/
structure Independent : Prop where
  clean : System.Clean (outputsEnv os simulate) B
  terminates : ∀ s : System (outputsEnv os simulate), System.Reachable _ B s → s.Terminates B
  once : ∀ s : System (outputsEnv os simulate), System.Reachable _ B s →
    (∀ s', ¬ System.Step B s s') →
      (s.simulated.map fun x => (x.1, x.2.1)).Perm
        (List.range B.inputsSize ×ˢ List.range B.replicasSize) ∧
      s.inserted.Perm (List.range B.inputsSize ×ˢ List.range B.replicasSize)
  receive : ∀ s : System (outputsEnv os simulate), System.Reachable _ B s →
    s.outputs.received.map Prod.fst =
      if s.inserted.length < B.inputsSize * B.replicasSize then [] else os.map (·.id)
  same : ∃ t : System (outputsEnv os simulate), System.Reachable _ B.single t ∧
    (∀ t', ¬ System.Step B.single t t') ∧ t.err.code = 0 ∧
    ∀ s : System (outputsEnv os simulate), System.Reachable _ B s → (∀ s', ¬ System.Step B s s') →
      s.outputs.received = t.outputs.received ∧ s.outputs.results = t.outputs.results

variable {B os simulate} {S : Shape}

/-- The views of the numbers. -/
def resultOf (B : Batch ℚ) (simulate : Conditions ℚ → Error × Views) (i : ℕ) : Views :=
  match B.settings i with
  | .ok conds => (simulate conds).2
  | .error _ => fun _ => none

theorem Shaped.yields (h : B.Shaped os simulate S) :
    System.Yields (outputsEnv os simulate) B (resultOf B simulate) := by
  intro i hi conds hconds
  have hlt : i < B.inputsSize * B.replicasSize := by
    rw [Nat.mul_comm]
    exact lt_of_lt_of_le hi (Nat.mod_le _ _)
  obtain ⟨conds', hconds', hcode, -⟩ := h.succeeds i hlt
  cases hconds.symm.trans hconds'
  refine ⟨hcode, ?_⟩
  rw [resultOf, hconds]
  rfl

theorem Shaped.resultOf_numeric (h : B.Shaped os simulate S) {i : ℕ}
    (hi : i < B.inputsSize * B.replicasSize) {o : ManOutput} (ho : o ∈ os) :
    (resultOf B simulate i).Numeric S o := by
  obtain ⟨conds, hconds, -, hnum⟩ := h.succeeds i hi
  rw [resultOf, hconds]
  exact hnum o ho

theorem Shaped.counted (h : B.Shaped os simulate S)
    (hsmall : B.inputsSize * B.replicasSize + B.slots ≤ 2 ^ 32) : B.Counted :=
  ⟨fun i hi => (h.succeeds i hi).imp fun _ hconds => hconds.1, h.pos, hsmall⟩

/-- The insertions of the workers are those of the outputs. -/
theorem insertions_eq (l : List ℕ) :
    System.insertions (outputsEnv os simulate) B (resultOf B simulate) l =
      Outputs.run os B.inputsSize B.replicasSize (resultOf B simulate) l := rfl

section Good

variable (hB : B.WellFormed) (hC : B.Counted) (h : B.Shaped os simulate S)
  (hos : ∀ o ∈ os, o.Allowed) (hgood : ∀ o ∈ os, o.Good S B.replicasSize)

include hB hC h hos hgood

/-- Good outputs take the results in every order. -/
theorem run_keeps {l : List ℕ} (hnodup : l.Nodup) (hlt : ∀ i ∈ l, i < B.bound) :
    ∃ outputs, Outputs.run os B.inputsSize B.replicasSize (resultOf B simulate) l = .ok outputs ∧
      Outputs.Keeps os S B.inputsSize B.replicasSize (resultOf B simulate) l outputs := by
  have hbound := hC.bound_eq hB
  refine Outputs.run_spec (Nat.mul_pos hC.pos.1 hC.pos.2)
    (fun o ho => ⟨h.outputs o ho, hos o ho, hgood o ho⟩) hnodup (fun i hi => ?_)
    fun o ho i hi => h.resultOf_numeric ?_ ho
  · rw [← hbound]; exact hlt i hi
  · rw [← hbound]; exact hlt i hi

theorem progress {s : System (outputsEnv os simulate)} (hs : System.Reachable _ B s) :
    ∃ l, System.Progress B (resultOf B simulate) s l ∧
      Outputs.Keeps os S B.inputsSize B.replicasSize (resultOf B simulate) l s.outputs := by
  have hacc : System.Accepts (outputsEnv os simulate) B (resultOf B simulate) := by
    intro l hnodup hlt
    obtain ⟨outputs, hrun, -⟩ := run_keeps hB hC h hos hgood hnodup hlt
    exact ⟨outputs, hrun⟩
  obtain ⟨l, hl⟩ := hacc.progress hB hC h.yields hs
  obtain ⟨outputs, hrun, hkeeps⟩ := run_keeps hB hC h hos hgood hl.nodup
    fun i hi => ((hl.mem i).mp hi).1
  rw [← insertions_eq, hl.outputs] at hrun
  cases hrun
  exact ⟨l, hl, hkeeps⟩

/-- The runs end. -/
theorem terminates {s : System (outputsEnv os simulate)} (hs : System.Reachable _ B s) :
    s.Terminates B := by
  refine acc_of_weight (fun s : System (outputsEnv os simulate) =>
    ∑ w ∈ Finset.range B.slots, (s.workers w).weight B.bound B.slots) (fun s₁ s₂ hs₁ hst => ?_) hs
  obtain ⟨l, hl, -⟩ := progress hB hC h hos hgood hs₁
  exact ⟨hs₁.tail hst, hl.inv.weight_lt hB hC hst⟩

/-- At the end, all pairs have been simulated and inserted once, and the outputs have what they give
for the numbers in their order. -/
theorem at_end {s : System (outputsEnv os simulate)} (hs : System.Reachable _ B s)
    (hstuck : ∀ s', ¬ System.Step B s s') :
    s.err.code = 0 ∧
      (s.simulated.map fun x => (x.1, x.2.1)).Perm
        (List.range B.inputsSize ×ˢ List.range B.replicasSize) ∧
      s.inserted.Perm (List.range B.inputsSize ×ˢ List.range B.replicasSize) ∧
      s.outputs.received = os.map (fun o => (o.id, o.final S B.inputsSize B.replicasSize
        (resultOf B simulate) (List.range (B.inputsSize * B.replicasSize)))) ∧
      s.outputs.results = os.foldl (fun (results : String → Option Aggregate) o =>
        Function.update results o.id (some (o.final S B.inputsSize B.replicasSize
          (resultOf B simulate) (List.range (B.inputsSize * B.replicasSize))))) fun _ => none := by
  obtain ⟨l, hl, hkeeps⟩ := progress hB hC h hos hgood hs
  have hperm := hl.perm hB hstuck
  rw [hC.bound_eq hB] at hperm
  obtain ⟨hreceived, hresults⟩ := hkeeps.after (by rw [hperm.length_eq, List.length_range])
  have hfinal : ∀ o ∈ os, o.final S B.inputsSize B.replicasSize (resultOf B simulate) l =
      o.final S B.inputsSize B.replicasSize (resultOf B simulate)
        (List.range (B.inputsSize * B.replicasSize)) :=
    fun o ho => ManOutput.finish_perm (hos o ho) hperm
  refine ⟨hl.err, hl.inv.pairs_perm hB hC hl.err fun w hw =>
    System.done_of_stuck hl.clean.2 hstuck hw, ?_, ?_, ?_⟩
  · rw [hl.inserted]
    exact (hperm.map _).trans (perm_pairs _ _ hC.pos.2)
  · rw [hreceived]
    exact List.map_congr_left fun o ho => by rw [hfinal o ho]
  · rw [hresults]
    exact List.foldl_ext _ _ _ fun results o ho => by rw [hfinal o ho]

end Good

theorem WellFormed.single (hB : B.WellFormed) : B.single.WellFormed :=
  { hB with slots_pos := le_rfl, slots_lt := Nat.one_lt_two_pow (by decide) }

theorem Counted.single (hB : B.WellFormed) (hC : B.Counted) : B.single.Counted := by
  refine ⟨hC.settings, hC.pos, ?_⟩
  exact (Nat.add_le_add_left hB.slots_pos _).trans hC.small

/-- The results of a consistent plan with good outputs do not depend on the order. -/
theorem Counted.independent (hB : B.WellFormed) (hC : B.Counted)
    (h : B.Shaped os simulate S) (hos : ∀ o ∈ os, o.Allowed)
    (hgood : ∀ o ∈ os, o.Good S B.replicasSize) : B.Independent os simulate := by
  refine ⟨fun s hs => ?_, fun s hs => terminates hB hC h hos hgood hs, fun s hs hstuck => ?_,
    fun s hs => ?_, ?_⟩
  · obtain ⟨l, hl, -⟩ := progress hB hC h hos hgood hs
    exact hl.clean
  · obtain ⟨-, hsim, hins, -⟩ := at_end hB hC h hos hgood hs hstuck
    exact ⟨hsim, hins⟩
  · obtain ⟨l, hl, hkeeps⟩ := progress hB hC h hos hgood hs
    have hle : l.length ≤ B.inputsSize * B.replicasSize := by
      have := (hl.nodup.subperm fun i hi => List.mem_range.mpr ((hl.mem i).mp hi).1).length_le
      rwa [List.length_range, hC.bound_eq hB] at this
    rw [hl.inserted, List.length_map]
    split_ifs with hlt
    · rw [(hkeeps.before hlt).2.1]
      rfl
    · rw [(hkeeps.after (by omega)).1, List.map_map]
      rfl
  · -- The run without parallelization.
    have hB' := hB.single
    have hC' := hC.single hB
    have h' : B.single.Shaped os simulate S := ⟨h.outputs, h.pos, h.succeeds⟩
    obtain ⟨t, ht, htstuck⟩ := exists_stuck
      (terminates hB' hC' h' hos hgood (s := {}) Relation.ReflTransGen.refl)
    obtain ⟨herr, -, -, hreceived, hresults⟩ := at_end hB' hC' h' hos hgood ht htstuck
    refine ⟨t, ht, htstuck, herr, fun s hs hstuck => ?_⟩
    obtain ⟨-, -, -, hreceived', hresults'⟩ := at_end hB hC h hos hgood hs hstuck
    exact ⟨hreceived'.trans hreceived.symm, hresults'.trans hresults.symm⟩

/-- The numbers of a plan whose results do not depend on the order do not wrap around. -/
theorem Independent.small (hB : B.WellFormed) (h : B.Shaped os simulate S)
    (hI : B.Independent os simulate) : B.inputsSize * B.replicasSize + B.slots ≤ 2 ^ 32 := by
  have hle : B.bound ≤ B.inputsSize * B.replicasSize := by
    rw [Nat.mul_comm]
    exact Nat.mod_le _ _
  have hpos := Nat.mul_pos h.pos.1 h.pos.2
  have hok : ∀ i < B.bound, ∃ conds, B.settings i = .ok conds := fun i hi =>
    (h.succeeds i (lt_of_lt_of_le hi hle)).imp fun _ hconds => hconds.1
  -- The pairs that a run simulates, at its end.
  have hend : ∀ s : System (outputsEnv os simulate), System.Reachable _ B s →
      ∃ s', Relation.ReflTransGen (System.Step B) s s' ∧ s'.pairs.Perm
        (List.range B.inputsSize ×ˢ List.range B.replicasSize) := by
    intro s hs
    obtain ⟨s', hrun, hstuck⟩ := exists_stuck (hI.terminates s hs)
    exact ⟨s', hrun, (hI.once s' (hs.trans hrun) hstuck).1⟩
  -- There are as many numbers below the bound as pairs.
  have hbound : B.bound = B.inputsSize * B.replicasSize := by
    obtain ⟨s, hs, hperm⟩ := hend {} .refl
    have hsub : s.pairs ⊆ (List.range B.bound).map fun i =>
        (i / B.replicasSize, i % B.replicasSize) := by
      intro x hx
      obtain ⟨i, hi, rfl⟩ := System.pairs_mem hs x hx
      exact List.mem_map.mpr ⟨i, List.mem_range.mpr hi, rfl⟩
    have hnodup : s.pairs.Nodup :=
      hperm.nodup_iff.mpr (List.nodup_range.product List.nodup_range)
    have hlen := (hnodup.subperm hsub).length_le
    rw [hperm.length_eq, List.length_product, List.length_map, List.length_range, List.length_range,
      List.length_range] at hlen
    exact le_antisymm hle hlen
  by_contra hwrap
  obtain ⟨s, hs, htwice⟩ := System.exists_twice hI.clean
    (fun i hi conds hconds => (h.yields i hi conds hconds).1) hB.slots_pos
    hB.slots_lt hok (by omega) (by omega)
  obtain ⟨s', hrun, hperm⟩ := hend s hs
  refine htwice (List.Nodup.sublist (System.pairs_prefix hrun).sublist ?_)
  exact hperm.nodup_iff.mpr (List.nodup_range.product List.nodup_range)

/-- The outputs of a plan whose results do not depend on the order are good. -/
theorem Independent.good (hB : B.WellFormed) (hC : B.Counted) (h : B.Shaped os simulate S)
    (hos : ∀ o ∈ os, o.Allowed) (hI : B.Independent os simulate) {o : ManOutput} (ho : o ∈ os) :
    o.Good S B.replicasSize := by
  obtain ⟨s, hs, hstuck⟩ := exists_stuck (hI.terminates {} .refl)
  obtain ⟨l, hl⟩ := hI.clean.progress hB hC h.yields hs
  have hperm := hl.perm hB hstuck
  rw [hC.bound_eq hB] at hperm
  obtain ⟨houtputs, hruns⟩ := Outputs.run_outputs ((insertions_eq l).symm.trans hl.outputs)
  obtain ⟨p, hp, rfl⟩ := List.mem_map.mp (houtputs.symm ▸ ho)
  refine ManOutput.good_of_run (h.outputs _ ho) (hos _ ho) hC.pos hperm (fun k hk => ?_) (hruns p hp)
  exact h.resultOf_numeric (List.mem_range.mp (hperm.mem_iff.mp hk)) ho

end Batch

namespace Plan

/-- The plan with the outputs of the manager. -/
def withOutputs (P : Plan ℚ) : Plan ℚ :=
  { P with Output := ManOutput, manOutput := ManOutput.make, getId := ManOutput.id }

variable {P : Plan D}

/-- The outputs of an entry are made by the constructor. -/
theorem addEntry_outputs {o o' : ManagerObjects D P.Output} {s s' : P.rand.State}
    {e : String × Value D} (h : P.addEntry (o, s) e = .ok (o', s')) {out : P.Output}
    (hout : out ∈ o'.mOutputs) : out ∈ o.mOutputs ∨ ∃ id val, P.manOutput id val = .ok out := by
  obtain ⟨conf, val⟩ := e
  unfold addEntry at h
  simp only [bind, Except.bind, pure, Except.pure] at h
  split at h
  · split at h
    · cases h
    · cases h; exact .inl hout
  split at h
  · split at h
    · cases h
    · cases h; exact .inl hout
  split at h
  · split at h
    · cases h
    · cases h; exact .inl hout
  split at h
  · split at h
    · cases h
    · cases h; exact .inl hout
  split at h
  · rename_i id _
    split at h
    · cases h
    · rename_i out' hout'
      cases h
      rcases List.mem_append.mp hout with hout | hout
      · exact .inl hout
      · rw [List.mem_singleton] at hout
        exact .inr ⟨id, val, by rw [hout]; exact hout'⟩
  · cases h; exact .inl hout

/-- The outputs of a prepared plan are made by the constructor. -/
theorem prepare_outputs {o : ManagerObjects D P.Output} {model : Conditions D}
    (h : P.prepare = .ok (o, model)) {out : P.Output} (hout : out ∈ o.mOutputs) :
    ∃ id val, P.manOutput id val = .ok out := by
  have hloop : ∀ (entries : List (String × Value D)) (r r' : ManagerObjects D P.Output × P.rand.State),
      entries.foldlM P.addEntry r = .ok r' → ∀ out ∈ r'.1.mOutputs,
        out ∈ r.1.mOutputs ∨ ∃ id val, P.manOutput id val = .ok out := by
    intro entries
    induction entries with
    | nil =>
      intro r r' h out hout
      cases h
      exact .inl hout
    | cons e entries ih =>
      intro r r' h out hout
      rw [List.foldlM_cons] at h
      obtain ⟨r₁, h₁, h⟩ := bind_eq_ok.mp h
      rcases ih r₁ r' h out hout with hout | hmade
      · exact addEntry_outputs h₁ hout
      · exact .inr hmade
  have hinit := prepare_eq_ok h
  unfold initFromPlan at hinit
  obtain ⟨r, hr, hinit⟩ := bind_eq_ok.mp hinit
  cases hinit
  have hmem : out ∈ r.1.mOutputs := (List.perm_insertionSort _ _).mem_iff.mp hout
  rcases hloop _ _ _ (catching_eq_ok.mp hr) out hmem with h | h
  · cases h
  · exact h

/-- What a prepared plan with numeric views gives does not depend on the order of the simulations exactly
when its outputs are good, and its numbers do not wrap around. -/
theorem independent_iff (P : Plan ℚ) {o : ManagerObjects ℚ ManOutput} {model : Conditions ℚ}
    (hprep : P.withOutputs.prepare = .ok (o, model))
    {simulate : Conditions ℚ → Error × Views} {S : Shape}
    (hS : (P.withOutputs.batch o model).Shaped o.mOutputs simulate S) :
    (P.withOutputs.batch o model).Independent o.mOutputs simulate ↔
      o.inputsSize * o.replicasSize + P.slots ≤ 2 ^ 32 ∧
        ∀ out ∈ o.mOutputs, out.Good S o.replicasSize := by
  have hB := batch_wellFormed hprep
  have hos : ∀ out ∈ o.mOutputs, out.Allowed := fun out hout => by
    obtain ⟨id, val, hmake⟩ := prepare_outputs hprep hout
    exact ManOutput.make_allowed hmake
  constructor
  · intro h
    have hsmall := h.small hB hS
    exact ⟨hsmall, fun out hout => h.good hB (hS.counted hsmall) hS hos hout⟩
  · rintro ⟨hsmall, hgood⟩
    exact Batch.Counted.independent hB (hS.counted hsmall) hS hos hgood

/-- A plan of two inputs and two replicates, for two threads, with one output. -/
def twoByTwo (output : Value ℚ) : Plan ℚ where
  init := ([("input_c.a", .tuple [1, 2]), ("replicate_c.b", .tuple [3, 4]), ("output_o", output)].map
    fun e : String × Value ℚ => Sigma.mk e.1 e.2).toAList
  conditions := [Sigma.mk "c" { name := "c" }].toAList
  slots := 2
  slots_pos := by decide
  slots_lt := by decide
  rand := { State := Unit, getDouble := fun min _ s => (min, s) }
  seed := ()
  Output := ManOutput
  manOutput := ManOutput.make
  getId := ManOutput.id

/-- A view with one port and one value. -/
def oneValue : Views := fun _ => some
  { columns := 1, rows := 2, cell := fun _ r => if r = 0 then some (.string "p") else some (.double 5) }

/-- The simulations of these plans succeed, with numeric views. -/
theorem twoByTwo_shaped (output : Value ℚ) {out : ManOutput} {o : ManagerObjects ℚ ManOutput}
    {model : Conditions ℚ} (hprep : (twoByTwo output).withOutputs.prepare = .ok (o, model))
    (hin : o.mInputs = [{ cond := "c", port := "a", nbValues := 2 }])
    (hrepl : o.mReplicates = [{ cond := "c", port := "b", nbValues := 2 }])
    (hout : o.mOutputs = [out]) (hport : out.absolutePort = "p") (hmodel : "c" ∈ model) :
    (o.inputsSize = 2 ∧ o.replicasSize = 2) ∧
      ((twoByTwo output).withOutputs.batch o model).Shaped o.mOutputs (fun _ => ({}, oneValue))
        { header := fun _ => ["p"], rows := fun _ => 2 } := by
  have hN : o.inputsSize = 2 := by rw [ManagerObjects.inputsSize, hin]
  have hM : o.replicasSize = 2 := by rw [ManagerObjects.replicasSize, hrepl]
  have hB := batch_wellFormed hprep
  set B := (twoByTwo output).withOutputs.batch o model with hBdef
  have hBin : B.mInputs = [{ cond := "c", port := "a", nbValues := 2 }] := hin
  have hBrepl : B.mReplicates = [{ cond := "c", port := "b", nbValues := 2 }] := hrepl
  have hBN : B.inputsSize = 2 := hN
  have hBM : B.replicasSize = 2 := hM
  have ha : ManInput.values { cond := "c", port := "a", nbValues := 2 } B.init = .ok (.tuple [1, 2]) :=
    rfl
  have hb : ManReplicate.values { cond := "c", port := "b", nbValues := 2 } B.init =
    .ok (.tuple [3, 4]) := rfl
  have hU : B.Uniform := by
    refine ⟨?_, ?_, ?_, ?_, by rw [hBN, hBM]; decide⟩
    · rw [hBin, hBrepl]
      simp only [List.singleton_append, List.mem_cons, List.not_mem_nil, or_false, forall_eq_or_imp,
        forall_eq]
      exact ⟨hmodel, hmodel⟩
    · intro m hm v hv
      rw [hBin, List.mem_singleton] at hm
      rw [hm, ha] at hv
      cases hv
      rw [hBN]
      exact ⟨rfl, by simp [given]⟩
    · intro m hm v hv
      rw [hBrepl, List.mem_singleton] at hm
      rw [hm, hb] at hv
      cases hv
      rw [hBM]
      exact ⟨rfl, by simp [given]⟩
    · intro m hm r hr _ hport
      rw [hBin, List.mem_singleton] at hm
      rw [hBrepl, List.mem_singleton] at hr
      rw [hm, hr] at hport
      exact absurd hport (by decide)
  refine ⟨⟨hN, hM⟩, fun out' hout' => ?_, hU.pos, fun i hi => ?_⟩
  · rw [hout, List.mem_singleton] at hout'
    rw [hout']
    exact ⟨le_rfl, by rw [hport]; exact List.mem_singleton_self _⟩
  · obtain ⟨conds, hconds, -⟩ := hU.settings hB hi
    refine ⟨conds, hconds, rfl, fun out' _ => ⟨_, rfl, rfl, rfl, fun c hc => ?_,
      fun c _ r h1 _ => ⟨5, if_neg (by omega)⟩⟩⟩
    have hc0 : c = 0 := by simpa using hc
    subst hc0
    rfl

/-- The plan of two inputs and two replicates, with the last value of the view. -/
theorem independent_twoByTwo : ∃ (o : ManagerObjects ℚ ManOutput) (model : Conditions ℚ),
    (twoByTwo (.string "v/p")).withOutputs.prepare = .ok (o, model) ∧
      ((twoByTwo (.string "v/p")).withOutputs.batch o model).Independent o.mOutputs
        fun _ => ({}, oneValue) := by
  obtain ⟨o, model, hprep, hin, hrepl, hout, hmodel⟩ :
      ∃ (o : ManagerObjects ℚ ManOutput) (model : Conditions ℚ),
        (twoByTwo (.string "v/p")).withOutputs.prepare = .ok (o, model) ∧
          o.mInputs = [{ cond := "c", port := "a", nbValues := 2 }] ∧
          o.mReplicates = [{ cond := "c", port := "b", nbValues := 2 }] ∧
          o.mOutputs = [{ id := "o", view := "v", absolutePort := "p" }] ∧
          "c" ∈ model := ⟨_, _, rfl, rfl, rfl, rfl, by decide⟩
  obtain ⟨⟨hN, hM⟩, hS⟩ := twoByTwo_shaped (.string "v/p") hprep hin hrepl hout rfl hmodel
  refine ⟨o, model, hprep, (independent_iff _ hprep hS).mpr ⟨?_, fun out hmem => ?_⟩⟩
  · rw [hN, hM]
    decide
  · rw [hout, List.mem_singleton] at hmem
    rw [hmem]
    refine ⟨by decide, ⟨fun h => ?_, fun _ h => ?_⟩⟩ <;> cases h

/-- An output that keeps all values of a view and takes their mean over the inputs. -/
def allMean : Value ℚ := .map [("path", some (.string "v/p")), ("integration", some (.string "all")),
  ("aggregation_input", some (.string "mean"))]

/-- With such an output, the first insertion reads the first row of an accumulator without rows. -/
theorem not_independent_all_mean : ∃ (o : ManagerObjects ℚ ManOutput) (model : Conditions ℚ),
    (twoByTwo allMean).withOutputs.prepare = .ok (o, model) ∧
      ((twoByTwo allMean).withOutputs.batch o model).Shaped o.mOutputs (fun _ => ({}, oneValue))
        { header := fun _ => ["p"], rows := fun _ => 2 } ∧
      ¬ ((twoByTwo allMean).withOutputs.batch o model).Independent o.mOutputs
        fun _ => ({}, oneValue) := by
  obtain ⟨o, model, hprep, hin, hrepl, hout, hmodel⟩ :
      ∃ (o : ManagerObjects ℚ ManOutput) (model : Conditions ℚ),
        (twoByTwo allMean).withOutputs.prepare = .ok (o, model) ∧
          o.mInputs = [{ cond := "c", port := "a", nbValues := 2 }] ∧
          o.mReplicates = [{ cond := "c", port := "b", nbValues := 2 }] ∧
          o.mOutputs = [{ id := "o", view := "v", absolutePort := "p", integrationType := .ALL,
                          inputAggregationType := .S_mean }] ∧
          "c" ∈ model := ⟨_, _, rfl, rfl, rfl, rfl, by decide⟩
  obtain ⟨⟨hN, hM⟩, hS⟩ := twoByTwo_shaped allMean hprep hin hrepl hout rfl hmodel
  refine ⟨o, model, hprep, hS, fun h => ?_⟩
  have hB : ((twoByTwo allMean).withOutputs.batch o model).WellFormed := batch_wellFormed hprep
  have hos : ∀ out ∈ o.mOutputs, out.Allowed := by
    intro out hmem
    rw [hout, List.mem_singleton] at hmem
    rw [hmem]
    exact ⟨.inl rfl, by simp⟩
  have hgood := h.good hB (hS.counted (h.small hB hS)) hS hos (hout.symm ▸ List.mem_singleton_self _)
  have hone : o.replicasSize = 1 := hgood.2.all rfl (by simp)
  rw [hM] at hone
  cases hone

end Plan

end Vle.Manager
