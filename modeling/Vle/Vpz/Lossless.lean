import Vle.Vpz.Views

/-!
# Renaming and copying in the containers of an experiment

A rename is lossless when it leaves the record under its new name with all that it held, and the rest of
the container as it was, and when it leaves the whole container as it was when it throws. Each of the
operations is an erasure and an insertion, and what is lost depends on what comes in between:
`Conditions.rename` inserts before it erases, so that a condition does not survive its own name;
`Observables.rename` and `renameView` erase before they find the new name taken; `addCopy` builds a view
from the type, the timestep and the names only; `renameOutput` goes on from an erased element.
`lossless_iff` says for each exactly when it is lossless.
-/

namespace Vle.Vpz

open Lib Lib.EState

variable {D : Type}

/-- A program leaves a state with a property, or throws and leaves the state as it was. -/
def Leaves {σ : Type} (p : σ → Prop) (x : EStateM ViewFault σ Unit) (s : σ) : Prop :=
  wp x (fun _ s' => p s') (fun e s' => (∃ what, e = .thrown what) ∧ s' = s) s

section Leaves

variable {σ : Type} {p : σ → Prop} {x : EStateM ViewFault σ Unit} {s s' : σ}

theorem leaves_of_ok (h : x s = .ok () s') : Leaves p x s ↔ p s' := by
  rw [Leaves, wp, h]

theorem leaves_of_thrown {what : String} (h : x s = .error (.thrown what) s') :
    Leaves p x s ↔ s' = s := by
  rw [Leaves, wp, h]
  exact and_iff_right ⟨what, rfl⟩

end Leaves

/-! ## Conditions -/

namespace Conditions

/-- `m_list.find`. -/
def find (conds : Conditions D) (condition : String) : Option (Condition D) := conds.lookup condition

/-- A rename of a condition is lossless. -/
def Lossless (conds : Conditions D) (oldname newname : String) : Prop :=
  match conds.rename oldname newname with
  | .ok conds' =>
    Moved (fun c => { c with name := newname }) oldname newname conds.find conds'.find
  | .error e => ∃ what, e = .thrown what

theorem find_del (conds : Conditions D) {k : String} (hk : k ≠ defaultSimulationEngineCondName)
    (k' : String) : (conds.del k).find k' = if k' = k then none else conds.find k' := by
  rw [find, find, del, if_pos hk]
  split_ifs with h
  · rw [h, AList.lookup_erase]
  · exact AList.lookup_erase_ne h

theorem find_add (conds : Conditions D) {c : Condition D}
    (hc : c.name ≠ defaultSimulationEngineCondName) (k : String) :
    (conds.add c).find k = if k = c.name then some c else conds.find k := by
  have hnew : c.name ∉ conds.del c.name := by
    rw [← AList.lookup_eq_none]
    exact (find_del conds hc c.name).trans (if_pos rfl)
  simp only [add, if_neg hnew]
  split_ifs with h
  · rw [find, h, AList.lookup_insert]
  · rw [find, AList.lookup_insert_ne h]
    exact (find_del conds hc k).trans (if_neg h)

/-- A rename of a condition is lossless exactly when there is no such condition, or the new name is
another one that no condition has, and neither is the one of the simulation engine (which is not
renamed, so that its own name does no harm). -/
theorem lossless_iff (conds : Conditions D) (oldname newname : String) :
    conds.Lossless oldname newname ↔ conds.find oldname = none ∨
      (oldname = newname ∧ oldname = defaultSimulationEngineCondName) ∨
      (oldname ≠ newname ∧ conds.find newname = none ∧
        oldname ≠ defaultSimulationEngineCondName ∧ newname ≠ defaultSimulationEngineCondName) := by
  unfold Lossless rename
  by_cases hdefault : oldname ≠ defaultSimulationEngineCondName ∧
      newname ≠ defaultSimulationEngineCondName
  · rw [if_pos hdefault]
    obtain ⟨hold, hnew⟩ := hdefault
    cases hc : conds.find oldname with
    | none =>
      have hget : conds.get oldname = .error (missing oldname) := by rw [get, show conds.lookup oldname = _ from hc]
      rw [hget]
      exact iff_of_true ⟨_, rfl⟩ (.inl rfl)
    | some c =>
      have hget : conds.get oldname = .ok c := by rw [get, show conds.lookup oldname = _ from hc]
      have hfind : ∀ k, ((conds.add { c with name := newname }).del oldname).find k =
          if k = oldname then none else if k = newname then some { c with name := newname }
            else conds.find k := fun k => by
        rw [find_del _ hold, find_add _ hnew]
      rw [hget]
      simp only [bind, Except.bind, pure, Except.pure]
      by_cases hsame : newname = oldname
      · -- the condition is erased under its own name
        subst hsame
        rw [moved_self]
        refine iff_of_false (fun h => ?_) ?_
        · have := congrFun h newname
          rw [hfind, if_pos rfl, hc] at this
          cases this
        · rintro (h | ⟨-, h⟩ | ⟨h, -⟩)
          · cases h
          · exact hold h
          · exact h rfl
      · rw [moved_of_some hc hsame]
        constructor
        · rintro ⟨hnone, -⟩
          exact .inr (.inr ⟨Ne.symm hsame, hnone, hold, hnew⟩)
        · rintro (h | ⟨h, -⟩ | ⟨-, hnone, -⟩)
          · cases h
          · exact absurd h.symm hsame
          · refine ⟨hnone, fun k => ?_⟩
            rw [hfind]
            by_cases hk : k = newname
            · rw [if_neg (fun h => hsame (hk.symm.trans h)), if_pos hk, if_pos hk]
            · rw [if_neg hk, if_neg hk]
  · -- nothing is done
    rw [if_neg hdefault]
    dsimp only
    cases hc : conds.find oldname with
    | none => exact iff_of_true ((moved_of_none hc).mpr rfl) (.inl rfl)
    | some c =>
      by_cases hsame : newname = oldname
      · subst hsame
        refine iff_of_true (moved_self.mpr rfl) (.inr (.inl ⟨rfl, ?_⟩))
        by_contra hold
        exact hdefault ⟨hold, hold⟩
      · rw [moved_of_some hc hsame]
        refine iff_of_false ?_ ?_
        · rintro ⟨hnone, hall⟩
          have := hall newname
          rw [if_pos rfl, hnone] at this
          cases this
        · rintro (h | ⟨h, -⟩ | ⟨-, -, h⟩)
          · cases h
          · exact hsame h.symm
          · exact hdefault h

end Conditions

/-! ## Observables -/

namespace Observables

/-- A rename of an observable is lossless. -/
def Lossless (m : Observables) (old_name new_name : String) : Prop :=
  Leaves (fun m' => Moved (fun obs => { obs with name := new_name }) old_name new_name m.lookup
    m'.lookup) (rename old_name new_name) m

/-- The ports of a registry, added one after the other, are those of the registry. -/
theorem foldlM_addPort (ports : List ObservablePort) (obs : Observable)
    (hnodup : (ports.map ObservablePort.name).Nodup)
    (hnew : ∀ port ∈ ports, obs.list.lookup port.name = none) :
    ∃ list : Registry String ObservablePort ObservablePort.name,
      ports.foldlM addPort obs = .ok { obs with list := list } ∧
      ∀ k b, list.lookup k = some b ↔ obs.list.lookup k = some b ∨ b ∈ ports ∧ b.name = k := by
  induction ports generalizing obs with
  | nil => exact ⟨obs.list, rfl, fun k b => by simp⟩
  | cons port ports ih =>
    rw [List.map_cons, List.nodup_cons] at hnodup
    have hnone := hnew port List.mem_cons_self
    have hstep : addPort obs port = .ok { obs with list := obs.list.put port } := by
      rw [addPort, hnone]
    obtain ⟨list, hlist, hlookup⟩ := ih { obs with list := obs.list.put port } hnodup.2
      fun port' hport' => by
        have hne : port'.name ≠ port.name := fun h =>
          hnodup.1 (h ▸ List.mem_map_of_mem hport')
        dsimp only
        rw [Registry.lookup_put, if_neg hne]
        exact hnew port' (List.mem_cons_of_mem _ hport')
    refine ⟨list, ?_, fun k b => ?_⟩
    · rw [List.foldlM_cons, hstep]
      exact hlist
    · rw [hlookup]
      dsimp only
      rw [Registry.lookup_put, List.mem_cons]
      by_cases hk : k = port.name
      · subst hk
        rw [if_pos rfl, hnone]
        constructor
        · rintro (h | ⟨hmem, hname⟩)
          · cases h
            exact .inr ⟨.inl rfl, rfl⟩
          · exact .inr ⟨.inr hmem, hname⟩
        · rintro (h | ⟨rfl | hmem, hname⟩)
          · cases h
          · exact .inl rfl
          · exact .inr ⟨hmem, hname⟩
      · rw [if_neg hk]
        refine or_congr_right ⟨fun h => ⟨.inr h.1, h.2⟩, ?_⟩
        rintro ⟨rfl | hmem, hname⟩
        · exact absurd hname.symm hk
        · exact ⟨hmem, hname⟩

/-- The copy of an observable has its ports, with the views attached to them. -/
theorem foldlM_inOrder (obs : Observable) (new_name : String) :
    obs.list.inOrder.foldlM addPort ⟨new_name, Registry.empty⟩ =
      .ok { obs with name := new_name } := by
  obtain ⟨list, hlist, hlookup⟩ := foldlM_addPort obs.list.inOrder ⟨new_name, Registry.empty⟩
    obs.list.nodup_inOrder fun port _ => Registry.lookup_empty _
  rw [hlist]
  have : list = obs.list := Registry.ext_lookup fun k => Option.ext fun b => by
    rw [hlookup, Registry.lookup_empty, Registry.mem_inOrder]
    constructor
    · rintro (h | ⟨h, rfl⟩)
      · cases h
      · exact h
    · intro h
      exact .inr ⟨Registry.name_of_lookup h ▸ h, Registry.name_of_lookup h⟩
  rw [this]

/-- What a rename of an observable does. -/
theorem rename_run (m : Observables) (old_name new_name : String) {obs : Observable}
    (hobs : m.lookup old_name = some obs) : rename old_name new_name m =
      add { obs with name := new_name } (m.erase old_name) := by
  have hget : get old_name m = .ok obs m := by rw [get, inspect, hobs]
  have hports : (inspect fun _ => obs.list.inOrder.foldlM addPort ⟨new_name, Registry.empty⟩ :
      ObservablesM Observable) m = .ok { obs with name := new_name } m := by
    rw [inspect, foldlM_inOrder]
  rw [rename, bind_run hget, bind_run hports]
  rfl

/-- A rename of an observable is lossless exactly when there is no such observable, or the new name is
its own or one that no observable has. -/
theorem lossless_iff (m : Observables) (old_name new_name : String) :
    Lossless m old_name new_name ↔
      m.lookup old_name = none ∨ new_name = old_name ∨ m.lookup new_name = none := by
  unfold Lossless
  cases hobs : m.lookup old_name with
  | none =>
    have hget : get old_name m = .error (.thrown s!"Observable {old_name} does not exist") m := by
      rw [get, inspect, hobs]
    have hrun : rename old_name new_name m = _ := bind_run_error hget
    rw [leaves_of_thrown hrun]
    exact iff_of_true rfl (.inl rfl)
  | some obs =>
    have hrun := rename_run m old_name new_name hobs
    have herased := Registry.lookup_erase m old_name new_name
    unfold add at hrun
    cases hnew : (m.erase old_name).lookup new_name with
    | some obs' =>
      -- the new name is taken by another observable, and the old one is gone
      rw [hnew] at hrun
      rw [leaves_of_thrown hrun]
      refine iff_of_false (fun h => ?_) ?_
      · have := Registry.lookup_erase m old_name old_name
        rw [h, hobs, if_pos rfl] at this
        cases this
      · rw [herased] at hnew
        split_ifs at hnew with hsame
        rintro (h | h | h)
        · cases h
        · exact hsame h
        · rw [hnew] at h
          cases h
    | none =>
      rw [hnew] at hrun
      rw [leaves_of_ok hrun]
      by_cases hsame : new_name = old_name
      · subst hsame
        refine iff_of_true (moved_self.mpr ?_) (.inr (.inl rfl))
        have hname : { obs with name := new_name } = obs := by
          rw [← Registry.name_of_lookup hobs]
        funext k
        rw [Registry.lookup_put, Registry.lookup_erase]
        by_cases hk : k = new_name
        · subst hk
          rw [if_pos rfl, hobs, hname]
        · rw [if_neg hk, if_neg hk]
      · have hnone : m.lookup new_name = none := by rwa [herased, if_neg hsame] at hnew
        refine iff_of_true ((moved_of_some hobs hsame).mpr ⟨hnone, fun k => ?_⟩) (.inr (.inr hnone))
        rw [Registry.lookup_put, Registry.lookup_erase]

end Observables

/-! ## Outputs -/

namespace Outputs

/-- The output that `addStream` adds. -/
def stream (name : String) (o : Output D) : Output D := { o with name := name, data := none }

/-- `addStream` takes a name for an output. -/
def Takes (m : Outputs D) (name : String) (o : Output D) : Prop :=
  o.plugin ≠ "" ∧ m.lookup name = none

theorem addStream_of_takes {m : Outputs D} {name : String} {o : Output D} (h : Takes m name o) :
    addStream name o.location o.plugin o.package m = .ok () (m.put (stream name o)) := by
  have hset : (inspect fun _ => Output.setStream ⟨name, "", "", "", none⟩ o.location o.plugin o.package :
      OutputsM D (Output D)) m = .ok (stream name o) m := by
    rw [inspect, Output.setStream, if_neg h.1]
    rfl
  rw [addStream, bind_run hset, add, show m.lookup (stream name o).name = none from h.2]

theorem addStream_of_not_takes {m : Outputs D} {name : String} {o : Output D}
    (h : ¬ Takes m name o) :
    ∃ what, addStream name o.location o.plugin o.package m = .error (.thrown what) m := by
  by_cases hplugin : o.plugin = ""
  · have hset : (inspect fun _ => Output.setStream ⟨name, "", "", "", none⟩ o.location o.plugin
        o.package : OutputsM D (Output D)) m =
          .error (.thrown s!"Output '{name}' have not plugin defined") m := by
      rw [inspect, Output.setStream, if_pos hplugin]
    exact ⟨_, bind_run_error hset⟩
  · have hset : (inspect fun _ => Output.setStream ⟨name, "", "", "", none⟩ o.location o.plugin
        o.package : OutputsM D (Output D)) m = .ok (stream name o) m := by
      rw [inspect, Output.setStream, if_neg hplugin]
      rfl
    cases hname : m.lookup name with
    | none => exact absurd ⟨hplugin, hname⟩ h
    | some o' =>
      refine ⟨s!"An output have already this name '{name}'\n", ?_⟩
      rw [addStream, bind_run hset, add, show m.lookup (stream name o).name = some o' from hname]
      rfl

theorem get_of_some {m : Outputs D} {name : String} {o : Output D} (h : m.lookup name = some o) :
    get name m = .ok o m := by
  rw [get, inspect, h]

theorem get_of_none {m : Outputs D} {name : String} (h : m.lookup name = none) :
    get name m = .error (.thrown s!"Unknow output '{name}'\n") m := by
  rw [get, inspect, h]

/-- A rename of an output erases it and adds it again. -/
theorem rename_run {m : Outputs D} {oldname : String} (newname : String) {o : Output D}
    (h : m.lookup oldname = some o) : rename oldname newname m =
      addStream newname o.location o.plugin o.package (m.erase oldname) := by
  rw [rename, bind_run (get_of_some h)]
  rfl

end Outputs

/-! ## Views -/

namespace Views

theorem withOutputs_ok {α : Type} {x : EStateM ViewFault (Outputs D) α} {v : Views D}
    {m : Outputs D} {a : α} (h : x v.outputs = .ok a m) :
    withOutputs x v = .ok a { v with outputs := m } := by
  rw [withOutputs, onPart, h]

theorem withOutputs_error {α : Type} {x : EStateM ViewFault (Outputs D) α} {v : Views D}
    {m : Outputs D} {e : ViewFault} (h : x v.outputs = .error e m) :
    withOutputs x v = .error e { v with outputs := m } := by
  rw [withOutputs, onPart, h]

theorem get_of_some {v : Views D} {name : String} {x : View D} (h : v.list.lookup name = some x) :
    Views.get name v = .ok x v := by
  rw [Views.get, inspect, h]

theorem get_of_none {v : Views D} {name : String} (h : v.list.lookup name = none) :
    Views.get name v = .error (.thrown s!"Unknow view '{name}'\n") v := by
  rw [Views.get, inspect, h]

/-- An output is used exactly when a view has it. -/
theorem isUsedOutput_eq_false {v : Views D} {name : String} : v.isUsedOutput name = false ↔
    ∀ k x, v.list.lookup k = some x → x.output ≠ name := by
  rw [← Bool.not_eq_true, isUsedOutput, Registry.any_iff]
  constructor
  · intro h k x hx heq
    exact h ⟨k, x, hx, by rw [heq, beq_self_eq_true]⟩
  · rintro h ⟨k, x, hx, heq⟩
    exact h k x hx (beq_iff_eq.mp heq)

/-- A view under another name, with the output of its old name under that name too. -/
def renamedView (oldname newname : String) (x : View D) : View D :=
  { x with name := newname, output := if x.output = oldname then newname else x.output }

theorem renamedView_self (x : View D) : renamedView x.name x.name x = x := by
  obtain ⟨n, t, o, s, e, d⟩ := x
  unfold renamedView
  dsimp only
  split_ifs with h
  · rw [h]
  · rfl

/-- The name of the output of a copy with a number. -/
def numbered (output : String) (n : ℕ) : String := output ++ "_" ++ toString n

theorem numbered_injective (output : String) : Function.Injective (numbered output) := by
  intro n n' h
  have hlist := congrArg String.toList h
  simp only [numbered, String.toList_append, List.append_cancel_left_eq] at hlist
  have hdigits := congrArg (Nat.ofDigitChars 10 · 0) hlist
  simpa using hdigits

/-- The first number whose name no output has. -/
def FirstFree (v : Views D) (output : String) (n : ℕ) : Prop :=
  1 ≤ n ∧ v.outputs.lookup (numbered output n) = none ∧
    ∀ j, 1 ≤ j → j < n → v.outputs.lookup (numbered output j) ≠ none

/-- Where the loop over the numbers ends: at the first name that no output has, or when its turns are
over. -/
theorem freshOutput_spec (v : Views D) (output : String) (turns number : ℕ) :
    ∃ n, number ≤ n ∧ n ≤ number + turns ∧ v.freshOutput output turns number = numbered output n ∧
      (∀ j, number ≤ j → j < n → v.outputs.lookup (numbered output j) ≠ none) ∧
      (n < number + turns → v.outputs.lookup (numbered output n) = none) := by
  induction turns generalizing number with
  | zero => exact ⟨number, le_rfl, le_rfl, rfl, fun j h h' => by omega, fun h => by omega⟩
  | succ turns ih =>
    by_cases hsome : (v.outputs.lookup (numbered output number)).isSome
    · obtain ⟨n, hle, hlast, heq, hbefore, hfree⟩ := ih (number + 1)
      refine ⟨n, by omega, by omega, ?_, fun j hj hjn => ?_, fun h => hfree (by omega)⟩
      · exact (if_pos hsome).trans heq
      · rcases Nat.eq_or_lt_of_le hj with rfl | hlt
        · exact Option.isSome_iff_ne_none.mp hsome
        · exact hbefore j hlt hjn
    · refine ⟨number, le_rfl, by omega, if_neg hsome, fun j h h' => by omega, fun _ => ?_⟩
      exact Option.not_isSome_iff_eq_none.mp hsome

/-- The loop ends at a name that no output has: there are not enough outputs to have all the names. -/
theorem freshOutput_eq (v : Views D) (output : String) : ∃ n, v.FirstFree output n ∧
    v.freshOutput output v.outputs.keys.card 1 = numbered output n := by
  obtain ⟨n, hle, hlast, heq, hbefore, hfree⟩ := freshOutput_spec v output v.outputs.keys.card 1
  refine ⟨n, ⟨hle, ?_, hbefore⟩, heq⟩
  by_contra hsome
  have hall : ∀ j ∈ Finset.Icc 1 n, numbered output j ∈ v.outputs.keys := fun j hj => by
    obtain ⟨h₁, h₂⟩ := Finset.mem_Icc.mp hj
    have hne : v.outputs.lookup (numbered output j) ≠ none := by
      rcases Nat.eq_or_lt_of_le h₂ with rfl | hlt
      · exact hsome
      · exact hbefore j h₁ hlt
    exact Registry.mem_keys.mpr (Option.ne_none_iff_exists'.mp hne)
  have hcard := Finset.card_le_card_of_injOn (numbered output) hall
    (numbered_injective output).injOn
  rw [Nat.card_Icc] at hcard
  exact hsome (hfree (by omega))

theorem FirstFree.unique {v : Views D} {output : String} {n n' : ℕ} (h : v.FirstFree output n)
    (h' : v.FirstFree output n') : n = n' := by
  rcases Nat.lt_trichotomy n n' with hlt | heq | hlt
  · exact absurd h.2.1 (h'.2.2 n h.1 hlt)
  · exact heq
  · exact absurd h'.2.1 (h.2.2 n' h'.1 hlt)

/-- The outputs after a copy of one. -/
def copiedOutputs (v : Views D) (o : Output D) (copyname : String) : Outputs D :=
  (v.outputs.put (Outputs.stream copyname o)).put { o with name := copyname }

theorem lookup_copiedOutputs (v : Views D) (o : Output D) (copyname k : String) :
    (copiedOutputs v o copyname).lookup k =
      if k = copyname then some { o with name := copyname } else v.outputs.lookup k := by
  rw [copiedOutputs, Registry.lookup_put, Registry.lookup_put]
  by_cases hk : k = copyname
  · rw [if_pos hk, if_pos hk]
  · rw [if_neg hk, if_neg hk]
    exact if_neg hk

/-- A copy of an output has its data too. -/
theorem copyOutput_run {v : Views D} {outputname copyname : String} {o : Output D}
    (ho : v.outputs.lookup outputname = some o) (hplugin : o.plugin ≠ "")
    (hnone : v.outputs.lookup copyname = none) : copyOutput outputname copyname v =
      .ok () { v with outputs := copiedOutputs v o copyname } := by
  have hadd : Outputs.addStream copyname o.location o.plugin o.package v.outputs = _ :=
    Outputs.addStream_of_takes ⟨hplugin, hnone⟩
  have hcopy : (v.outputs.put (Outputs.stream copyname o)).lookup copyname =
      some (Outputs.stream copyname o) :=
    (Registry.lookup_put _ _ _).trans (if_pos rfl)
  rw [copyOutput, bind_run (withOutputs_ok (Outputs.get_of_some ho)),
    bind_run (withOutputs_ok hadd), modify_run, hcopy]
  rfl

/-- A copy of an output without a plugin is refused. -/
theorem copyOutput_refused {v : Views D} {outputname : String} (copyname : String)
    (h : ∀ o, v.outputs.lookup outputname = some o → o.plugin = "") :
    ∃ what, copyOutput outputname copyname v = .error (.thrown what) v := by
  cases ho : v.outputs.lookup outputname with
  | none => exact ⟨_, bind_run_error (withOutputs_error (Outputs.get_of_none ho))⟩
  | some o =>
    obtain ⟨what, hwhat⟩ := Outputs.addStream_of_not_takes (m := v.outputs)
      fun htakes => htakes.1 (h o ho)
    exact ⟨what, (bind_run (withOutputs_ok (Outputs.get_of_some ho))).trans
      (bind_run_error (withOutputs_error hwhat))⟩

section

variable [Zero D] [LE D]

/-- The view that `addCopy` builds. -/
def copyOf (copy : View D) (name output : String) : View D :=
  ⟨name, copy.type, output, if copy.type = View.TIMED then copy.timestep else 0, true, ""⟩

/-- `addCopy` takes a name and an output for a copy. -/
def Takes (v : Views D) (copy : View D) (name output : String) : Prop :=
  v.isUsedOutput output = false ∧ ¬ (copy.type = View.TIMED ∧ copy.timestep ≤ 0) ∧
    v.list.lookup name = none

/-- The constructor makes a view as it is, but for its name and its output: it is enabled and has no
data, and it has a timestep exactly when it is timed. -/
def Rebuilt (x : View D) : Prop :=
  x.enabled = true ∧ x.data = "" ∧ if x.type = View.TIMED then ¬ x.timestep ≤ 0 else x.timestep = 0

theorem Rebuilt.timestep {x : View D} (h : Rebuilt x) :
    ¬ (x.type = View.TIMED ∧ x.timestep ≤ 0) := by
  rintro ⟨htimed, hle⟩
  have := h.2.2
  rw [if_pos htimed] at this
  exact this hle

theorem copyOf_eq_iff {x : View D} {name output output' : String}
    (hstep : ¬ (x.type = View.TIMED ∧ x.timestep ≤ 0)) :
    copyOf x name output = { x with name := name, output := output' } ↔
      Rebuilt x ∧ output' = output := by
  unfold copyOf Rebuilt
  obtain ⟨n, t, o, s, e, d⟩ := x
  dsimp only at hstep ⊢
  rw [View.mk.injEq]
  by_cases ht : t = View.TIMED
  · have hs : ¬ s ≤ 0 := fun h => hstep ⟨ht, h⟩
    simp only [ht, if_true, hs, not_false_eq_true]
    constructor
    · rintro ⟨-, -, ho, -, he, hd⟩
      exact ⟨⟨he.symm, hd.symm, trivial⟩, ho.symm⟩
    · rintro ⟨⟨he, hd, -⟩, ho⟩
      exact ⟨trivial, trivial, ho.symm, trivial, he.symm, hd.symm⟩
  · simp only [ht, if_false]
    constructor
    · rintro ⟨-, -, ho, hs, he, hd⟩
      exact ⟨⟨he.symm, hd.symm, hs.symm⟩, ho.symm⟩
    · rintro ⟨⟨he, hd, hs⟩, ho⟩
      exact ⟨trivial, trivial, ho.symm, hs.symm, he.symm, hd.symm⟩

/-- When the copy of a view is taken after the view has been erased. -/
theorem takes_erased_iff (v w : Views D) (oldname newname output : String) (x : View D)
    (hw : w.list = v.list.erase oldname) : w.Takes x newname output ↔
      (∀ k y, k ≠ oldname → v.list.lookup k = some y → y.output ≠ output) ∧
        ¬ (x.type = View.TIMED ∧ x.timestep ≤ 0) ∧
        (newname = oldname ∨ v.list.lookup newname = none) := by
  have hlookup : ∀ k, w.list.lookup k = if k = oldname then none else v.list.lookup k := fun k => by
    rw [hw, Registry.lookup_erase]
  unfold Takes
  rw [isUsedOutput_eq_false]
  refine and_congr ?_ (and_congr_right fun _ => ?_)
  · constructor
    · intro h k y hk hy
      exact h k y (by rw [hlookup, if_neg hk, hy])
    · intro h k y hy
      rw [hlookup] at hy
      split_ifs at hy with hk
      exact h k y hk hy
  · rw [hlookup]
    split_ifs with hk
    · exact iff_of_true rfl (.inl hk)
    · rw [or_iff_right hk]

variable [DecidableLE D] [ToString D]

theorem addView_of_used {v : Views D} {output : String} (h : v.isUsedOutput output = true)
    (name : String) (type : ℕ) (timestep : D) (enable : Bool) :
    addView name type timestep output enable v =
      .error (.thrown s!"Output '{output}' of view '{name}' is already used") v := by
  have hget : (getThe (Views D) : ViewsM D (Views D)) v = .ok v v := rfl
  rw [addView, bind_run hget, if_pos h]
  rfl

theorem addView_of_free {v : Views D} {output : String} (h : v.isUsedOutput output = false)
    (name : String) (type : ℕ) (timestep : D) (enable : Bool) :
    addView name type timestep output enable v =
      ((inspect fun _ => View.make name type output timestep enable) >>= add : ViewsM D Unit) v := by
  have hget : (getThe (Views D) : ViewsM D (Views D)) v = .ok v v := rfl
  rw [addView, bind_run hget, if_neg (Bool.eq_false_iff.mp h)]

/-- `addCopy` is `addView` with the type of the copy. -/
theorem addCopy_eq (copy : View D) (name output : String) : addCopy copy name output =
    addView name copy.type (if copy.type = View.TIMED then copy.timestep else 0) output true := by
  unfold addCopy addTimedView addEventView
  by_cases h : copy.type = View.TIMED
  · rw [if_pos h, if_pos h, h]
  · rw [if_neg h, if_neg h]

/-- When the constructor of a view throws. -/
theorem make_copy (copy : View D) (name output : String) :
    View.make name copy.type output (if copy.type = View.TIMED then copy.timestep else 0) true =
      if copy.type = View.TIMED ∧ copy.timestep ≤ 0 then
        .error (View.badTimestep name copy.timestep)
      else .ok (copyOf copy name output) := by
  unfold View.make copyOf
  by_cases h : copy.type = View.TIMED
  · simp only [h, if_true, true_and]
  · simp only [h, if_false, false_and]

theorem addCopy_of_takes {v : Views D} {copy : View D} {name output : String}
    (h : v.Takes copy name output) : addCopy copy name output v =
      .ok () { v with list := v.list.put (copyOf copy name output) } := by
  obtain ⟨hfree, hstep, hnone⟩ := h
  have hmake : (inspect fun _ => View.make name copy.type output
      (if copy.type = View.TIMED then copy.timestep else 0) true : ViewsM D (View D)) v =
        .ok (copyOf copy name output) v := by
    rw [inspect, make_copy, if_neg hstep]
  rw [addCopy_eq, addView_of_free hfree, bind_run hmake, add,
    show v.list.lookup (copyOf copy name output).name = none from hnone]

theorem addCopy_of_not_takes {v : Views D} {copy : View D} {name output : String}
    (h : ¬ v.Takes copy name output) :
    ∃ what, addCopy copy name output v = .error (.thrown what) v := by
  rw [addCopy_eq]
  cases hfree : v.isUsedOutput output with
  | true => exact ⟨_, addView_of_used hfree _ _ _ _⟩
  | false =>
    rw [addView_of_free hfree]
    by_cases hstep : copy.type = View.TIMED ∧ copy.timestep ≤ 0
    · have hmake : (inspect fun _ => View.make name copy.type output
          (if copy.type = View.TIMED then copy.timestep else 0) true : ViewsM D (View D)) v =
            .error (View.badTimestep name copy.timestep) v := by
        rw [inspect, make_copy, if_pos hstep]
      exact ⟨_, bind_run_error hmake⟩
    · have hmake : (inspect fun _ => View.make name copy.type output
          (if copy.type = View.TIMED then copy.timestep else 0) true : ViewsM D (View D)) v =
            .ok (copyOf copy name output) v := by
        rw [inspect, make_copy, if_neg hstep]
      cases hname : v.list.lookup name with
      | none => exact absurd ⟨hfree, hstep, hname⟩ h
      | some x =>
        refine ⟨s!"View '{name}' already exist", ?_⟩
        rw [bind_run hmake, add, show v.list.lookup (copyOf copy name output).name = some x from hname]
        rfl

/-! ### Renaming an output -/

/-- A rename of an output is lossless: each view that has it has the new one instead. -/
def RenameOutputLossless (v : Views D) (oldname newname : String) : Prop :=
  Leaves (fun v' =>
    (∀ k, v'.list.lookup k = (v.list.lookup k).map fun x =>
      if x.output = oldname then { x with output := newname } else x) ∧
    v'.outputs = v.outputs ∧ v'.observables = v.observables) (renameOutput oldname newname) v

/-- A rename of an output is lossless exactly when no view has the output. -/
theorem renameOutput_lossless_iff (v : Views D) (oldname newname : String) :
    v.RenameOutputLossless oldname newname ↔
      ∀ k x, v.list.lookup k = some x → x.output ≠ oldname := by
  have hget : (getThe (Views D) : ViewsM D (Views D)) v = .ok v v := rfl
  unfold RenameOutputLossless
  cases hfind : v.list.inOrder.find? (·.output == oldname) with
  | none =>
    have hunused : ∀ k x, v.list.lookup k = some x → x.output ≠ oldname := fun k x hx heq => by
      have hmem := Registry.mem_inOrder.mpr (Registry.name_of_lookup hx ▸ hx)
      exact List.find?_eq_none.mp hfind x hmem (beq_iff_eq.mpr heq)
    have hrun : renameOutput oldname newname v = .ok () v := by
      rw [renameOutput, bind_run hget, hfind]
      rfl
    rw [leaves_of_ok hrun]
    refine iff_of_true ⟨fun k => ?_, rfl, rfl⟩ hunused
    cases hx : v.list.lookup k with
    | none => rfl
    | some x => rw [Option.map_some, if_neg (hunused k x hx)]
  | some x =>
    have hx := Registry.mem_inOrder.mp (List.mem_of_find?_eq_some hfind)
    have hout : x.output = oldname := beq_iff_eq.mp (List.find?_some (p := fun y : View D => y.output == oldname) hfind)
    refine iff_of_false (fun h => ?_) fun h => h _ x hx hout
    -- the view is erased, and its copy is refused, or the loop goes on from the erased element
    set w : Views D := { v with list := v.list.erase x.name } with hw
    have hrun : renameOutput oldname newname v =
        (addCopy x x.name newname >>= fun _ => throw .erasedIterator) w := by
      rw [renameOutput, bind_run hget, hfind]
      dsimp only
      rw [bind_run (get_of_some hx)]
      rfl
    by_cases htakes : w.Takes x x.name newname
    · have hrun' : renameOutput oldname newname v = _ :=
        hrun.trans (bind_run (addCopy_of_takes htakes))
      rw [Leaves, wp, hrun'] at h
      obtain ⟨⟨what, hwhat⟩, -⟩ := h
      cases hwhat
    · obtain ⟨what, hwhat⟩ := addCopy_of_not_takes htakes
      have hrun' : renameOutput oldname newname v = _ := hrun.trans (bind_run_error hwhat)
      rw [leaves_of_thrown hrun'] at h
      have hgone := Registry.lookup_erase v.list x.name x.name
      rw [if_pos rfl, show v.list.erase x.name = v.list from congrArg Views.list h, hx] at hgone
      cases hgone

/-! ### Renaming a view -/

/-- A rename of a view, and of the output of its name, is lossless. -/
def RenameViewLossless (v : Views D) (oldname newname : String) : Prop :=
  Leaves (fun v' =>
    Moved (renamedView oldname newname) oldname newname v.list.lookup v'.list.lookup ∧
    Moved (fun o => { o with name := newname }) oldname newname v.outputs.lookup v'.outputs.lookup ∧
    v'.observables = v.observables) (renameView oldname newname) v

/-- What a rename of a view and of its output asks for. -/
structure RenameFits (v : Views D) (oldname newname : String) (x : View D) (o : Output D) : Prop where
  plugin : o.plugin ≠ ""
  data : o.data = none
  free : newname = oldname ∨ v.list.lookup newname = none ∧ v.outputs.lookup newname = none
  unused : ∀ k y, k ≠ oldname → v.list.lookup k = some y → y.output ≠ newname
  rebuilt : Rebuilt x
  output : x.output = oldname ∨ x.output = newname

/-- A rename of a view is lossless exactly when there is no such view or output, or all that the
operation asks for is so. -/
theorem renameView_lossless_iff (v : Views D) (oldname newname : String) :
    v.RenameViewLossless oldname newname ↔ v.list.lookup oldname = none ∨
      v.outputs.lookup oldname = none ∨ ∃ x o, v.list.lookup oldname = some x ∧
        v.outputs.lookup oldname = some o ∧ v.RenameFits oldname newname x o := by
  unfold RenameViewLossless
  cases hx : v.list.lookup oldname with
  | none =>
    have hrun : renameView oldname newname v = _ := bind_run_error (get_of_none hx)
    rw [leaves_of_thrown hrun]
    exact iff_of_true rfl (.inl rfl)
  | some x =>
    cases ho : v.outputs.lookup oldname with
    | none =>
      have hrename : Outputs.rename oldname newname v.outputs = _ :=
        bind_run_error (Outputs.get_of_none ho)
      have hrun : renameView oldname newname v = _ :=
        (bind_run (get_of_some hx)).trans (bind_run_error (withOutputs_error hrename))
      rw [leaves_of_thrown hrun]
      exact iff_of_true rfl (.inr (.inl rfl))
    | some o =>
      have hgone : ∀ w : Views D, w = v → w.list.lookup oldname = none → False := fun w hw h => by
        rw [hw, hx] at h
        cases h
      have hiff : (some x = none ∨ some o = none ∨ ∃ x' o', some x = some x' ∧ some o = some o' ∧
          v.RenameFits oldname newname x' o') ↔ v.RenameFits oldname newname x o := by
        simp
      rw [hiff]
      by_cases houtput : Outputs.Takes (v.outputs.erase oldname) newname o
      · -- the output has its new name, and the view is erased
        set w : Views D := ⟨v.list.erase oldname,
          (v.outputs.erase oldname).put (Outputs.stream newname o), v.observables⟩ with hw
        have hrename := (Outputs.rename_run newname ho).trans
          (Outputs.addStream_of_takes houtput)
        have hrun : renameView oldname newname v = addCopy x newname newname w := by
          rw [renameView, bind_run (get_of_some hx), bind_run (withOutputs_ok hrename)]
          rfl
        have hnone : w.list.lookup oldname = none :=
          (Registry.lookup_erase _ _ _).trans (if_pos rfl)
        have htakesiff := takes_erased_iff v w oldname newname newname x rfl
        by_cases htakes : w.Takes x newname newname
        · rw [leaves_of_ok (hrun.trans (addCopy_of_takes htakes))]
          obtain ⟨hunused, hstep, hfree⟩ := htakesiff.mp htakes
          have hfree' : newname = oldname ∨ v.outputs.lookup newname = none := by
            have := houtput.2
            rw [Registry.lookup_erase] at this
            split_ifs at this with hsame
            · exact .inl hsame
            · exact .inr this
          have hview : Moved (renamedView oldname newname) oldname newname v.list.lookup
              ((v.list.erase oldname).put (copyOf x newname newname)).lookup ↔
                copyOf x newname newname = renamedView oldname newname x := by
            refine moved_put_iff hx rfl (fun hsame => ?_) hfree
            rw [hsame, ← Registry.name_of_lookup hx]
            exact renamedView_self x
          have houtputs : Moved (fun o => { o with name := newname }) oldname newname
              v.outputs.lookup w.outputs.lookup ↔
                Outputs.stream newname o = { o with name := newname } := by
            refine moved_put_iff ho rfl (fun hsame => ?_) hfree'
            rw [hsame, ← Registry.name_of_lookup ho]
          have hdata : Outputs.stream newname o = { o with name := newname } ↔ o.data = none := by
            unfold Outputs.stream
            rw [Output.mk.injEq]
            simp only [true_and]
            exact eq_comm
          have hout : (if x.output = oldname then newname else x.output) = newname ↔
              x.output = oldname ∨ x.output = newname := by
            split_ifs with hold
            · exact iff_of_true rfl (.inl hold)
            · rw [or_iff_right hold]
          rw [hview, houtputs, hdata, renamedView, copyOf_eq_iff hstep, hout]
          constructor
          · rintro ⟨⟨hrebuilt, hout⟩, hnodata, -⟩
            refine ⟨houtput.1, hnodata, ?_, hunused, hrebuilt, hout⟩
            by_cases hsame : newname = oldname
            · exact .inl hsame
            · exact .inr ⟨hfree.resolve_left hsame, hfree'.resolve_left hsame⟩
          · intro h
            exact ⟨⟨h.rebuilt, h.output⟩, h.data, rfl⟩
        · obtain ⟨what, hwhat⟩ := addCopy_of_not_takes htakes
          rw [leaves_of_thrown (hrun.trans hwhat)]
          refine iff_of_false (fun h => hgone w h hnone) fun h => htakes ?_
          exact htakesiff.mpr ⟨h.unused, h.rebuilt.timestep, h.free.imp id And.left⟩
      · -- the output is erased, and not added again
        obtain ⟨what, hwhat⟩ := Outputs.addStream_of_not_takes houtput
        have hrename := (Outputs.rename_run newname ho).trans hwhat
        have hrun : renameView oldname newname v = _ :=
          (bind_run (get_of_some hx)).trans (bind_run_error (withOutputs_error hrename))
        rw [leaves_of_thrown hrun]
        refine iff_of_false (fun h => ?_) fun h => houtput ⟨h.plugin, ?_⟩
        · have := (Registry.lookup_erase v.outputs oldname oldname).trans (if_pos rfl)
          rw [show v.outputs.erase oldname = v.outputs from congrArg Views.outputs h, ho] at this
          cases this
        · rw [Registry.lookup_erase]
          split_ifs with hsame
          · rfl
          · exact (h.free.resolve_left hsame).2

/-! ### Copying a view -/

/-- A copy of a view, with a copy of its output, is lossless. -/
def CopyViewLossless (v : Views D) (viewname copyname : String) : Prop :=
  Leaves (fun v' => ∃ x o copyoutputname, v.list.lookup viewname = some x ∧
    v.outputs.lookup x.output = some o ∧
    Added copyname { x with name := copyname, output := copyoutputname } v.list.lookup
      v'.list.lookup ∧
    Added copyoutputname { o with name := copyoutputname } v.outputs.lookup v'.outputs.lookup ∧
    v'.observables = v.observables) (copyView viewname copyname) v

/-- A copy of a view is lossless exactly when there is no such view or no such output of it, or its
output has no plugin, or the view is as the constructor makes one, the new name is free, and no view has
the output of the copy, which is the first number that is free. -/
theorem copyView_lossless_iff (v : Views D) (viewname copyname : String) :
    v.CopyViewLossless viewname copyname ↔ v.list.lookup viewname = none ∨
      ∃ x, v.list.lookup viewname = some x ∧ (v.outputs.lookup x.output = none ∨
        ∃ o, v.outputs.lookup x.output = some o ∧ (o.plugin = "" ∨
          Rebuilt x ∧ v.list.lookup copyname = none ∧ ∀ n, v.FirstFree x.output n →
            ∀ k y, v.list.lookup k = some y → y.output ≠ numbered x.output n)) := by
  have hget : (getThe (Views D) : ViewsM D (Views D)) v = .ok v v := rfl
  unfold CopyViewLossless
  cases hx : v.list.lookup viewname with
  | none =>
    have hrun : copyView viewname copyname v = _ := bind_run_error (get_of_none hx)
    rw [leaves_of_thrown hrun]
    exact iff_of_true rfl (.inl rfl)
  | some x =>
    obtain ⟨n, hfirst, hfresh⟩ := freshOutput_eq v x.output
    have hrun : copyView viewname copyname v =
        (copyOutput x.output (numbered x.output n) >>= fun _ =>
          addCopy x copyname (numbered x.output n)) v := by
      rw [copyView, bind_run (get_of_some hx), bind_run hget, hfresh]
    by_cases hout : ∀ o, v.outputs.lookup x.output = some o → o.plugin = ""
    · obtain ⟨what, hwhat⟩ := copyOutput_refused (numbered x.output n) hout
      rw [leaves_of_thrown (hrun.trans (bind_run_error hwhat))]
      refine iff_of_true rfl (.inr ⟨x, rfl, ?_⟩)
      cases ho : v.outputs.lookup x.output with
      | none => exact .inl rfl
      | some o => exact .inr ⟨o, rfl, .inl (hout o ho)⟩
    · simp only [not_forall] at hout
      obtain ⟨o, ho, hplugin⟩ := hout
      have hcond : (some x = none ∨ ∃ x', some x = some x' ∧ (v.outputs.lookup x'.output = none ∨
          ∃ o', v.outputs.lookup x'.output = some o' ∧ (o'.plugin = "" ∨
            Rebuilt x' ∧ v.list.lookup copyname = none ∧ ∀ n, v.FirstFree x'.output n →
              ∀ k y, v.list.lookup k = some y → y.output ≠ numbered x'.output n))) ↔
          Rebuilt x ∧ v.list.lookup copyname = none ∧
            ∀ k y, v.list.lookup k = some y → y.output ≠ numbered x.output n := by
        constructor
        · rintro (h | ⟨x', hx', h | ⟨o', ho', h | ⟨hr, hc, hall⟩⟩⟩)
          · cases h
          · cases hx'
            rw [ho] at h
            cases h
          · cases hx'
            rw [ho] at ho'
            cases ho'
            exact absurd h hplugin
          · cases hx'
            exact ⟨hr, hc, hall n hfirst⟩
        · rintro ⟨hr, hc, hall⟩
          refine .inr ⟨x, rfl, .inr ⟨o, ho, .inr ⟨hr, hc, fun n' hn' => ?_⟩⟩⟩
          rw [hn'.unique hfirst]
          exact hall
      rw [hcond]
      have hcopy := copyOutput_run ho hplugin hfirst.2.1
      set w : Views D := { v with outputs := copiedOutputs v o (numbered x.output n) } with hw
      rw [bind_run hcopy] at hrun
      have hmem : w.outputs.lookup (numbered x.output n) ≠ none := by
        rw [hw, lookup_copiedOutputs, if_pos rfl]
        exact Option.some_ne_none _
      by_cases htakes : w.Takes x copyname (numbered x.output n)
      · rw [leaves_of_ok (hrun.trans (addCopy_of_takes htakes))]
        obtain ⟨hfree, hstep, hnone⟩ := htakes
        have hunused := isUsedOutput_eq_false.mp hfree
        constructor
        · rintro ⟨x', o', name, hx', ho', ⟨-, hlist⟩, ⟨hname, houtputs⟩, -⟩
          cases hx'
          -- the new output is the one that was added
          have heq : name = numbered x.output n := by
            by_contra hne
            have := houtputs name
            rw [hw, lookup_copiedOutputs, if_neg hne, if_pos rfl, hname] at this
            cases this
          have hview := hlist copyname
          rw [if_pos rfl, heq] at hview
          have hput : (w.list.put (copyOf x copyname (numbered x.output n))).lookup copyname =
              some (copyOf x copyname (numbered x.output n)) :=
            (Registry.lookup_put _ _ _).trans (if_pos rfl)
          have hcopy := (copyOf_eq_iff hstep).mp (Option.some.inj (hput.symm.trans hview))
          exact ⟨hcopy.1, hnone, hunused⟩
        · rintro ⟨hrebuilt, -, -⟩
          refine ⟨x, o, numbered x.output n, rfl, ho, ⟨hnone, fun k => ?_⟩,
            ⟨hfirst.2.1, fun k => ?_⟩, rfl⟩
          · rw [Registry.lookup_put, (copyOf_eq_iff hstep).mpr ⟨hrebuilt, rfl⟩]
          · exact lookup_copiedOutputs v o _ k
      · obtain ⟨what, hwhat⟩ := addCopy_of_not_takes htakes
        rw [leaves_of_thrown (hrun.trans hwhat)]
        refine iff_of_false (fun h => hmem ?_) ?_
        · rw [h]
          exact hfirst.2.1
        · rintro ⟨hr, hc, hall⟩
          exact htakes ⟨isUsedOutput_eq_false.mpr hall, hr.timestep, hc⟩

end

end Views

/-- The operations that rename and copy in the containers of an experiment are lossless under exactly
these conditions. -/
theorem lossless_operations [Zero D] [LE D] [DecidableLE D] [ToString D] :
    (∀ (conds : Conditions D) (oldname newname : String),
      conds.Lossless oldname newname ↔ conds.find oldname = none ∨
        (oldname = newname ∧ oldname = Conditions.defaultSimulationEngineCondName) ∨
        (oldname ≠ newname ∧ conds.find newname = none ∧
          oldname ≠ Conditions.defaultSimulationEngineCondName ∧
          newname ≠ Conditions.defaultSimulationEngineCondName)) ∧
    (∀ (m : Observables) (oldname newname : String), Observables.Lossless m oldname newname ↔
      m.lookup oldname = none ∨ newname = oldname ∨ m.lookup newname = none) ∧
    (∀ (v : Views D) (oldname newname : String), v.RenameViewLossless oldname newname ↔
      v.list.lookup oldname = none ∨ v.outputs.lookup oldname = none ∨
        ∃ x o, v.list.lookup oldname = some x ∧ v.outputs.lookup oldname = some o ∧
          v.RenameFits oldname newname x o) ∧
    (∀ (v : Views D) (oldname newname : String), v.RenameOutputLossless oldname newname ↔
      ∀ k x, v.list.lookup k = some x → x.output ≠ oldname) ∧
    ∀ (v : Views D) (viewname copyname : String), v.CopyViewLossless viewname copyname ↔
      v.list.lookup viewname = none ∨
        ∃ x, v.list.lookup viewname = some x ∧ (v.outputs.lookup x.output = none ∨
          ∃ o, v.outputs.lookup x.output = some o ∧ (o.plugin = "" ∨
            Views.Rebuilt x ∧ v.list.lookup copyname = none ∧ ∀ n, v.FirstFree x.output n →
              ∀ k y, v.list.lookup k = some y → y.output ≠ Views.numbered x.output n)) :=
  ⟨Conditions.lossless_iff, Observables.lossless_iff, Views.renameView_lossless_iff,
    Views.renameOutput_lossless_iff, Views.copyView_lossless_iff⟩

/-- A condition that is renamed to its own name is lost. -/
theorem not_lossless_self : ¬ Conditions.Lossless (D := ℕ)
    ((∅ : Conditions ℕ).insert "c" ⟨"c", ∅, ""⟩) "c" "c" := by
  rw [Conditions.lossless_iff, Conditions.find]
  rintro (h | ⟨-, h⟩ | ⟨h, -⟩)
  · rw [AList.lookup_insert] at h
    cases h
  · exact absurd h (by decide)
  · exact h rfl

end Vle.Vpz
