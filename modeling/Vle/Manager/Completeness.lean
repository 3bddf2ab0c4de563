import Vle.Manager.Worker
import Vle.Lib.Runs

/-!
# What a plan simulates

`Batch.completes_iff_consistent` says for which plans the workers do what they should. What a prepared plan is like
is in `Batch.WellFormed`, and what one simulation sets in `post_ok`. The plans that come through are
those of `Consistent`, where every `Set` and every `Tuple` has the size of the first one, and those of
`Refused`, where every worker meets a single value before anything else goes wrong. `Consistent` carries
the invariant `Inv`: a worker has taken the numbers of its residue below the one it is at.
-/

namespace Vle.Manager

open Vpz Lib

variable {D : Type}

/-! ## The values of a variable -/

/-- A value that is neither a `Set` nor a `Tuple`. -/
def single : Value D → Bool
  | .set _ | .tuple _ => false
  | _ => true

theorem given_of_single {v : Value D} (h : single v = true) : given v = [some v] := by
  cases v <;> first | rfl | cases h

/-- Out of a `Set` or a `Tuple` a worker takes the value of its index. -/
theorem pick_many {v : Value D} (h : single v = false) {n k : ℕ} {x : Value D} :
    pick v n k = .ok x ↔ (given v)[k]? = some (some x) := by
  cases v with
  | set s =>
    simp only [pick, given]
    cases hg : Value.setGet s k with
    | ok p =>
      rw [Value.setGet_eq_ok.mp hg]
      cases p <;> simp [escape, Except.mapError, bind, Except.bind, Value.deref]
    | error e =>
      have : s[k]? = none := by
        cases hs : s[k]? with
        | none => rfl
        | some p => rw [Value.setGet_eq_ok.mpr hs] at hg; cases hg
      simp [escape, Except.mapError, bind, Except.bind, this]
  | tuple t =>
    simp only [pick, given, List.getElem?_map]
    cases hg : Value.tupleAt t k with
    | ok d =>
      rw [Value.tupleAt_eq_ok.mp hg]
      simp [escape, Except.mapError]
    | error e =>
      have : t[k]? = none := by
        cases ht : t[k]? with
        | none => rfl
        | some p => rw [Value.tupleAt_eq_ok.mpr ht] at hg; cases hg
      simp [escape, Except.mapError, this]
  | _ => cases h

/-- What goes wrong there escapes. -/
theorem pick_many_error {v : Value D} (h : single v = false) {n k : ℕ} {e : Halt}
    (he : pick v n k = .error e) : ∃ fault, e = .escaped fault := by
  have : ∀ {α : Type} {r : Except Fault α}, escape r = .error e → ∃ fault, e = .escaped fault := by
    intro α r hr
    cases r with
    | ok a => cases hr
    | error fault => cases hr; exact ⟨fault, rfl⟩
  cases v with
  | set s => exact this he
  | tuple t => exact this he
  | _ => cases h

/-- A single value is for plans of size one. -/
theorem pick_single {v : Value D} (h : single v = true) (n k : ℕ) :
    pick v n k = if n = 1 then .ok v else
      .error (.reported { code := -1, message := "[Manager] error thread" }) := by
  cases v <;> first | rfl | cases h

/-! ## The conditions of a simulation -/

section Post

variable {values : ManInput D → Except Fault (Value D)} {n k : ℕ}

theorem escape_eq_ok {α : Type} {r : Except Fault α} {a : α} : escape r = .ok a ↔ r = .ok a := by
  cases r <;> simp [escape, Except.mapError]

/-- One variable is set, then the others. -/
theorem post_cons {m : ManInput D} {vars : List (ManInput D)} {conds conds' : Conditions D} :
    post values n k (m :: vars) conds = .ok conds' ↔
      ∃ v x c, values m = .ok v ∧ pick v n k = .ok x ∧ conds.lookup m.cond = some c ∧
        post values n k vars (conds.insert m.cond (c.setValueToPort m.port x)) = .ok conds' := by
  simp only [post]
  cases hv : values m with
  | error e => simp [escape, Except.mapError, bind, Except.bind]
  | ok v =>
    cases hp : pick v n k with
    | error e => simp [escape, Except.mapError, bind, Except.bind, hp]
    | ok x =>
      cases hc : conds.modify m.cond (·.setValueToPort m.port x) with
      | error e =>
        have := AList.lookup_eq_none.mpr (Conditions.modify_eq_error.mp hc).1
        simp [escape, Except.mapError, bind, Except.bind, hp, hc, this]
      | ok conds₁ =>
        obtain ⟨c, hlook, rfl⟩ := Conditions.modify_eq_ok.mp hc
        simp [escape, Except.mapError, bind, Except.bind, hp, hc, hlook]

theorem mem_insert_setValue {conds : Conditions D} {cond : String} {c : Condition D}
    (hc : conds.lookup cond = some c) (c' : Condition D) (name : String) :
    name ∈ conds.insert cond c' ↔ name ∈ conds := by
  rw [AList.mem_insert]
  constructor
  · rintro (rfl | h)
    · exact AList.lookup_isSome.mp (by rw [hc]; rfl)
    · exact h
  · exact .inr

/-- What it takes to set the values: every condition is there, and every value can be taken. -/
def Settable (values : ManInput D → Except Fault (Value D)) (n k : ℕ) (vars : List (ManInput D))
    (conds : Conditions D) : Prop :=
  ∀ m ∈ vars, m.cond ∈ conds ∧ ∃ v x, values m = .ok v ∧ pick v n k = .ok x

/-- The ports of other variables are left as they are. -/
theorem post_frame {vars : List (ManInput D)} {conds conds' : Conditions D}
    (h : post values n k vars conds = .ok conds') :
    (∀ name, name ∈ conds' ↔ name ∈ conds) ∧
      ∀ cond port, (∀ m ∈ vars, ¬(cond = m.cond ∧ port = m.port)) →
        conds'.port cond port = conds.port cond port := by
  induction vars generalizing conds with
  | nil => cases h; exact ⟨fun _ => Iff.rfl, fun _ _ _ => rfl⟩
  | cons m vars ih =>
    obtain ⟨v, x, c, -, -, hc, h⟩ := post_cons.mp h
    obtain ⟨hmem, hport⟩ := ih h
    refine ⟨fun name => (hmem name).trans (mem_insert_setValue hc _ name), fun cond port hne => ?_⟩
    rw [hport cond port fun m' hm' => hne m' (List.mem_cons_of_mem _ hm'),
      Conditions.port_setValueToPort _ hc, if_neg (hne m List.mem_cons_self)]

/-- A loop that succeeds has taken all its values. -/
theorem post_settable {vars : List (ManInput D)} {conds conds' : Conditions D}
    (h : post values n k vars conds = .ok conds') : Settable values n k vars conds := by
  induction vars generalizing conds with
  | nil => exact fun _ h => absurd h List.not_mem_nil
  | cons m vars ih =>
    obtain ⟨v, x, c, hv, hp, hc, h⟩ := post_cons.mp h
    intro m' hm'
    rcases List.mem_cons.mp hm' with rfl | hm'
    · exact ⟨AList.lookup_isSome.mp (by rw [hc]; rfl), v, x, hv, hp⟩
    · obtain ⟨hmem, hrest⟩ := ih h m' hm'
      exact ⟨(mem_insert_setValue hc _ _).mp hmem, hrest⟩

/-- A loop whose values can be taken succeeds. -/
theorem post_total {vars : List (ManInput D)} {conds : Conditions D}
    (h : Settable values n k vars conds) : ∃ conds', post values n k vars conds = .ok conds' := by
  induction vars generalizing conds with
  | nil => exact ⟨conds, rfl⟩
  | cons m vars ih =>
    obtain ⟨hmem, v, x, hv, hp⟩ := h m List.mem_cons_self
    obtain ⟨c, hc⟩ := Option.isSome_iff_exists.mp (AList.lookup_isSome.mpr hmem)
    obtain ⟨conds', h'⟩ : ∃ conds', post values n k vars
        (conds.insert m.cond (c.setValueToPort m.port x)) = .ok conds' := ih
      fun m' hm' => by
        obtain ⟨hmem', hrest⟩ := h m' (List.mem_cons_of_mem _ hm')
        exact ⟨(mem_insert_setValue hc _ _).mpr hmem', hrest⟩
    exact ⟨conds', post_cons.mpr ⟨v, x, c, hv, hp, hc, h'⟩⟩

/-- Each variable has got its value. -/
theorem post_ok {vars : List (ManInput D)} (hnodup : (vars.map fun m => (m.cond, m.port)).Nodup)
    {conds conds' : Conditions D} (h : post values n k vars conds = .ok conds') {m : ManInput D}
    (hm : m ∈ vars) {v x : Value D} (hv : values m = .ok v) (hx : pick v n k = .ok x) :
    conds'.port m.cond m.port = some (some x) := by
  induction vars generalizing conds with
  | nil => exact absurd hm List.not_mem_nil
  | cons m' vars ih =>
    obtain ⟨v', x', c, hv', hx', hc, h⟩ := post_cons.mp h
    rw [List.map_cons, List.nodup_cons] at hnodup
    rcases List.mem_cons.mp hm with rfl | hm
    · rw [hv] at hv'; cases hv'
      rw [hx] at hx'; cases hx'
      rw [(post_frame h).2 _ _ fun m' hm' heq => hnodup.1 (List.mem_map.mpr
        ⟨m', hm', by rw [heq.1, heq.2]⟩), Conditions.port_setValueToPort _ hc, if_pos ⟨rfl, rfl⟩]
    · exact ih hnodup.2 h hm

/-- Over variables of many values, what goes wrong escapes. -/
theorem post_many_error {vars : List (ManInput D)}
    (hmany : ∀ m ∈ vars, ∃ v, values m = .ok v ∧ single v = false) {conds : Conditions D} {e : Halt}
    (h : post values n k vars conds = .error e) : ∃ fault, e = .escaped fault := by
  induction vars generalizing conds with
  | nil => cases h
  | cons m vars ih =>
    obtain ⟨v, hv, hs⟩ := hmany m List.mem_cons_self
    simp only [post, hv] at h
    cases hp : pick v n k with
    | error e' =>
      simp only [escape, Except.mapError, bind, Except.bind, hp] at h
      cases h
      exact pick_many_error hs hp
    | ok x =>
      cases hc : conds.modify m.cond (·.setValueToPort m.port x) with
      | error e' =>
        simp only [escape, Except.mapError, bind, Except.bind, hp, hc] at h
        cases h
        exact ⟨e', rfl⟩
      | ok conds₁ =>
        simp only [escape, Except.mapError, bind, Except.bind, hp, hc] at h
        exact ih (fun m' hm' => hmany m' (List.mem_cons_of_mem _ hm')) h

/-- The loop over a list goes on from its first part. -/
theorem post_append (xs ys : List (ManInput D)) (conds : Conditions D) :
    post values n k (xs ++ ys) conds = (post values n k xs conds) >>= post values n k ys := by
  induction xs generalizing conds with
  | nil => rfl
  | cons m xs ih =>
    simp only [List.cons_append, post, ih, bind_assoc]

end Post

/-! ## Which plans come through -/

namespace Batch

/-- What a prepared plan is like: the sizes are those of the values, a replicate is not a single value,
and no two inputs, and no two replicates, are of one port. -/
structure WellFormed (B : Batch D) : Prop where
  slots_pos : 1 ≤ B.slots
  slots_lt : B.slots < 2 ^ 32
  input : ∀ m ∈ B.mInputs, ∃ v, m.values B.init = .ok v ∧ m.nbValues = (given v).length % 2 ^ 32
  replicate : ∀ m ∈ B.mReplicates, ∃ v, ManReplicate.values m B.init = .ok v ∧
    m.nbValues = (given v).length % 2 ^ 32 ∧ single v = false
  inputs_nodup : (B.mInputs.map fun m => (m.cond, m.port)).Nodup
  replicates_nodup : (B.mReplicates.map fun m => (m.cond, m.port)).Nodup

/-- A variable that has so many values, and no empty pointer among them. -/
def Fits (v : Value D) (n : ℕ) : Prop := (given v).length = n ∧ none ∉ given v

/-- Every variable has the size of the first one of its kind, one for a single value; the conditions
are in the model; and an input and a replicate of one port have the same values. -/
structure Uniform (B : Batch D) : Prop where
  known : ∀ m ∈ B.mInputs ++ B.mReplicates, m.cond ∈ B.model
  inputs : ∀ m ∈ B.mInputs, ∀ v, m.values B.init = .ok v → Fits v B.inputsSize
  replicates : ∀ m ∈ B.mReplicates, ∀ v, ManReplicate.values m B.init = .ok v →
    Fits v B.replicasSize
  agree : ∀ m ∈ B.mInputs, ∀ r ∈ B.mReplicates, m.cond = r.cond → m.port = r.port →
    ∀ v, m.values B.init = .ok v → ∀ v', ManReplicate.values r B.init = .ok v' →
      ∀ i < B.inputsSize, ∀ j < B.replicasSize, (given v)[i]? = (given v')[j]?
  pos : 0 < B.inputsSize ∧ 0 < B.replicasSize

/-- The numbers of the simulations, with a step beyond, are moreover below `2 ^ 32`. -/
structure Consistent (B : Batch D) : Prop extends Uniform B where
  small : B.inputsSize * B.replicasSize + B.slots ≤ 2 ^ 32

/-- There are simulations, not of a single input, but an input has a single value; and each worker can
set the inputs before it in its first simulation. -/
def Refused (B : Batch D) : Prop :=
  B.inputsSize ≠ 1 ∧ 0 < B.bound ∧ ∃ before m after, B.mInputs = before ++ m :: after ∧
    (∃ v, m.values B.init = .ok v ∧ single v = true) ∧
    ∀ p ∈ before, p.cond ∈ B.model ∧ ∃ v, p.values B.init = .ok v ∧ single v = false ∧
      ∀ w < B.slots, w < B.bound → ∃ x, (given v)[w / B.replicasSize]? = some (some x)

variable {B : Batch D}

/-- The simulations of a number are those of its input and of its replicate. -/
theorem settings_eq_ok {i : ℕ} {conds : Conditions D} : B.settings i = .ok conds ↔
    ∃ c, post (·.values B.init) B.inputsSize (i / B.replicasSize) B.mInputs B.model = .ok c ∧
      post (ManReplicate.values · B.init) B.replicasSize (i % B.replicasSize) B.mReplicates c =
        .ok conds := by
  unfold settings
  cases post (fun x => x.values B.init) B.inputsSize (i / B.replicasSize) B.mInputs B.model <;>
    simp [bind, Except.bind]

/-- What a simulation takes, when it comes to pass. -/
theorem settable_of_settings {i : ℕ} {conds : Conditions D} (h : B.settings i = .ok conds) :
    Settable (·.values B.init) B.inputsSize (i / B.replicasSize) B.mInputs B.model ∧
      Settable (ManReplicate.values · B.init) B.replicasSize (i % B.replicasSize) B.mReplicates
        B.model := by
  obtain ⟨c, hin, hrepl⟩ := settings_eq_ok.mp h
  refine ⟨post_settable hin, fun m hm => ?_⟩
  obtain ⟨hmem, hrest⟩ := post_settable hrepl m hm
  exact ⟨((post_frame hin).1 _).mp hmem, hrest⟩

/-- A simulation comes to pass when its values can be taken. -/
theorem settings_total {i : ℕ}
    (hin : Settable (·.values B.init) B.inputsSize (i / B.replicasSize) B.mInputs B.model)
    (hrepl : Settable (ManReplicate.values · B.init) B.replicasSize (i % B.replicasSize)
      B.mReplicates B.model) : ∃ conds, B.settings i = .ok conds := by
  obtain ⟨c, hc⟩ := post_total hin
  obtain ⟨conds, hconds⟩ : ∃ conds, post (ManReplicate.values · B.init) B.replicasSize
      (i % B.replicasSize) B.mReplicates c = .ok conds := post_total fun m hm => by
    obtain ⟨hmem, hrest⟩ := hrepl m hm
    exact ⟨((post_frame hc).1 _).mpr hmem, hrest⟩
  exact ⟨conds, settings_eq_ok.mpr ⟨c, hc, hconds⟩⟩

/-- A value that fits can be taken at every index. -/
theorem Fits.pick {v : Value D} {n k : ℕ} (h : Fits v n) (hk : k < n) :
    ∃ x, (given v)[k]? = some (some x) ∧ Manager.pick v n k = .ok x := by
  obtain ⟨hlen, hnone⟩ := h
  cases hp : (given v)[k]? with
  | none => rw [List.getElem?_eq_none_iff] at hp; omega
  | some p =>
    cases p with
    | none => exact absurd (List.mem_of_getElem? hp) hnone
    | some x =>
      refine ⟨x, rfl, ?_⟩
      cases hs : single v with
      | false => exact (pick_many hs).mpr hp
      | true =>
        rw [given_of_single hs] at hlen hp
        have hn : n = 1 := by simpa using hlen.symm
        have : k = 0 := by omega
        subst this
        rw [pick_single hs, if_pos hn]
        simpa using hp

/-- A value that fits holds where it has been set. -/
theorem Fits.holds {v : Value D} {n k : ℕ} (h : Fits v n) (hk : k < n) {conds : Conditions D}
    {m : ManInput D} (hport : ∀ x, Manager.pick v n k = .ok x →
      conds.port m.cond m.port = some (some x)) : Holds conds m (given v) k := by
  obtain ⟨x, hx, hp⟩ := h.pick hk
  refine ⟨fun _ => ⟨x, hx, hport x hp⟩, fun hone => ?_⟩
  obtain ⟨a, ha⟩ := List.length_eq_one_iff.mp hone
  have hk0 : k = 0 := by have := h.1; omega
  subst hk0
  rw [ha] at hx ⊢
  simp only [List.getElem?_cons_zero, Option.some.injEq] at hx
  exact ⟨x, by rw [hx], hport x hp⟩

/-- The variables fit the size of the first one, which they have in common. -/
theorem commonSize_of_fits {values : ManInput D → Except Fault (Value D)} {vars : List (ManInput D)}
    {n : ℕ} (hvalues : ∀ m ∈ vars, ∃ v, values m = .ok v)
    (hfits : ∀ m ∈ vars, ∀ v, values m = .ok v → Fits v n) (hpos : 0 < n)
    (hnil : vars = [] → n = 1) : CommonSize values vars n := by
  refine ⟨fun m hm v hv _ => (hfits m hm v hv).1, fun hall => ?_⟩
  cases vars with
  | nil => exact hnil rfl
  | cons m vars =>
    obtain ⟨v, hv⟩ := hvalues m List.mem_cons_self
    have h1 := hall m List.mem_cons_self v hv
    have h2 := (hfits m List.mem_cons_self v hv).1
    omega

theorem inputsSize_nil (h : B.mInputs = []) : B.inputsSize = 1 := by
  simp [inputsSize, ManagerObjects.inputsSize, h]

theorem replicasSize_nil (h : B.mReplicates = []) : B.replicasSize = 1 := by
  simp [replicasSize, ManagerObjects.replicasSize, h]

/-- Every simulation comes to pass, with the values of its input and of its replicate. -/
theorem Uniform.settings (h : B.Uniform) (hB : B.WellFormed) {i : ℕ}
    (hi : i < B.inputsSize * B.replicasSize) :
    ∃ conds, B.settings i = .ok conds ∧
      (∀ p ∈ B.mInputs, ∀ v, p.values B.init = .ok v →
        Holds conds p (given v) (i / B.replicasSize)) ∧
      ∀ p ∈ B.mReplicates, ∀ v, ManReplicate.values p B.init = .ok v →
        Holds conds p (given v) (i % B.replicasSize) := by
  have hin : i / B.replicasSize < B.inputsSize :=
    Nat.div_lt_of_lt_mul (by rwa [Nat.mul_comm])
  have hrepl : i % B.replicasSize < B.replicasSize := Nat.mod_lt _ h.pos.2
  obtain ⟨conds, hconds⟩ := settings_total (B := B) (i := i)
    (fun m hm => by
      obtain ⟨v, hv, -⟩ := hB.input m hm
      obtain ⟨x, -, hx⟩ := (h.inputs m hm v hv).pick hin
      exact ⟨h.known m (List.mem_append_left _ hm), v, x, hv, hx⟩)
    (fun m hm => by
      obtain ⟨v, hv, -⟩ := hB.replicate m hm
      obtain ⟨x, -, hx⟩ := (h.replicates m hm v hv).pick hrepl
      exact ⟨h.known m (List.mem_append_right _ hm), v, x, hv, hx⟩)
  refine ⟨conds, hconds, fun p hp v hv => ?_, fun p hp v hv => ?_⟩
  · obtain ⟨c, hpin, hprepl⟩ := settings_eq_ok.mp hconds
    refine (h.inputs p hp v hv).holds hin fun x hx => ?_
    by_cases hsame : ∃ r ∈ B.mReplicates, p.cond = r.cond ∧ p.port = r.port
    · -- The replicate of the same port comes after, with the same value.
      obtain ⟨r, hr, hcond, hport⟩ := hsame
      obtain ⟨v', hv', -⟩ := hB.replicate r hr
      obtain ⟨x', hx', hpick'⟩ := (h.replicates r hr v' hv').pick hrepl
      obtain ⟨x₁, hx₁, hpick₁⟩ := (h.inputs p hp v hv).pick hin
      rw [hx] at hpick₁; cases hpick₁
      have := h.agree p hp r hr hcond hport v hv v' hv' _ hin _ hrepl
      rw [hx₁, hx'] at this
      rw [hcond, hport, post_ok hB.replicates_nodup hprepl hr hv' hpick']
      exact this.symm
    · rw [(post_frame hprepl).2 _ _ fun r hr heq => hsame ⟨r, hr, heq⟩]
      exact post_ok hB.inputs_nodup hpin hp hv hx
  · obtain ⟨c, -, hprepl⟩ := settings_eq_ok.mp hconds
    exact (h.replicates p hp v hv).holds hrepl fun x hx =>
      post_ok hB.replicates_nodup hprepl hp hv hx

/-- The simulations of all numbers come to pass, and the numbers, with a step beyond, are below
`2 ^ 32`. -/
structure Counted (B : Batch D) : Prop where
  settings : ∀ i < B.inputsSize * B.replicasSize, ∃ conds, B.settings i = .ok conds
  pos : 0 < B.inputsSize ∧ 0 < B.replicasSize
  small : B.inputsSize * B.replicasSize + B.slots ≤ 2 ^ 32

/-- The loops of the workers go over the numbers of all simulations. -/
theorem Counted.bound_eq (h : B.Counted) (hB : B.WellFormed) :
    B.bound = B.inputsSize * B.replicasSize := by
  have := h.small
  have := hB.slots_pos
  rw [bound, Nat.mul_comm, Nat.mod_eq_of_lt (by omega)]

theorem Counted.settings_ok (h : B.Counted) (hB : B.WellFormed) {i : ℕ} (hi : i < B.bound) :
    ∃ conds, B.settings i = .ok conds :=
  h.settings i (by rwa [h.bound_eq hB] at hi)

theorem Consistent.counted (h : B.Consistent) (hB : B.WellFormed) : B.Counted :=
  ⟨fun _ hi => (h.settings hB hi).imp fun _ hconds => hconds.1, h.pos, h.small⟩

end Batch

/-! ## Runs of a consistent plan -/

/-- The pairs of the numbers below `n * m` are all pairs. -/
theorem perm_pairs (n m : ℕ) (hm : 0 < m) :
    ((List.range (n * m)).map fun i => (i / m, i % m)).Perm (List.range n ×ˢ List.range m) := by
  refine (List.perm_ext_iff_of_nodup ?_ (List.nodup_range.product List.nodup_range)).mpr ?_
  · refine List.nodup_range.map fun i j hij => ?_
    simp only [Prod.mk.injEq] at hij
    rw [← Nat.div_add_mod i m, ← Nat.div_add_mod j m, hij.1, hij.2]
  · rintro ⟨a, b⟩
    rw [List.mem_map, List.mem_product, List.mem_range, List.mem_range]
    constructor
    · rintro ⟨i, hi, heq⟩
      cases heq
      exact ⟨Nat.div_lt_of_lt_mul (by rw [Nat.mul_comm]; exact List.mem_range.mp hi),
        Nat.mod_lt _ hm⟩
    · rintro ⟨ha, hb⟩
      refine ⟨a * m + b, List.mem_range.mpr ?_, ?_⟩
      · have := Nat.mul_le_mul_right m (show a + 1 ≤ n by omega)
        rw [Nat.add_mul] at this
        omega
      · rw [Nat.add_comm, Nat.add_mul_div_right _ _ hm, Nat.div_eq_of_lt hb,
          Nat.add_mul_mod_self_right, Nat.mod_eq_of_lt hb, Nat.zero_add]

/-- The number of a simulation. -/
def number (B : Batch D) (x : ℕ × ℕ × Conditions D) : ℕ := x.1 * B.replicasSize + x.2.1

theorem number_eq {B : Batch D} (i : ℕ) (conds : Conditions D) :
    number B (i / B.replicasSize, i % B.replicasSize, conds) = i := by
  rw [number, Nat.mul_comm]
  exact Nat.div_add_mod i _

/-- The numbers of its residue below this one have been taken by a worker. -/
def WorkerPc.next {V : Type} (bound : ℕ) : WorkerPc V → ℕ
  | .loop i => i
  | .ran i _ _ => i + 1
  | .done => bound
  | .escaped _ => 0

/-- A bound of the steps of a worker. -/
def WorkerPc.weight {V : Type} (bound slots : ℕ) : WorkerPc V → ℕ
  | .loop i => 2 * (bound + slots - i) + 1
  | .ran i _ _ => 2 * (bound - i) + 2
  | .done | .escaped _ => 0

namespace System

variable {E : Env D} {B : Batch D}

/-- What a worker at the test of its loop does: it simulates its number, or stops, with an error if the
values of its number cannot be taken. -/
theorem step_loop {s s' : System E} {w i : ℕ} (hpc : s.workers w = .loop i)
    (h : s.step B w = some s') :
    (i < B.bound ∧ ∃ conds, B.settings i = .ok conds ∧
      s' = { s.goto w (.ran i (E.simulate conds).1 (E.simulate conds).2) with
        simulated := s.simulated ++ [(i / B.replicasSize, i % B.replicasSize, conds)] }) ∨
    (i < B.bound ∧ ∃ err, B.settings i = .error (.reported err) ∧ s' = { s.goto w .done with err }) ∨
    (i < B.bound ∧ ∃ fault, B.settings i = .error (.escaped fault) ∧
      s' = s.goto w (.escaped fault)) ∨
    B.bound ≤ i ∧ s' = s.goto w .done := by
  simp only [step, hpc] at h
  split_ifs at h with hi
  · cases hset : B.settings i with
    | ok conds =>
      rw [hset] at h
      cases h
      exact .inl ⟨hi, conds, rfl, rfl⟩
    | error halt =>
      cases halt with
      | reported err =>
        rw [hset] at h
        cases h
        exact .inr (.inl ⟨hi, err, rfl, rfl⟩)
      | escaped fault =>
        rw [hset] at h
        cases h
        exact .inr (.inr (.inl ⟨hi, fault, rfl, rfl⟩))
  · cases h
    exact .inr (.inr (.inr ⟨not_lt.mp hi, rfl⟩))

/-- What a worker that locks the mutex does: it inserts its result and goes on, or stops, with an error
unless there is one, or does something undefined. -/
theorem step_ran {s s' : System E} {w i : ℕ} {error : Error} {view : E.View}
    (hpc : s.workers w = .ran i error view) (h : s.step B w = some s') :
    (s.err.code ≠ 0 ∧ s' = s.goto w .done) ∨
    (s.err.code = 0 ∧ ∃ err, err.code ≠ 0 ∧ s' = { s.goto w .done with err } ∧
      (error.code ≠ 0 ∨ ∃ what, E.insertReplicate s.outputs view (i / B.replicasSize) B.inputsSize
        B.replicasSize = .error (.thrown what))) ∨
    (s.err.code = 0 ∧ ∃ outputs, E.insertReplicate s.outputs view (i / B.replicasSize) B.inputsSize
        B.replicasSize = .ok outputs ∧
      s' = { s.goto w (.loop ((i + B.slots) % 2 ^ 32)) with
        outputs, inserted := s.inserted ++ [(i / B.replicasSize, i % B.replicasSize)] }) ∨
    (s.err.code = 0 ∧ ∃ fault, (∀ what, fault ≠ .thrown what) ∧
      E.insertReplicate s.outputs view (i / B.replicasSize) B.inputsSize B.replicasSize =
        .error fault ∧ s' = s.goto w (.escaped fault)) := by
  simp only [step, hpc] at h
  split_ifs at h with herr herror
  · cases h
    exact .inl ⟨herr, rfl⟩
  · cases h
    refine .inr (.inl ⟨not_not.mp herr, _, ?_, rfl, .inl herror⟩)
    exact herror
  · have herr := not_not.mp herr
    cases hins : E.insertReplicate s.outputs view (i / B.replicasSize) B.inputsSize
      B.replicasSize with
    | ok outputs =>
      rw [hins] at h
      cases h
      exact .inr (.inr (.inl ⟨herr, outputs, rfl, rfl⟩))
    | error fault =>
      rw [hins] at h
      cases fault with
      | thrown what =>
        cases h
        have hcode : (-1 : ℤ) ≠ 0 := by decide
        exact .inr (.inl ⟨herr, { code := -1, message := _ }, hcode, rfl, .inr ⟨what, rfl⟩⟩)
      | outOfRange =>
        cases h
        have hfault : ∀ what, Fault.outOfRange ≠ .thrown what := fun _ h => by cases h
        exact .inr (.inr (.inr ⟨herr, _, hfault, rfl, rfl⟩))
      | null =>
        cases h
        have hfault : ∀ what, Fault.null ≠ .thrown what := fun _ h => by cases h
        exact .inr (.inr (.inr ⟨herr, _, hfault, rfl, rfl⟩))

/-- A worker at its end takes no step. -/
theorem step_done {s s' : System E} {w : ℕ} (h : s.step B w = some s') :
    (∃ i, s.workers w = .loop i) ∨ ∃ i error view, s.workers w = .ran i error view := by
  cases hpc : s.workers w with
  | loop i => exact .inl ⟨i, rfl⟩
  | ran i error view => exact .inr ⟨i, error, view, rfl⟩
  | done => simp [step, hpc] at h
  | escaped fault => simp [step, hpc] at h

/-- A worker is at a number of its residue. -/
def Place (B : Batch D) (w : ℕ) : WorkerPc E.View → Prop
  | .loop i => i % B.slots = w ∧ i < B.bound + B.slots
  | .ran i _ _ => i % B.slots = w ∧ i < B.bound
  | .done => True
  | .escaped _ => False

/-- The states that a consistent plan leads to: as long as there is no error, the simulations are those
of the numbers that the workers have taken. -/
structure Inv (B : Batch D) (s : System E) : Prop where
  place : ∀ w < B.slots, Place B w (s.workers w)
  simulated : ∀ x ∈ s.simulated, ∃ i < B.bound, ∃ conds, B.settings i = .ok conds ∧
    x = (i / B.replicasSize, i % B.replicasSize, conds)
  nodup : s.err.code = 0 → (s.simulated.map (number B)).Nodup
  taken : s.err.code = 0 → ∀ i, i ∈ s.simulated.map (number B) ↔
    i < B.bound ∧ i < (s.workers (i % B.slots)).next B.bound

theorem Inv.start : Inv B ({} : System E) := by
  refine ⟨fun w hw => ⟨Nat.mod_eq_of_lt hw, by omega⟩, fun _ h => absurd h List.not_mem_nil,
    fun _ => List.nodup_nil, fun _ i => ?_⟩
  have : i % B.slots ≤ i := Nat.mod_le _ _
  simp only [List.map_nil, List.not_mem_nil, WorkerPc.next, false_iff, not_and, not_lt]
  exact fun _ => this

/-- A worker moves without a simulation, and the numbers taken stay the same. -/
theorem Inv.move {s s' : System E} (h : Inv B s) {w : ℕ} {pc : WorkerPc E.View}
    (hworkers : s'.workers = Function.update s.workers w pc) (hsim : s'.simulated = s.simulated)
    (hplace : Place B w pc) (herr : s'.err.code = 0 → s.err.code = 0 ∧
      ∀ i < B.bound, i % B.slots = w → (i < pc.next B.bound ↔ i < (s.workers w).next B.bound)) :
    Inv B s' := by
  refine ⟨fun w' hw' => ?_, by rw [hsim]; exact h.simulated, fun he => ?_, fun he i => ?_⟩
  · rw [hworkers]
    by_cases e : w' = w
    · subst e; rwa [Function.update_self]
    · rw [Function.update_of_ne e]; exact h.place w' hw'
  · rw [hsim]; exact h.nodup (herr he).1
  · rw [hsim, h.taken (herr he).1, hworkers]
    by_cases e : i % B.slots = w
    · rw [e, Function.update_self]
      constructor
      · rintro ⟨hi, hlt⟩; exact ⟨hi, ((herr he).2 i hi e).mpr hlt⟩
      · rintro ⟨hi, hlt⟩; exact ⟨hi, ((herr he).2 i hi e).mp hlt⟩
    · rw [Function.update_of_ne e]

/-- A worker that is through with the numbers below the bound. -/
theorem next_done {pc : WorkerPc E.View} {i bound : ℕ} (h : bound ≤ pc.next bound) (hi : i < bound) :
    i < (WorkerPc.done : WorkerPc E.View).next bound ↔ i < pc.next bound :=
  ⟨fun _ => by omega, fun _ => hi⟩

/-- Two numbers of one residue less than a step apart. -/
theorem lt_add_slots_iff {i j slots : ℕ} (hslots : 1 ≤ slots) (h : j % slots = i % slots) :
    j < i + slots ↔ j < i + 1 := by
  constructor
  · intro hlt
    by_contra hge
    have h1 : i < j := by omega
    have h2 : (j - i) % slots = 0 := Nat.sub_mod_eq_zero_of_mod_eq h
    have h3 := Nat.le_of_dvd (by omega) (Nat.dvd_of_mod_eq_zero h2)
    omega
  · intro hlt
    omega

/-- The insertions that come next do nothing that the language leaves undefined. -/
def Due (B : Batch D) (s : System E) : Prop :=
  ∀ w < B.slots, ∀ i error view, s.workers w = .ran i error view → ∀ fault,
    E.insertReplicate s.outputs view (i / B.replicasSize) B.inputsSize B.replicasSize =
      .error fault → ∃ what, fault = .thrown what

theorem due_of_defined (hE : E.Defined) (s : System E) : Due B s :=
  fun _ _ _ _ _ _ fault h => hE _ _ _ _ _ fault h

/-- Every step keeps the invariant. -/
theorem Inv.step (hB : B.WellFormed) (hC : B.Counted) {s s' : System E} (h : Inv B s)
    (hE : Due B s) (hs' : Step B s s') : Inv B s' := by
  obtain ⟨w, hw, hs'⟩ := hs'
  have hplace := h.place w hw
  rcases step_done hs' with ⟨i, hpc⟩ | ⟨i, error, view, hpc⟩
  · rw [hpc] at hplace
    rcases step_loop hpc hs' with ⟨hi, conds, hconds, rfl⟩ | ⟨hi, err, hset, -⟩ |
      ⟨hi, fault, hset, -⟩ | ⟨hi, rfl⟩
    · -- The number `i` is new: its worker had not come to it.
      have hnew : ∀ j, s.err.code = 0 → (j ∈ s.simulated.map (number B) ∨ j = i ↔
          j < B.bound ∧ j < (Function.update s.workers w
            (.ran i (E.simulate conds).1 (E.simulate conds).2) (j % B.slots)).next B.bound) := by
        intro j he
        rw [h.taken he]
        by_cases e : j % B.slots = w
        · rw [e, Function.update_self, hpc]
          simp only [WorkerPc.next]
          omega
        · rw [Function.update_of_ne e]
          refine or_iff_left fun hji => e ?_
          rw [hji, hplace.1]
      refine ⟨fun w' hw' => ?_, fun x hx => ?_, fun he => ?_, fun he j => ?_⟩
      · by_cases e : w' = w
        · subst e
          simp only [goto, Function.update_self]
          exact ⟨hplace.1, hi⟩
        · simp only [goto, Function.update_of_ne e]
          exact h.place w' hw'
      · rcases List.mem_append.mp hx with hx | hx
        · exact h.simulated x hx
        · rw [List.mem_singleton] at hx
          exact ⟨i, hi, conds, hconds, hx⟩
      · rw [List.map_append, List.map_singleton, number_eq]
        refine List.nodup_append.mpr ⟨h.nodup he, List.nodup_singleton _, fun a ha b hb hab => ?_⟩
        rw [List.mem_singleton] at hb
        rw [hab, hb, h.taken he, hplace.1, hpc] at ha
        exact absurd ha.2 (lt_irrefl i)
      · rw [List.map_append, List.map_singleton, number_eq, List.mem_append, List.mem_singleton]
        exact hnew j he
    · obtain ⟨conds, hconds⟩ := hC.settings_ok hB hi
      rw [hset] at hconds; cases hconds
    · obtain ⟨conds, hconds⟩ := hC.settings_ok hB hi
      rw [hset] at hconds; cases hconds
    · refine h.move rfl rfl trivial fun he => ⟨he, fun j hj _ => next_done ?_ hj⟩
      rw [hpc]
      exact hi
  · rw [hpc] at hplace
    rcases step_ran hpc hs' with ⟨herr, rfl⟩ | ⟨-, err, hcode, rfl, -⟩ | ⟨herr, outputs, -, rfl⟩ |
      ⟨-, fault, hfault, hins, -⟩
    · exact h.move rfl rfl trivial fun he => absurd he herr
    · exact h.move rfl rfl trivial fun he => absurd he hcode
    · have hnowrap : (i + B.slots) % 2 ^ 32 = i + B.slots := by
        have h1 := hC.small
        have h2 := hC.bound_eq hB
        have h3 := hplace.2
        exact Nat.mod_eq_of_lt (by omega)
      rw [hnowrap]
      refine h.move rfl rfl ⟨?_, ?_⟩ fun he => ⟨he, fun j _ hj => ?_⟩
      · rw [Nat.add_mod_right]; exact hplace.1
      · have := hplace.2; omega
      · rw [hpc]
        exact lt_add_slots_iff hB.slots_pos (hj.trans hplace.1.symm)
    · obtain ⟨what, rfl⟩ := hE w hw i error view hpc fault hins
      exact absurd rfl (hfault what)

/-- A worker's step brings its end nearer. -/
theorem Inv.weight_lt (hB : B.WellFormed) (hC : B.Counted) {s s' : System E} (h : Inv B s)
    (hs' : Step B s s') :
    ∑ w ∈ Finset.range B.slots, (s'.workers w).weight B.bound B.slots <
      ∑ w ∈ Finset.range B.slots, (s.workers w).weight B.bound B.slots := by
  obtain ⟨w, hw, hs'⟩ := hs'
  have hplace := h.place w hw
  have hpos := hB.slots_pos
  -- It is enough that the place of the worker gets lighter.
  have hmove : ∀ pc, s'.workers = Function.update s.workers w pc →
      pc.weight B.bound B.slots < (s.workers w).weight B.bound B.slots →
      ∑ w ∈ Finset.range B.slots, (s'.workers w).weight B.bound B.slots <
        ∑ w ∈ Finset.range B.slots, (s.workers w).weight B.bound B.slots := by
    intro pc hpc hlt
    have := sum_update (WorkerPc.weight B.bound B.slots) s.workers (Finset.mem_range.mpr hw) pc
    rw [hpc]
    omega
  rcases step_done hs' with ⟨i, hpc⟩ | ⟨i, error, view, hpc⟩
  · have hdone : ∀ pc : WorkerPc E.View, pc.weight B.bound B.slots = 0 →
        pc.weight B.bound B.slots < (s.workers w).weight B.bound B.slots := by
      intro pc h0
      rw [h0, hpc]
      simp only [WorkerPc.weight]
      omega
    rcases step_loop hpc hs' with ⟨hi, conds, hconds, rfl⟩ | ⟨-, err, -, rfl⟩ | ⟨-, fault, -, rfl⟩ |
      ⟨-, rfl⟩
    · exact hmove _ rfl (by rw [hpc]; simp only [WorkerPc.weight]; omega)
    · exact hmove _ rfl (hdone _ rfl)
    · exact hmove _ rfl (hdone _ rfl)
    · exact hmove _ rfl (hdone _ rfl)
  · rw [hpc] at hplace
    have hdone : ∀ pc : WorkerPc E.View, pc.weight B.bound B.slots = 0 →
        pc.weight B.bound B.slots < (s.workers w).weight B.bound B.slots := by
      intro pc h0
      rw [h0, hpc]
      simp only [WorkerPc.weight]
      omega
    rcases step_ran hpc hs' with ⟨-, rfl⟩ | ⟨-, err, -, rfl, -⟩ | ⟨-, outputs, -, rfl⟩ |
      ⟨-, fault, -, -, rfl⟩
    · exact hmove _ rfl (hdone _ rfl)
    · exact hmove _ rfl (hdone _ rfl)
    · refine hmove _ rfl ?_
      have h1 := hC.small
      have h2 := hC.bound_eq hB
      have h3 := hplace.2
      rw [hpc, Nat.mod_eq_of_lt (by omega)]
      simp only [WorkerPc.weight]
      omega
    · exact hmove _ rfl (hdone _ rfl)

/-- A state from which there is no step has workers at their ends. -/
theorem done_of_stuck {s : System E} (hsafe : ∀ w < B.slots, ∀ fault, s.workers w ≠ .escaped fault)
    (hstuck : ∀ s', ¬ Step B s s') {w : ℕ} (hw : w < B.slots) : s.workers w = .done := by
  have hnone : ∀ s', s.step B w ≠ some s' := fun s' h => hstuck s' ⟨w, hw, h⟩
  cases hpc : s.workers w with
  | done => rfl
  | escaped fault => exact absurd hpc (hsafe w hw fault)
  | loop i =>
    simp only [System.step, hpc] at hnone
    split_ifs at hnone
    · cases hset : B.settings i with
      | ok conds => simp [hset] at hnone
      | error halt => cases halt <;> simp [hset] at hnone
    · simp at hnone
  | ran i error simresult =>
    simp only [System.step, hpc] at hnone
    split_ifs at hnone
    · simp at hnone
    · simp at hnone
    · cases hins : E.insertReplicate s.outputs simresult (i / B.replicasSize) B.inputsSize
        B.replicasSize with
      | ok outputs => simp [hins] at hnone
      | error fault => cases fault <;> simp [hins] at hnone

/-- When the workers are at their ends without an error, all pairs have been simulated once. -/
theorem Inv.pairs_perm (hB : B.WellFormed) (hC : B.Counted) {s : System E} (h : Inv B s)
    (herr : s.err.code = 0) (hdone : ∀ w < B.slots, s.workers w = .done) :
    (s.simulated.map fun x => (x.1, x.2.1)).Perm
      (List.range B.inputsSize ×ˢ List.range B.replicasSize) := by
  -- The numbers simulated are those below the bound, each once.
  have hnumbers : (s.simulated.map (number B)).Perm (List.range B.bound) := by
    refine (List.perm_ext_iff_of_nodup (h.nodup herr) List.nodup_range).mpr fun i => ?_
    rw [h.taken herr, List.mem_range, hdone _ (Nat.mod_lt _ hB.slots_pos)]
    exact ⟨fun hh => hh.1, fun hh => ⟨hh, hh⟩⟩
  refine List.Perm.trans ?_ (perm_pairs _ _ hC.pos.2)
  rw [← hC.bound_eq hB]
  have := hnumbers.map fun i => (i / B.replicasSize, i % B.replicasSize)
  rw [List.map_map] at this
  refine List.Perm.trans (List.Perm.of_eq (List.map_congr_left fun x hx => ?_)) this
  obtain ⟨i, -, conds, -, rfl⟩ := h.simulated x hx
  simp only [Function.comp_apply, number_eq]

end System

/-- The workers of a consistent plan simulate all of it, or report an error. -/
theorem Batch.Consistent.completes {B : Batch D} (hB : B.WellFormed) (h : B.Consistent) :
    B.Completes := by
  have hC := h.counted hB
  have hinv : ∀ E : Env D, E.Defined → ∀ s : System E, System.Reachable E B s → System.Inv B s :=
    fun E hE s hs => invariant_of_run (fun s _ hi hst => hi.step hB hC (System.due_of_defined hE s) hst) hs .start
  have hsafe : ∀ E : Env D, E.Defined → ∀ s : System E, System.Reachable E B s → ∀ w < B.slots,
      ∀ fault, s.workers w ≠ .escaped fault := by
    intro E hE s hs w hw fault heq
    have := (hinv E hE s hs).place w hw
    rw [heq] at this
    exact this
  refine ⟨hsafe, fun E hE s hs => ?_, fun E hE s hs hstuck => ?_⟩
  · exact acc_of_weight _ (fun s s' hi hst =>
        ⟨hi.step hB hC (System.due_of_defined hE s) hst, hi.weight_lt hB hC hst⟩)
      (hinv E hE s hs)
  · refine or_iff_not_imp_left.mpr fun herr => ?_
    have herr : s.err.code = 0 := not_not.mp herr
    have hi := hinv E hE s hs
    have hdone : ∀ w < B.slots, s.workers w = .done := fun w hw =>
      System.done_of_stuck (hsafe E hE s hs) hstuck hw
    refine ⟨B.inputsSize, B.replicasSize,
      commonSize_of_fits (fun m hm => (hB.input m hm).imp fun _ hv => hv.1) h.inputs h.pos.1
        inputsSize_nil,
      commonSize_of_fits (fun m hm => (hB.replicate m hm).imp fun _ hv => hv.1) h.replicates h.pos.2
        replicasSize_nil, hi.pairs_perm hB hC herr hdone, fun x hx => ?_⟩
    obtain ⟨i, hib, conds, hconds, rfl⟩ := hi.simulated x hx
    rw [hC.bound_eq hB] at hib
    obtain ⟨conds', hconds', hholds⟩ := h.settings hB hib
    rw [hconds] at hconds'
    cases hconds'
    exact hholds

/-! ## Runs of a refused plan -/

/-- The loop of a single value in a plan of another size. -/
theorem post_single {values : ManInput D → Except Fault (Value D)} {n k : ℕ}
    {before after : List (ManInput D)} {m : ManInput D} {v : Value D} {conds conds' : Conditions D}
    (hbefore : post values n k before conds = .ok conds') (hv : values m = .ok v)
    (hs : single v = true) (hn : n ≠ 1) : post values n k (before ++ m :: after) conds =
      .error (.reported { code := -1, message := "[Manager] error thread" }) := by
  rw [post_append, hbefore]
  simp only [bind, Except.bind, post, hv, escape, Except.mapError, pick_single hs, if_neg hn]

/-- Every first simulation of a worker is refused. -/
theorem Batch.Refused.settings {B : Batch D} (h : B.Refused) {w : ℕ} (hw : w < B.slots)
    (hb : w < B.bound) : B.settings w =
      .error (.reported { code := -1, message := "[Manager] error thread" }) := by
  obtain ⟨hn, -, before, m, after, hsplit, ⟨v, hv, hs⟩, hbefore⟩ := h
  obtain ⟨conds, hconds⟩ : ∃ conds, post (·.values B.init) B.inputsSize (w / B.replicasSize) before
      B.model = .ok conds := post_total fun p hp => by
      obtain ⟨hknown, v, hv, hs, htake⟩ := hbefore p hp
      obtain ⟨x, hx⟩ := htake w hw hb
      exact ⟨hknown, v, x, hv, (pick_many hs).mpr hx⟩
  rw [Batch.settings, hsplit, post_single hconds hv hs hn]
  rfl

namespace System

variable {E : Env D} {B : Batch D}

/-- The states that a refused plan leads to: a worker has not begun, or has reported an error if it
had a simulation. -/
def Waiting (B : Batch D) (s : System E) : Prop :=
  ∀ w < B.slots, s.workers w = .loop w ∨ s.workers w = .done ∧ (w < B.bound → s.err.code ≠ 0)

/-- A worker stops. -/
theorem Waiting.stop {s s' : System E} (hs : Waiting B s) {w : ℕ}
    (hworkers : s'.workers = Function.update s.workers w .done)
    (herr : s.err.code ≠ 0 → s'.err.code ≠ 0) (hown : w < B.bound → s'.err.code ≠ 0) :
    Waiting B s' := by
  intro w' hw'
  rw [hworkers]
  by_cases e : w' = w
  · subst e
    exact .inr ⟨Function.update_self .., hown⟩
  · rw [Function.update_of_ne e]
    exact (hs w' hw').imp_right fun hd => ⟨hd.1, fun hb => herr (hd.2 hb)⟩

/-- Every worker stops at once. -/
theorem Waiting.step (h : B.Refused) {s s' : System E} (hs : Waiting B s) (hs' : Step B s s') :
    Waiting B s' ∧ ∃ w < B.slots, (∃ i, s.workers w = .loop i) ∧
      s'.workers = Function.update s.workers w .done := by
  obtain ⟨w, hw, hs'⟩ := hs'
  rcases hs w hw with hpc | ⟨hpc, -⟩
  swap
  · simp [System.step, hpc] at hs'
  simp only [System.step, hpc] at hs'
  split_ifs at hs' with hb
  · simp only [h.settings hw hb] at hs'
    cases hs'
    have hcode : (-1 : ℤ) ≠ 0 := by decide
    exact ⟨hs.stop rfl (fun _ => hcode) fun _ => hcode, w, hw, ⟨w, hpc⟩, rfl⟩
  · cases hs'
    exact ⟨hs.stop rfl id fun hlt => absurd hlt hb, w, hw, ⟨w, hpc⟩, rfl⟩

end System

/-- The workers of a refused plan report an error. -/
theorem Batch.Refused.completes {B : Batch D} (hpos : 1 ≤ B.slots) (h : B.Refused) :
    B.Completes := by
  have hinv : ∀ (E : Env D) (s : System E), System.Reachable E B s → System.Waiting B s :=
    fun E s hs => invariant_of_run (fun _ _ hi hst => (hi.step h hst).1) hs fun _ _ => .inl rfl
  have hsafe : ∀ E : Env D, E.Defined → ∀ s : System E, System.Reachable E B s → ∀ w < B.slots,
      ∀ fault, s.workers w ≠ .escaped fault := by
    intro E _ s hs w hw fault heq
    rcases hinv E s hs w hw with hpc | ⟨hpc, -⟩ <;> rw [heq] at hpc <;> cases hpc
  refine ⟨hsafe, fun E _ s hs => ?_, fun E hE s hs hstuck => .inl ?_⟩
  · refine acc_of_weight (fun s : System E => ∑ w ∈ Finset.range B.slots,
      (match s.workers w with
        | .loop _ => 1
        | _ => 0)) (fun s s' hi hst => ?_) (hinv E s hs)
    obtain ⟨hi', w, hw, ⟨i, hpc⟩, hupd⟩ := hi.step h hst
    refine ⟨hi', ?_⟩
    have := sum_update (fun pc : WorkerPc E.View => match pc with
      | .loop _ => 1
      | _ => 0) s.workers (Finset.mem_range.mpr hw) .done
    simp only [hpc] at this
    rw [hupd]
    omega
  · have hdone := System.done_of_stuck (hsafe E hE s hs) hstuck (show 0 < B.slots by omega)
    rcases hinv E s hs 0 (by omega) with hpc | ⟨-, herr⟩
    · rw [hdone] at hpc; cases hpc
    · exact herr h.2.1

/-! ## Which plans do not come through -/

/-- Simulations and insertions that succeed. -/
def Env.quiet (D : Type) : Env D where
  View := Unit
  simulate _ := ({}, ())
  Outputs := Unit
  outputs := ()
  insertReplicate _ _ _ _ _ := .ok ()

theorem Env.quiet_defined : (Env.quiet D).Defined := fun _ _ _ _ _ _ h => by cases h

namespace System

variable {B : Batch D}

/-- The states that the workers come to when the simulations succeed. -/
structure Quiet (B : Batch D) (s : System (Env.quiet D)) : Prop where
  ran : ∀ w i error view, s.workers w = .ran i error view → error.code = 0
  simulated : ∀ x ∈ s.simulated, ∃ i < B.bound, ∃ conds, B.settings i = .ok conds ∧
    x = (i / B.replicasSize, i % B.replicasSize, conds)
  err : s.err.code ≠ 0 → ∃ i < B.bound, ∃ err, B.settings i = .error (.reported err)
  escaped : ∀ w fault, s.workers w = .escaped fault →
    ∃ i < B.bound, B.settings i = .error (.escaped fault)

theorem Quiet.start : Quiet B ({} : System (Env.quiet D)) :=
  ⟨fun _ _ _ _ h => (by cases h), fun _ h => absurd h List.not_mem_nil, fun h => absurd rfl h,
    fun _ _ h => (by cases h)⟩

/-- A worker moves, and the rest is as it should be. -/
theorem Quiet.move {s s' : System (Env.quiet D)} (h : Quiet B s) {w : ℕ}
    {pc : WorkerPc (Env.quiet D).View} (hworkers : s'.workers = Function.update s.workers w pc)
    (hran : ∀ i error view, pc = .ran i error view → error.code = 0)
    (hescaped : ∀ fault, pc = .escaped fault → ∃ i < B.bound, B.settings i = .error (.escaped fault))
    (hsim : ∀ x ∈ s'.simulated, ∃ i < B.bound, ∃ conds, B.settings i = .ok conds ∧
      x = (i / B.replicasSize, i % B.replicasSize, conds))
    (herr : s'.err.code ≠ 0 → ∃ i < B.bound, ∃ err, B.settings i = .error (.reported err)) :
    Quiet B s' := by
  refine ⟨fun w' i error view heq => ?_, hsim, herr, fun w' fault heq => ?_⟩ <;>
    rw [hworkers] at heq <;> by_cases e : w' = w
  · subst e
    rw [Function.update_self] at heq
    exact hran i error view heq
  · rw [Function.update_of_ne e] at heq
    exact h.ran w' i error view heq
  · subst e
    rw [Function.update_self] at heq
    exact hescaped fault heq
  · rw [Function.update_of_ne e] at heq
    exact h.escaped w' fault heq

/-- A step of a worker, when the simulations succeed. -/
theorem Quiet.step {s s' : System (Env.quiet D)} (h : Quiet B s) (hs' : Step B s s') :
    Quiet B s' ∧ s.simulated <+: s'.simulated := by
  obtain ⟨w, hw, hs'⟩ := hs'
  rcases step_done hs' with ⟨i, hpc⟩ | ⟨i, error, view, hpc⟩
  · rcases step_loop hpc hs' with ⟨hi, conds, hset, rfl⟩ | ⟨hi, err, hset, rfl⟩ |
      ⟨hi, fault, hset, rfl⟩ | ⟨-, rfl⟩
    · refine ⟨h.move rfl (fun _ _ _ heq => ?_) (fun _ heq => by cases heq) (fun x hx => ?_) h.err,
        List.prefix_append _ _⟩
      · cases heq; rfl
      · rcases List.mem_append.mp hx with hx | hx
        · exact h.simulated x hx
        · rw [List.mem_singleton] at hx
          exact ⟨i, hi, conds, hset, hx⟩
    · exact ⟨h.move rfl (fun _ _ _ heq => by cases heq) (fun _ heq => by cases heq) h.simulated
        fun _ => ⟨i, hi, err, hset⟩, List.prefix_refl _⟩
    · refine ⟨h.move rfl (fun _ _ _ heq => by cases heq) (fun _ heq => ?_) h.simulated h.err,
        List.prefix_refl _⟩
      cases heq
      exact ⟨i, hi, hset⟩
    · exact ⟨h.move rfl (fun _ _ _ heq => by cases heq) (fun _ heq => by cases heq) h.simulated h.err,
        List.prefix_refl _⟩
  · rcases step_ran hpc hs' with ⟨-, rfl⟩ | ⟨-, err, -, -, hcode | ⟨what, hins⟩⟩ |
      ⟨-, outputs, -, rfl⟩ | ⟨-, fault, -, hins, -⟩
    · exact ⟨h.move rfl (fun _ _ _ heq => by cases heq) (fun _ heq => by cases heq) h.simulated h.err,
        List.prefix_refl _⟩
    · exact absurd (h.ran w i error view hpc) hcode
    · cases hins
    · exact ⟨h.move rfl (fun _ _ _ heq => by cases heq) (fun _ heq => by cases heq) h.simulated h.err,
        List.prefix_refl _⟩
    · cases hins

theorem Quiet.of_run {s s' : System (Env.quiet D)} (h : Quiet B s)
    (hrun : Relation.ReflTransGen (Step B) s s') : Quiet B s' ∧ s.simulated <+: s'.simulated := by
  induction hrun with
  | refl => exact ⟨h, List.prefix_refl _⟩
  | tail _ hst ih =>
    obtain ⟨hq, hpre⟩ := ih.1.step hst
    exact ⟨hq, ih.2.trans hpre⟩

end System

namespace System

variable {E : Env D} {B : Batch D}

/-- No run comes to an error, or does something undefined. -/
def Clean (E : Env D) (B : Batch D) : Prop :=
  ∀ s : System E, Reachable E B s →
    s.err.code = 0 ∧ ∀ w < B.slots, ∀ fault, s.workers w ≠ .escaped fault

/-- The simulations of a plan succeed. -/
def Succeeds (E : Env D) (B : Batch D) : Prop :=
  ∀ i < B.bound, ∀ conds, B.settings i = .ok conds → (E.simulate conds).1.code = 0

/-- When all values can be taken and nothing else goes wrong, nothing goes wrong. -/
theorem Quiet.clean (hok : ∀ i < B.bound, ∃ conds, B.settings i = .ok conds) :
    Clean (Env.quiet D) B := by
  intro s hs
  have hq := (Quiet.start.of_run hs).1
  constructor
  · by_contra herr
    obtain ⟨i, hi, err, hset⟩ := hq.err herr
    obtain ⟨conds, hconds⟩ := hok i hi
    rw [hset] at hconds; cases hconds
  · intro w _ fault heq
    obtain ⟨i, hi, hset⟩ := hq.escaped w fault heq
    obtain ⟨conds, hconds⟩ := hok i hi
    rw [hset] at hconds; cases hconds

/-- The pairs of the simulations so far. -/
def pairs (s : System E) : List (ℕ × ℕ) := s.simulated.map fun x => (x.1, x.2.1)

/-- One turn of the loop of a worker, alone. -/
theorem turn (hclean : Clean E B) (hsucc : Succeeds E B) {s : System E} (hs : Reachable E B s)
    {w i : ℕ} (hw : w < B.slots) (hpc : s.workers w = .loop i) (hi : i < B.bound)
    {conds : Conditions D} (hconds : B.settings i = .ok conds) :
    ∃ s', Relation.ReflTransGen (Step B) s s' ∧
      s'.workers = Function.update s.workers w (.loop ((i + B.slots) % 2 ^ 32)) ∧
      s'.pairs = s.pairs ++ [(i / B.replicasSize, i % B.replicasSize)] := by
  have hcode := hsucc i hi conds hconds
  obtain ⟨s₁, hs₁, hworkers₁, hpairs₁⟩ : ∃ s₁, s.step B w = some s₁ ∧
      s₁.workers = Function.update s.workers w
        (.ran i (E.simulate conds).1 (E.simulate conds).2) ∧
      s₁.pairs = s.pairs ++ [(i / B.replicasSize, i % B.replicasSize)] := by
    simp only [step, hpc, if_pos hi, hconds]
    exact ⟨_, rfl, rfl, List.map_append⟩
  have hrun₁ : Relation.ReflTransGen (Step B) s s₁ := .single ⟨w, hw, hs₁⟩
  have herr₁ := (hclean s₁ (hs.trans hrun₁)).1
  have hpc₁ : s₁.workers w = .ran i (E.simulate conds).1 (E.simulate conds).2 := by
    rw [hworkers₁, Function.update_self]
  -- The insertion succeeds, since the state that follows is clean.
  obtain ⟨s₂, hs₂⟩ : ∃ s₂, s₁.step B w = some s₂ := by
    simp only [step, hpc₁, herr₁, hcode, ne_eq, not_true_eq_false, if_false]
    cases E.insertReplicate s₁.outputs (E.simulate conds).2 (i / B.replicasSize) B.inputsSize
      B.replicasSize with
    | ok outputs => exact ⟨_, rfl⟩
    | error fault => cases fault <;> exact ⟨_, rfl⟩
  have hrun₂ : Relation.ReflTransGen (Step B) s s₂ := hrun₁.tail ⟨w, hw, hs₂⟩
  obtain ⟨herr₂, hsafe₂⟩ := hclean s₂ (hs.trans hrun₂)
  refine ⟨s₂, hrun₂, ?_⟩
  rcases step_ran hpc₁ hs₂ with ⟨herr, -⟩ | ⟨-, err, herr, rfl, -⟩ | ⟨-, outputs, -, rfl⟩ |
    ⟨-, fault, -, -, rfl⟩
  · exact absurd herr₁ herr
  · exact absurd herr₂ herr
  · refine ⟨?_, hpairs₁⟩
    simp only [goto, hworkers₁, Function.update_idem]
  · exact absurd (Function.update_self ..) (hsafe₂ w hw fault)

/-- Some turns of a worker, alone, as long as its numbers do not wrap around. -/
theorem turns (hclean : Clean E B) (hsucc : Succeeds E B)
    (hok : ∀ i < B.bound, ∃ conds, B.settings i = .ok conds) {s : System E} (hs : Reachable E B s)
    {w i : ℕ} (hw : w < B.slots) (hpc : s.workers w = .loop i) (k : ℕ)
    (hk : i + k * B.slots < B.bound) :
    ∃ s', Relation.ReflTransGen (Step B) s s' ∧
      s'.workers = Function.update s.workers w (.loop ((i + k * B.slots + B.slots) % 2 ^ 32)) ∧
      ∃ l, s'.pairs = s.pairs ++ l ∧
        ((i + k * B.slots) / B.replicasSize, (i + k * B.slots) % B.replicasSize) ∈ l := by
  induction k with
  | zero =>
    rw [Nat.zero_mul, Nat.add_zero] at hk ⊢
    obtain ⟨conds, hconds⟩ := hok i hk
    obtain ⟨s', hrun, hworkers, hpairs⟩ := turn hclean hsucc hs hw hpc hk hconds
    exact ⟨s', hrun, hworkers, _, hpairs, List.mem_singleton_self _⟩
  | succ k ih =>
    have hsucc' : i + (k + 1) * B.slots = i + k * B.slots + B.slots := by ring
    rw [hsucc'] at hk ⊢
    obtain ⟨s₁, hrun₁, hworkers₁, l, hpairs₁, -⟩ := ih (by omega)
    have hlt : B.bound < 2 ^ 32 := Nat.mod_lt _ (by decide)
    rw [Nat.mod_eq_of_lt (by omega)] at hworkers₁
    obtain ⟨conds, hconds⟩ := hok _ hk
    obtain ⟨s₂, hrun₂, hworkers₂, hpairs₂⟩ := turn hclean hsucc (hs.trans hrun₁) hw
      (by rw [hworkers₁, Function.update_self]) hk hconds
    refine ⟨s₂, hrun₁.trans hrun₂, by rw [hworkers₂, hworkers₁, Function.update_idem], _,
      by rw [hpairs₂, hpairs₁, List.append_assoc], ?_⟩
    exact List.mem_append_right _ (List.mem_singleton_self _)

/-- When the numbers wrap around, some run simulates a pair twice. -/
theorem exists_twice (hclean : Clean E B) (hsucc : Succeeds E B) (hslots : 1 ≤ B.slots)
    (hlt : B.slots < 2 ^ 32) (hok : ∀ i < B.bound, ∃ conds, B.settings i = .ok conds)
    (hpos : 0 < B.bound) (hwrap : 2 ^ 32 < B.bound + B.slots) :
    ∃ s : System E, Reachable E B s ∧ ¬ s.pairs.Nodup := by
  have hbound : B.bound < 2 ^ 32 := Nat.mod_lt _ (by decide)
  -- After the last number comes `i`, which is the number of another turn.
  obtain ⟨i, hi⟩ : ∃ i, i + 2 ^ 32 = B.bound - 1 + B.slots := ⟨B.bound - 1 + B.slots - 2 ^ 32, by omega⟩
  have hwrapped : (B.bound - 1 + B.slots) % 2 ^ 32 = i := by
    rw [← hi, Nat.add_mod_right, Nat.mod_eq_of_lt (by omega)]
  have hsplit : ∀ j, j % B.slots + j / B.slots * B.slots = j := fun j => by
    rw [Nat.mul_comm]; exact Nat.mod_add_div j _
  obtain ⟨s₁, hrun₁, hworkers₁, l₁, hpairs₁, hmem₁⟩ := turns hclean hsucc hok
    (s := {}) .refl (Nat.mod_lt i hslots) rfl (i / B.slots) (by rw [hsplit]; omega)
  rw [hsplit] at hworkers₁ hmem₁
  -- Whichever worker takes the last number takes `i` next.
  have hlast : ∃ s₂, Relation.ReflTransGen (Step B) s₁ s₂ ∧
      s₂.workers ((B.bound - 1) % B.slots) = .loop i ∧ ∃ l, s₂.pairs = s₁.pairs ++ l := by
    by_cases e : (B.bound - 1) % B.slots = i % B.slots
    · have hle := (lt_add_slots_iff hslots e).not.mpr (by omega)
      have hdvd : B.slots ∣ B.bound - 1 - (i + B.slots) := by
        refine Nat.dvd_of_mod_eq_zero (Nat.sub_mod_eq_zero_of_mod_eq ?_)
        rw [Nat.add_mod_right, e]
      obtain ⟨k, hk⟩ := hdvd
      have hk' : i + B.slots + k * B.slots = B.bound - 1 := by rw [Nat.mul_comm] at hk; omega
      rw [Nat.mod_eq_of_lt (show i + B.slots < 2 ^ 32 by omega)] at hworkers₁
      obtain ⟨s₂, hrun₂, hworkers₂, l, hpairs₂, -⟩ := turns hclean hsucc hok hrun₁
        (Nat.mod_lt i hslots) (by rw [hworkers₁, Function.update_self]) k (by rw [hk']; omega)
      rw [hk', hwrapped] at hworkers₂
      exact ⟨s₂, hrun₂, by rw [hworkers₂, e, Function.update_self], l, hpairs₂⟩
    · obtain ⟨s₂, hrun₂, hworkers₂, l, hpairs₂, -⟩ := turns hclean hsucc hok hrun₁
        (Nat.mod_lt (B.bound - 1) hslots) (by rw [hworkers₁, Function.update_of_ne e])
        ((B.bound - 1) / B.slots) (by rw [hsplit]; omega)
      rw [hsplit, hwrapped] at hworkers₂
      exact ⟨s₂, hrun₂, by rw [hworkers₂, Function.update_self], l, hpairs₂⟩
  obtain ⟨s₂, hrun₂, hpc₂, l₂, hpairs₂⟩ := hlast
  obtain ⟨conds, hconds⟩ := hok i (by omega)
  obtain ⟨s₃, hrun₃, -, hpairs₃⟩ := turn hclean hsucc (hrun₁.trans hrun₂)
    (Nat.mod_lt (B.bound - 1) hslots) hpc₂ (by omega) hconds
  refine ⟨s₃, (hrun₁.trans hrun₂).trans hrun₃, fun hnodup => ?_⟩
  rw [hpairs₃, hpairs₂, hpairs₁] at hnodup
  refine (List.nodup_append.mp hnodup).2.2 _ ?_ _ (List.mem_singleton_self _) rfl
  exact List.mem_append_left _ (List.mem_append_right _ hmem₁)

end System

/-- The size in common is at least one. -/
theorem CommonSize.pos {values : ManInput D → Except Fault (Value D)} {vars : List (ManInput D)}
    {n : ℕ} (h : CommonSize values vars n) : 0 < n := by
  by_cases hall : ∀ m ∈ vars, ∀ v, values m = .ok v → (given v).length ≤ 1
  · rw [h.2 hall]; exact one_pos
  · push Not at hall
    obtain ⟨m, hm, v, hv, hlt⟩ := hall
    have := h.1 m hm v hv hlt
    omega

/-- The size of the first variable is the size in common, if it is at least as large. -/
theorem CommonSize.eq_nbValues {values : ManInput D → Except Fault (Value D)} {m : ManInput D}
    {vars : List (ManInput D)} {n : ℕ} (h : CommonSize values (m :: vars) n) {v : Value D}
    (hv : values m = .ok v) (hsize : m.nbValues = (given v).length % 2 ^ 32) (hpos : 0 < m.nbValues)
    (hle : n ≤ m.nbValues) : m.nbValues = n := by
  have hn := h.pos
  by_cases hlen : 1 < (given v).length
  · have h1 := h.1 m List.mem_cons_self v hv hlen
    have h2 := Nat.mod_le (given v).length (2 ^ 32)
    omega
  · have h2 := Nat.mod_le (given v).length (2 ^ 32)
    omega

/-- A variable whose values can be taken at every index fits the size in common. -/
theorem CommonSize.fits {values : ManInput D → Except Fault (Value D)} {vars : List (ManInput D)}
    {n : ℕ} (h : CommonSize values vars n) {m : ManInput D} (hm : m ∈ vars) {v : Value D}
    (hv : values m = .ok v) (htake : ∀ k < n, ∃ x, pick v n k = .ok x) : Batch.Fits v n := by
  have hn := h.pos
  cases hs : single v with
  | true =>
    obtain ⟨x, hx⟩ := htake 0 hn
    rw [pick_single hs] at hx
    split_ifs at hx with hone
    rw [Batch.Fits, given_of_single hs, hone]
    exact ⟨rfl, by simp⟩
  | false =>
    have hget : ∀ k < n, ∃ x, (given v)[k]? = some (some x) := fun k hk =>
      (htake k hk).imp fun x hx => (pick_many hs).mp hx
    have hlen : (given v).length = n := by
      obtain ⟨x, hx⟩ := hget (n - 1) (by omega)
      have h1 := (List.getElem?_eq_some_iff.mp hx).1
      by_cases hlt : 1 < (given v).length
      · exact h.1 m hm v hv hlt
      · omega
    refine ⟨hlen, fun hnone => ?_⟩
    obtain ⟨k, hk, heq⟩ := List.mem_iff_getElem.mp hnone
    obtain ⟨x, hx⟩ := hget k (by omega)
    rw [List.getElem?_eq_getElem hk, heq] at hx
    cases hx

/-- The index of a variable holds the value that the conditions have at its port. -/
theorem Holds.get {conds : Conditions D} {m : ManInput D} {v : Value D} {n k : ℕ}
    (h : Holds conds m (given v) k) (hfits : Batch.Fits v n) (hk : k < n) :
    (given v)[k]? = conds.port m.cond m.port := by
  by_cases hlen : 1 < (given v).length
  · obtain ⟨x, hx, hport⟩ := h.1 hlen
    rw [hx, hport]
  · have hone : (given v).length = 1 := by have := hfits.1; omega
    obtain ⟨x, hx, hport⟩ := h.2 hone
    have hk0 : k = 0 := by have := hfits.1; omega
    rw [hx, hk0, hport]
    rfl

namespace Batch

variable {B : Batch D}

/-- The workers that come to their ends without an error have simulated a consistent plan. -/
theorem Simulates.consistent (hB : B.WellFormed) {s : System (Env.quiet D)} (hq : System.Quiet B s)
    (h : B.Simulates s.simulated)
    (hsmall : (∀ i < B.bound, ∃ conds, B.settings i = .ok conds) → 0 < B.bound →
      B.bound + B.slots ≤ 2 ^ 32) : B.Consistent := by
  obtain ⟨n, m, hn, hm, hperm, hholds⟩ := h
  have hmem : ∀ i < n, ∀ j < m, ∃ conds, (i, j, conds) ∈ s.simulated := by
    intro i hi j hj
    have := hperm.mem_iff.mpr
      (List.mem_product.mpr ⟨List.mem_range.mpr hi, List.mem_range.mpr hj⟩)
    obtain ⟨⟨i', j', conds⟩, hx, heq⟩ := List.mem_map.mp this
    cases heq
    exact ⟨conds, hx⟩
  -- Every pair is the one of a number below the bound.
  have hnum : ∀ i < n, ∀ j < m, ∃ k < B.bound, k / B.replicasSize = i ∧ k % B.replicasSize = j ∧
      ∃ conds, B.settings k = .ok conds ∧ (i, j, conds) ∈ s.simulated := by
    intro i hi j hj
    obtain ⟨conds, hx⟩ := hmem i hi j hj
    obtain ⟨k, hk, conds', hset, heq⟩ := hq.simulated _ hx
    cases heq
    exact ⟨k, hk, rfl, rfl, conds, hset, hx⟩
  have hbound : B.bound ≤ B.replicasSize * B.inputsSize := Nat.mod_le _ _
  have hpos : 0 < B.replicasSize ∧ 0 < B.inputsSize := by
    obtain ⟨k, hk, -⟩ := hnum 0 hn.pos 0 hm.pos
    exact ⟨Nat.pos_of_ne_zero fun h0 => by simp [h0] at hbound; omega,
      Nat.pos_of_ne_zero fun h0 => by simp [h0] at hbound; omega⟩
  have hN : B.inputsSize = n := by
    obtain ⟨k, hk, hdiv, -⟩ := hnum (n - 1) (by have := hn.pos; omega) 0 hm.pos
    have hlt : k / B.replicasSize < B.inputsSize := Nat.div_lt_of_lt_mul (by omega)
    cases hins : B.mInputs with
    | nil =>
      rw [inputsSize_nil hins]
      exact (hn.2 fun p hp => by rw [hins] at hp; cases hp).symm
    | cons p vars =>
      obtain ⟨v, hv, hsize⟩ := hB.input p (by rw [hins]; exact List.mem_cons_self)
      have hsz : B.inputsSize = p.nbValues := by simp [inputsSize, ManagerObjects.inputsSize, hins]
      rw [hins] at hn
      rw [hsz] at hlt ⊢
      exact hn.eq_nbValues hv hsize (by omega) (by omega)
  have hM : B.replicasSize = m := by
    obtain ⟨k, hk, -, hmod, -⟩ := hnum 0 hn.pos (m - 1) (by have := hm.pos; omega)
    have hlt : k % B.replicasSize < B.replicasSize := Nat.mod_lt _ hpos.1
    cases hins : B.mReplicates with
    | nil =>
      rw [replicasSize_nil hins]
      exact (hm.2 fun p hp => by rw [hins] at hp; cases hp).symm
    | cons p vars =>
      obtain ⟨v, hv, hsize, -⟩ := hB.replicate p (by rw [hins]; exact List.mem_cons_self)
      have hsz : B.replicasSize = p.nbValues := by
        simp [replicasSize, ManagerObjects.replicasSize, hins]
      rw [hins] at hm
      rw [hsz] at hlt hmod ⊢
      exact hm.eq_nbValues hv hsize (by omega) (by omega)
  subst hN hM
  -- The numbers of the plan are below the bound, and their values can be taken.
  have hall : ∀ k < B.inputsSize * B.replicasSize, k < B.bound ∧
      ∃ conds, B.settings k = .ok conds := by
    intro k hk
    obtain ⟨k', hk', hdiv, hmod, conds, hset, -⟩ := hnum (k / B.replicasSize)
      (Nat.div_lt_of_lt_mul (by rwa [Nat.mul_comm])) (k % B.replicasSize) (Nat.mod_lt _ hpos.1)
    have : k' = k := by
      rw [← Nat.div_add_mod k' B.replicasSize, ← Nat.div_add_mod k B.replicasSize, hdiv, hmod]
    subst this
    exact ⟨hk', conds, hset⟩
  have hprod : 0 < B.inputsSize * B.replicasSize := Nat.mul_pos hpos.2 hpos.1
  have heq : B.bound = B.inputsSize * B.replicasSize := by
    have := (hall _ (Nat.sub_lt hprod one_pos)).1
    rw [Nat.mul_comm] at hbound
    omega
  have htake : ∀ i < B.inputsSize, ∀ j < B.replicasSize,
      Settable (·.values B.init) B.inputsSize i B.mInputs B.model ∧
        Settable (ManReplicate.values · B.init) B.replicasSize j B.mReplicates B.model := by
    intro i hi j hj
    obtain ⟨k, -, rfl, rfl, conds, hset, -⟩ := hnum i hi j hj
    exact settable_of_settings hset
  have hfitsIn : ∀ p ∈ B.mInputs, ∀ v, p.values B.init = .ok v → Fits v B.inputsSize := by
    refine fun p hp v hv => hn.fits hp hv fun k hk => ?_
    obtain ⟨-, v', x, hv', hx⟩ := (htake k hk 0 hpos.1).1 p hp
    cases hv.symm.trans hv'
    exact ⟨x, hx⟩
  have hfitsRepl : ∀ p ∈ B.mReplicates, ∀ v, ManReplicate.values p B.init = .ok v →
      Fits v B.replicasSize := by
    refine fun p hp v hv => hm.fits hp hv fun k hk => ?_
    obtain ⟨-, v', x, hv', hx⟩ := (htake 0 hpos.2 k hk).2 p hp
    cases hv.symm.trans hv'
    exact ⟨x, hx⟩
  refine ⟨⟨fun p hp => ?_, hfitsIn, hfitsRepl, ?_, ⟨hpos.2, hpos.1⟩⟩, ?_⟩
  · rcases List.mem_append.mp hp with hp | hp
    · exact ((htake 0 hpos.2 0 hpos.1).1 p hp).1
    · exact ((htake 0 hpos.2 0 hpos.1).2 p hp).1
  · intro p hp r hr hcond hport v hv v' hv' i hi j hj
    obtain ⟨conds, hx⟩ := hmem i hi j hj
    obtain ⟨hin, hrepl⟩ := hholds _ hx
    rw [Holds.get (hin p hp v hv) (hfitsIn p hp v hv) hi, hcond, hport]
    exact (Holds.get (hrepl r hr v' hv') (hfitsRepl r hr v' hv') hj).symm
  · rw [← heq]
    exact hsmall (fun k hk => (hall k (by omega)).2) (by omega)

/-- A report of the loop over the variables is that of the first single value. -/
theorem post_reported {values : ManInput D → Except Fault (Value D)} {n k : ℕ}
    {vars : List (ManInput D)} (hvalues : ∀ m ∈ vars, ∃ v, values m = .ok v) {conds : Conditions D}
    {err : Error} (h : post values n k vars conds = .error (.reported err)) :
    n ≠ 1 ∧ ∃ before m after, vars = before ++ m :: after ∧
      (∃ v, values m = .ok v ∧ single v = true) ∧
        ∀ p ∈ before, ∃ v, values p = .ok v ∧ single v = false := by
  induction vars generalizing conds with
  | nil => cases h
  | cons m vars ih =>
    obtain ⟨v, hv⟩ := hvalues m List.mem_cons_self
    cases hs : single v with
    | true =>
      by_cases hn : n = 1
      · simp only [post, hv, escape, Except.mapError, bind, Except.bind, pick_single hs, if_pos hn]
          at h
        cases hc : conds.modify m.cond (·.setValueToPort m.port v) with
        | error e => rw [hc] at h; cases h
        | ok conds₁ =>
          rw [hc] at h
          exact absurd hn (ih (fun m' hm' => hvalues m' (List.mem_cons_of_mem _ hm')) h).1
      · exact ⟨hn, [], m, vars, rfl, ⟨v, hv, hs⟩, fun _ hp => absurd hp List.not_mem_nil⟩
    | false =>
      simp only [post, hv, escape, Except.mapError, bind, Except.bind] at h
      cases hp : pick v n k with
      | error e =>
        obtain ⟨fault, rfl⟩ := pick_many_error hs hp
        rw [hp] at h
        cases h
      | ok x =>
        rw [hp] at h
        cases hc : conds.modify m.cond (·.setValueToPort m.port x) with
        | error e => simp only [hc] at h; cases h
        | ok conds₁ =>
          simp only [hc] at h
          obtain ⟨hn, before, m', after, rfl, hm', hbefore⟩ :=
            ih (fun m' hm' => hvalues m' (List.mem_cons_of_mem _ hm')) h
          refine ⟨hn, m :: before, m', after, rfl, hm', fun p hp => ?_⟩
          rcases List.mem_cons.mp hp with rfl | hp
          · exact ⟨v, hv, hs⟩
          · exact hbefore p hp

/-- No first simulation of a worker escapes. -/
theorem Completes.not_escaped (h : B.Completes) {w : ℕ} (hw : w < B.slots) (hb : w < B.bound)
    (fault : Fault) : B.settings w ≠ .error (.escaped fault) := by
  intro hset
  have hstep : System.Step B ({} : System (Env.quiet D)) (({} : System (Env.quiet D)).goto w
      (.escaped fault)) := ⟨w, hw, by simp only [System.step, if_pos hb, hset]⟩
  exact h.safe _ Env.quiet_defined _ (.single hstep) w hw fault (Function.update_self ..)

/-- A plan that comes through is consistent or refused. -/
theorem Completes.consistent_or_refused (hB : B.WellFormed) (h : B.Completes) :
    B.Consistent ∨ B.Refused := by
  obtain ⟨s, hrun, hstuck⟩ := exists_stuck
    (h.terminates _ Env.quiet_defined _ Relation.ReflTransGen.refl)
  have hq := (System.Quiet.start.of_run hrun).1
  rcases h.complete _ Env.quiet_defined s hrun hstuck with herr | hsim
  · -- A worker has met a single value in a plan of another size.
    obtain ⟨i, hi, err, hset⟩ := hq.err herr
    have hinputs : post (·.values B.init) B.inputsSize (i / B.replicasSize) B.mInputs B.model =
        .error (.reported err) := by
      simp only [settings, bind, Except.bind] at hset
      cases hpost : post (·.values B.init) B.inputsSize (i / B.replicasSize) B.mInputs B.model with
      | error e => rw [hpost] at hset; exact hset
      | ok conds =>
        rw [hpost] at hset
        obtain ⟨fault, hf⟩ := post_many_error (fun m hm => by
          obtain ⟨v, hv, -, hs⟩ := hB.replicate m hm
          exact ⟨v, hv, hs⟩) hset
        cases hf
    obtain ⟨hn, before, m, after, hsplit, hm, hbefore⟩ :=
      post_reported (fun m hm => (hB.input m hm).imp fun _ hv => hv.1) hinputs
    -- In a first simulation, the inputs before it are set without a fault.
    have hfirst : ∀ w < B.slots, w < B.bound →
        Settable (·.values B.init) B.inputsSize (w / B.replicasSize) before B.model := by
      intro w hw hb
      cases hpost : post (·.values B.init) B.inputsSize (w / B.replicasSize) before B.model with
      | ok conds => exact post_settable hpost
      | error e =>
        obtain ⟨fault, rfl⟩ := post_many_error hbefore hpost
        refine absurd ?_ (h.not_escaped hw hb fault)
        rw [settings, hsplit, post_append, hpost]
        rfl
    refine .inr ⟨hn, by omega, before, m, after, hsplit, hm, fun p hp => ?_⟩
    obtain ⟨v, hv, hs⟩ := hbefore p hp
    have hpos : 0 < B.slots := hB.slots_pos
    refine ⟨(hfirst 0 hpos (by omega) p hp).1, v, hv, hs, fun w hw hb => ?_⟩
    obtain ⟨-, v', x, hv', hx⟩ := hfirst w hw hb p hp
    cases hv.symm.trans hv'
    exact ⟨x, (pick_many hs).mp hx⟩
  · refine .inl (Simulates.consistent hB hq hsim fun hok hpos => ?_)
    by_contra hwrap
    obtain ⟨s, hreach, htwice⟩ := System.exists_twice (System.Quiet.clean hok)
      (fun _ _ _ _ => rfl) hB.slots_pos hB.slots_lt hok hpos (by omega)
    obtain ⟨s', hrun', hstuck'⟩ := exists_stuck (h.terminates _ Env.quiet_defined s hreach)
    obtain ⟨hq', -⟩ := System.Quiet.start.of_run (hreach.trans hrun')
    have hpre := ((System.Quiet.start.of_run hreach).1.of_run hrun').2
    rcases h.complete _ Env.quiet_defined s' (hreach.trans hrun') hstuck' with
      herr | ⟨n, m, -, -, hperm, -⟩
    · obtain ⟨i, hi, err, hset⟩ := hq'.err herr
      obtain ⟨conds, hconds⟩ := hok i hi
      rw [hset] at hconds; cases hconds
    · refine htwice (List.Nodup.sublist (hpre.map _).sublist ?_)
      exact hperm.nodup_iff.mpr (List.nodup_range.product List.nodup_range)

end Batch

end Vle.Manager
