import Vle.Manager.Delegates

/-!
# Insertions in the outputs

The views of a plan are numeric when they have a common header and a common number of rows, and doubles
under the header (`Numeric`). An output then finds the column of its port, unless this is the column
whose number stands for a missing one, and its delegate takes the views of all numbers
(`insertReplicate_spec`); with the last one the outputs have got what they give in the end.
-/

namespace Vle.Manager

open Lib Lib.Except

/-! ## Numeric views -/

/-- A view of doubles, under a header. -/
structure Matrix.Numeric (m : Matrix) (header : List String) (rows : ℕ) : Prop where
  columns_eq : m.columns = header.length
  rows_eq : m.rows = rows
  names : ∀ c (h : c < header.length), m.cell c 0 = some (.string header[c])
  double : ∀ c < header.length, ∀ r, 1 ≤ r → r < rows → ∃ d, m.cell c r = some (.double d)

namespace Matrix

/-- The double at a cell. -/
def value (m : Matrix) (c r : ℕ) : ℚ :=
  match m.cell c r with
  | some (.double d) => d
  | _ => 0

/-- The doubles of a column. -/
def values (m : Matrix) (c : ℕ) : List ℚ := (List.range' 1 (m.rows - 1)).map (m.value c)

variable {m : Matrix} {header : List String} {rows c r : ℕ}

theorem Numeric.cell (h : m.Numeric header rows) (hc : c < header.length) (h1 : 1 ≤ r)
    (hr : r < rows) : m.cell c r = some (.double (m.value c r)) := by
  obtain ⟨d, hd⟩ := h.double c hc r h1 hr
  rw [value, hd]

theorem Numeric.get (h : m.Numeric header rows) (hc : c < header.length) (hr : r ≤ rows) :
    m.get c r = .ok (m.cell c r) := by
  rw [Matrix.get, if_pos ⟨by rwa [h.columns_eq], by rwa [h.rows_eq]⟩]

theorem Numeric.getDouble (h : m.Numeric header rows) (hc : c < header.length) (h1 : 1 ≤ r)
    (hr : r < rows) : m.getDouble c r = .ok (m.value c r) := by
  simp only [Matrix.getDouble, getValue, h.get hc hr.le, ok_bind, h.cell hc h1 hr, pure_eq]

theorem Numeric.getString (h : m.Numeric header rows) (hc : c < header.length) :
    m.getString c 0 = .ok header[c] := by
  simp only [Matrix.getString, getValue, h.get hc (Nat.zero_le _), ok_bind, h.names c hc, pure_eq]

theorem Numeric.column (h : m.Numeric header rows) (hc : c < header.length) :
    m.column c = .ok (m.values c) := by
  refine mapM_eq_ok fun r hr => h.getDouble hc ?_ ?_
  · exact (List.mem_range'_1.mp hr).1
  · have := (List.mem_range'_1.mp hr)
    rw [h.rows_eq] at this
    omega

theorem Numeric.length_values (h : m.Numeric header rows) : (m.values c).length = rows - 1 := by
  rw [values, List.length_map, List.length_range', h.rows_eq]

end Matrix

namespace ManOutput

variable {o : ManOutput} {m : Matrix} {header : List String} {rows c : ℕ}

/-- The integration of a numeric view is a double. -/
theorem integrateDouble_ok (h : m.Numeric header rows) (hrows : 2 ≤ rows) (hc : c < header.length)
    (ho : o.integrationType ≠ .ALL) : ∃ v, o.integrateDouble c m = .ok v := by
  have hdouble : ∀ v, o.integrateReplicate c m = .ok (.double v) → ∃ v, o.integrateDouble c m = .ok v :=
    fun v hv => ⟨v, by simp only [integrateDouble, hv, ok_bind, pure_eq]⟩
  cases hint : o.integrationType with
  | ALL => exact absurd hint ho
  | MAX =>
    exact hdouble ((m.values c).foldl (fun max v => if v > max then v else max) (-9999)) (by
      simp only [integrateReplicate, hint, h.column hc, ok_bind, pure_eq])
  | SUM =>
    exact hdouble (m.values c).sum (by
      simp only [integrateReplicate, hint, h.column hc, ok_bind, pure_eq])
  | LAST =>
    refine hdouble (m.value c (m.rows - 1)) ?_
    have hr := h.rows_eq
    simp only [integrateReplicate, hint, h.get hc (show m.rows - 1 ≤ rows by omega), ok_bind,
      h.cell hc (show 1 ≤ m.rows - 1 by omega) (show m.rows - 1 < rows by omega)]
    rfl
  | MSE =>
    have hr := h.rows_eq
    obtain ⟨errors, herrors⟩ := filterMapM_ok (l := o.mseTimes.zip o.mseObservations)
      (f := fun x => do
        let t := ⌊x.1⌋
        if 0 ≤ t ∧ t + 1 < m.rows then
          return some (((← m.getDouble c (t.toNat + 1)) - x.2) ^ 2)
        else
          return none) fun x _ => by
        by_cases ht : 0 ≤ ⌊x.1⌋ ∧ ⌊x.1⌋ + 1 < m.rows
        · have hget := h.getDouble hc (r := ⌊x.1⌋.toNat + 1) (by omega) (by omega)
          simp only [if_pos ht, hget, ok_bind, pure_eq]
          exact ⟨_, rfl⟩
        · simp only [if_neg ht, pure_eq]
          exact ⟨_, rfl⟩
    refine hdouble (errors.sum / errors.length) ?_
    simp only [integrateReplicate, hint]
    rw [herrors]
    rfl

/-- The last column of a port, by the header; the number that the source starts with if it has none. -/
def lastColumn (port : String) (header : List String) : ℕ :=
  (List.range header.length).foldl (fun c i => if header[i]? = some port then i else c) 9999

theorem lastColumn_lt {port : String} (h : port ∈ header) :
    lastColumn port header < header.length := by
  obtain ⟨i, hi, heq⟩ := List.mem_iff_getElem.mp h
  have hloop : ∀ n ≤ header.length, i < n →
      (List.range n).foldl (fun c i => if header[i]? = some port then i else c) 9999 < n := by
    intro n
    induction n with
    | zero => omega
    | succ n ih =>
      intro hn hlt
      rw [List.range_succ, List.foldl_append, List.foldl_cons, List.foldl_nil]
      split_ifs with hport
      · omega
      · have : i ≠ n := by
          rintro rfl
          exact hport (by rw [List.getElem?_eq_getElem hi, heq])
        have := ih (by omega) (by omega)
        omega
  exact hloop _ le_rfl hi

/-- The search for the column of a port. -/
theorem findColumn_eq (h : m.Numeric header rows) (port : String) :
    findColumn port m = .ok (lastColumn port header) := by
  have hloop : ∀ l : List ℕ, (∀ i ∈ l, i < header.length) → ∀ start : ℕ,
      l.foldlM (fun colIndex i => do
        return if (← m.getString i 0) = port then i else colIndex) start =
      (.ok (l.foldl (fun c i => if header[i]? = some port then i else c) start) : Except Fault ℕ) := by
    intro l
    induction l with
    | nil => intro _ start; rfl
    | cons i l ih =>
      intro hl start
      have hi := hl i List.mem_cons_self
      rw [List.foldlM_cons, h.getString hi, ok_bind, pure_eq, ok_bind,
        ih fun j hj => hl j (List.mem_cons_of_mem _ hj), List.foldl_cons,
        List.getElem?_eq_getElem hi]
      simp only [Option.some.injEq]
  rw [findColumn, h.columns_eq]
  exact hloop _ (fun i hi => List.mem_range.mp hi) _

end ManOutput

/-- The header and the number of rows of the views. -/
structure Shape where
  header : String → List String
  rows : String → ℕ

/-- The view of an output has the shape, and is numeric. -/
def Views.Numeric (result : Views) (S : Shape) (o : ManOutput) : Prop :=
  ∃ m, result o.view = some m ∧ m.Numeric (S.header o.view) (S.rows o.view)

namespace ManOutput

variable (o : ManOutput) (S : Shape) (N M : ℕ) (result : ℕ → Views)

/-- The view of an output has rows under its header, and the port of the output. -/
def Shaped : Prop := 2 ≤ S.rows o.view ∧ o.absolutePort ∈ S.header o.view

/-- The column of an output. -/
def port : ℕ := lastColumn o.absolutePort (S.header o.view)

/-- The integrated value of the view of a number. -/
def integrated (n : ℕ) : ℚ :=
  match result n o.view with
  | some m => statValue (o.integrateDouble (o.port S) m)
  | none => 0

/-- The column of the view of a number. -/
def columnOf (n : ℕ) : List ℚ :=
  match result n o.view with
  | some m => m.values (o.port S)
  | none => []

/-- The aggregate that an output gives for the views of some numbers. -/
def final (l : List ℕ) : Aggregate :=
  o.finish N M (S.rows o.view - 1) (o.integrated S result) (o.columnOf S result) l

/-- The delegate can be created, and the first insertion does not go wrong. -/
structure Startable : Prop where
  port_ne : o.port S ≠ 9999
  all : o.integrationType = .ALL → o.inputAggregationType ≠ .S_at → M = 1

/-- What is kept after the insertion of some numbers that are not all. -/
def Keeps (l : List ℕ) (state : Option OutputState) : Prop :=
  l = [] ∧ state = none ∨ l ≠ [] ∧ o.Startable S M ∧ ∃ d,
    state = some { colIndex := o.port S, nbInputs := N, nbReplicates := M, delegate := d } ∧
      d.Represents o N M (S.rows o.view - 1) (o.integrated S result) (o.columnOf S result) l

variable {o S N M result} {l : List ℕ} {n : ℕ} {state : Option OutputState}

theorem port_lt (hS : o.Shaped S) : o.port S < (S.header o.view).length := lastColumn_lt hS.2

theorem integrated_eq (hS : o.Shaped S) (h : (result n).Numeric S o) {m : Matrix}
    (hm : result n o.view = some m) (ho : o.integrationType ≠ .ALL) :
    o.integrateDouble (o.port S) m = .ok (o.integrated S result n) := by
  obtain ⟨m', hm', hnum⟩ := h
  cases hm.symm.trans hm'
  obtain ⟨v, hv⟩ := integrateDouble_ok hnum hS.1 (port_lt hS) ho
  simp only [integrated, hm, hv, statValue]

theorem column_eq (hS : o.Shaped S) (h : ∀ k ∈ l ++ [n], (result k).Numeric S o) {m : Matrix}
    (hm : result n o.view = some m) :
    Delegate.Column (S.rows o.view - 1) (o.columnOf S result) (o.port S) m l n := by
  have hrows := hS.1
  obtain ⟨m', hm', hnum⟩ := h n (by simp)
  cases hm.symm.trans hm'
  refine ⟨?_, by rw [hnum.rows_eq]; omega, by omega, fun k hk => ?_⟩
  · rw [hnum.column (port_lt hS), columnOf, hm]
  · obtain ⟨m', hm', hnum'⟩ := h k hk
    rw [columnOf, hm']
    exact hnum'.length_values

/-- The first insertion finds the column and creates the delegate for doubles. -/
theorem start_eq (hS : o.Shaped S) {m : Matrix} (h : m.Numeric (S.header o.view) (S.rows o.view))
    (nbIn nbRepl : ℕ) : o.start m nbIn nbRepl =
      if o.port S = 9999 then
        .error (.thrown s!"[Manager] view.port '{o.absolutePort}' not found)")
      else do
        return { colIndex := o.port S, nbInputs := nbIn, nbReplicates := nbRepl,
                 delegate := ← Delegate.create o nbIn true } := by
  have hrows : ¬ m.rows < 2 := by rw [h.rows_eq]; exact not_lt.mpr hS.1
  have hport : findColumn o.absolutePort m = .ok (o.port S) := findColumn_eq h _
  have hlt := port_lt hS
  have hS1 := hS.1
  unfold start
  simp only [if_neg hrows, hport, ok_bind, pure_eq]
  by_cases hne : o.port S = 9999
  · rw [if_pos hne, if_pos hne]
    rfl
  · rw [if_neg hne, if_neg hne, h.get hlt (by omega), h.cell hlt le_rfl (by omega)]
    rfl

/-- What the insertion of a number needs, beyond a numeric view: the first one a column, and not
several replicates for `DelOutIntALL`, the last one of an input a quantile that can be read. -/
structure Due (o : ManOutput) (S : Shape) (M : ℕ) (l : List ℕ) (n : ℕ) : Prop where
  startable : l = [] → o.Startable S M
  read : o.integrationType ≠ .ALL → Delegate.QuantileRead o M l n

/-- An insertion, by the delegate that it finds or creates. -/
theorem insertReplicate_keeps (hS : o.Shaped S) (hnum : ∀ k ∈ l ++ [n], (result k).Numeric S o)
    (ht : Turn N M l n) (h : o.Keeps S N M result l state) (hstart : l = [] → o.Startable S M) :
    ∃ (m : Matrix) (d : Delegate), result n o.view = some m ∧ o.Startable S M ∧
      d.Represents o N M (S.rows o.view - 1) (o.integrated S result) (o.columnOf S result) l ∧
      o.insertReplicate state (result n) (n / M) N M =
        (do
          let (delegate, res) ← d.insertReplicate o (o.port S) N M m (n / M)
          return ({ colIndex := o.port S, nbInputs := N, nbReplicates := M, delegate }, res)) := by
  obtain ⟨m, hm, hmnum⟩ := hnum n (by simp)
  rcases h with ⟨rfl, rfl⟩ | ⟨-, hst, d, rfl, hd⟩
  · obtain ⟨d, hcreate, hd⟩ := Delegate.create_spec o N M (S.rows o.view - 1)
      (o.integrated S result) (o.columnOf S result) ht.pos.1 ht.pos.2
    refine ⟨m, d, hm, hstart rfl, hd, ?_⟩
    unfold insertReplicate
    simp only [hm, start_eq hS hmnum, if_neg (hstart rfl).port_ne, hcreate, ok_bind, pure_eq]
  · refine ⟨m, d, hm, hst, hd, ?_⟩
    unfold insertReplicate
    simp only [hm, ok_bind, pure_eq]

/-- An output takes one number more, when what is due comes about. -/
theorem insertReplicate_spec (hS : o.Shaped S) (ho : o.Allowed)
    (hnum : ∀ k ∈ l ++ [n], (result k).Numeric S o) (ht : Turn N M l n)
    (h : o.Keeps S N M result l state) (hdue : o.Due S M l n) :
    ∃ state' res, o.insertReplicate state (result n) (n / M) N M = .ok (state', res) ∧
      (l.length + 1 ≠ N * M → res = none ∧ o.Keeps S N M result (l ++ [n]) (some state')) ∧
      (l.length + 1 = N * M → res = some (o.final S N M result (l ++ [n]))) := by
  obtain ⟨m, d, hm, hst, hd, heq⟩ := insertReplicate_keeps hS hnum ht h hdue.startable
  obtain ⟨d', res, hins, hmore, hlast⟩ := Delegate.insertReplicate_spec
    (integrated_eq hS (hnum n (by simp)) hm) (column_eq hS hnum hm) ht ho hst.all hdue.read hd
  refine ⟨_, res, by rw [heq, hins]; rfl, fun hne => ?_, hlast⟩
  obtain ⟨hres, hd'⟩ := hmore hne
  exact ⟨hres, .inr ⟨by simp, hst, d', rfl, hd'⟩⟩

/-- What an insertion needs has come about when it succeeds. -/
theorem due_of_ok (hS : o.Shaped S) (hnum : ∀ k ∈ l ++ [n], (result k).Numeric S o)
    (ht : Turn N M l n) (h : o.Keeps S N M result l state) {r : OutputState × Option Aggregate}
    (hok : o.insertReplicate state (result n) (n / M) N M = .ok r) : o.Due S M l n := by
  have hstart : l = [] → o.Startable S M := by
    rintro rfl
    obtain ⟨m, hm, hmnum⟩ := hnum n (by simp)
    have hstate : state = none := by
      rcases h with ⟨-, hs⟩ | ⟨hne, -⟩
      · exact hs
      · exact absurd rfl hne
    subst hstate
    unfold insertReplicate at hok
    simp only [hm, start_eq hS hmnum] at hok
    split_ifs at hok with hport
    · cases hok
    · refine ⟨hport, fun hall hat => ?_⟩
      by_contra hM
      have hc := column_eq (l := []) hS hnum hm
      simp only [Delegate.create, if_pos hall, if_neg hat, ok_bind, pure_eq,
        Delegate.insertReplicate, Delegate.insertIntAll_out hc ht hM] at hok
      cases hok
  refine ⟨hstart, fun hall => ?_⟩
  by_contra hread
  obtain ⟨m, d, hm, -, hd, heq⟩ := insertReplicate_keeps hS hnum ht h hstart
  rw [heq] at hok
  obtain ⟨d', hd', -⟩ := bind_eq_ok.mp hok
  exact Delegate.not_quantileRead (integrated_eq hS (hnum n (by simp)) hm hall) ht hread hall hd hd'

/-- The column is found, and the aggregations can be read. -/
def Good (o : ManOutput) (S : Shape) (M : ℕ) : Prop := o.port S ≠ 9999 ∧ o.Readable M

theorem Good.due (h : o.Good S M) : o.Due S M l n :=
  ⟨fun _ => ⟨h.1, h.2.all⟩, fun hall hM _ hs => h.2.quantile hall hs hM⟩

/-! ## Runs of one output -/

/-- The insertions of the views of some numbers, as far as one output is concerned. -/
def run (o : ManOutput) (N M : ℕ) (result : ℕ → Views) (l : List ℕ) :
    Except Fault (Option OutputState) :=
  l.foldlM (fun state n => (fun r => some r.1) <$> o.insertReplicate state (result n) (n / M) N M) none

theorem run_append (l : List ℕ) (n : ℕ) {state' : Option OutputState} :
    o.run N M result (l ++ [n]) = .ok state' ↔ ∃ state, o.run N M result l = .ok state ∧
      ∃ r, o.insertReplicate state (result n) (n / M) N M = .ok r ∧ state' = some r.1 := by
  rw [run, foldlM_concat, bind_eq_ok]
  refine exists_congr fun state => and_congr_right fun _ => ?_
  cases o.insertReplicate state (result n) (n / M) N M with
  | ok r => simp [eq_comm]
  | error e => simp [Functor.map, Except.map]

/-- The numbers before the last one of some numbers of simulations. -/
theorem turn_of (hnodup : (l ++ [n]).Nodup) (hlt : ∀ k ∈ l ++ [n], k < N * M) :
    Turn N M l n ∧ l.length + 1 ≤ N * M := by
  refine ⟨⟨hnodup, hlt⟩, ?_⟩
  have := (hnodup.subperm fun k hk => List.mem_range.mpr (hlt k hk)).length_le
  rwa [List.length_range, List.length_append, List.length_singleton] at this

/-- What an output keeps when its run has succeeded so far. -/
theorem keeps_of_run (hS : o.Shaped S) (ho : o.Allowed) (hnodup : l.Nodup)
    (hlt : ∀ k ∈ l, k < N * M) (hnum : ∀ k ∈ l, (result k).Numeric S o) (hlen : l.length < N * M)
    (hrun : o.run N M result l = .ok state) : o.Keeps S N M result l state := by
  induction l using List.reverseRecOn generalizing state with
  | nil =>
    cases hrun
    exact .inl ⟨rfl, rfl⟩
  | append_singleton l n ih =>
    obtain ⟨ht, -⟩ := turn_of hnodup hlt
    rw [List.length_append, List.length_singleton] at hlen
    obtain ⟨state₁, hrun₁, r, hr, rfl⟩ := (run_append l n).mp hrun
    have hkeeps := ih ht.before.1 ht.before.2 (fun k hk => hnum k (List.mem_append_left _ hk))
      (by omega) hrun₁
    obtain ⟨state', res, heq, hmore, -⟩ := insertReplicate_spec hS ho hnum ht hkeeps
      (due_of_ok hS hnum ht hkeeps hr)
    rw [hr] at heq
    cases heq
    exact (hmore hlen.ne).2

/-- An output that takes the views of all numbers is good. -/
theorem good_of_run (hS : o.Shaped S) (ho : o.Allowed) (hpos : 0 < N ∧ 0 < M)
    (hperm : l.Perm (List.range (N * M))) (hnum : ∀ k ∈ l, (result k).Numeric S o)
    (hrun : o.run N M result l = .ok state) : o.Good S M := by
  have hnodup : l.Nodup := hperm.nodup_iff.mpr List.nodup_range
  have hlt : ∀ k ∈ l, k < N * M := fun k hk => List.mem_range.mp (hperm.mem_iff.mp hk)
  have hlen : l.length = N * M := by rw [hperm.length_eq, List.length_range]
  -- What is due comes about with every number.
  have hdue : ∀ done n, done ++ [n] <+: l → o.Due S M done n := by
    intro done n hpre
    obtain ⟨rest, rfl⟩ := hpre
    have hmem : ∀ k ∈ done ++ [n], k ∈ done ++ [n] ++ rest := fun k hk => List.mem_append_left _ hk
    obtain ⟨ht, hle⟩ := turn_of (hnodup.sublist (List.sublist_append_left _ _))
      fun k hk => hlt k (hmem k hk)
    rw [run, List.foldlM_append] at hrun
    obtain ⟨state₁, hrun₁, -⟩ := bind_eq_ok.mp hrun
    obtain ⟨state₂, hrun₂, r, hr, -⟩ := (run_append done n).mp hrun₁
    have hkeeps := keeps_of_run hS ho ht.before.1 ht.before.2
      (fun k hk => hnum k (hmem k (List.mem_append_left _ hk))) (by omega) hrun₂
    exact due_of_ok hS (fun k hk => hnum k (hmem k hk)) ht hkeeps hr
  have hne : l ≠ [] := by
    rintro rfl
    have := Nat.mul_pos hpos.1 hpos.2
    simp at hlen
    omega
  have hstart : o.Startable S M := by
    obtain ⟨n, rest, rfl⟩ := List.exists_cons_of_ne_nil hne
    exact (hdue [] n (List.prefix_append [n] rest)).startable rfl
  refine ⟨hstart.port_ne, hstart.all, fun hall hs hM => ?_⟩
  -- The last number is the last one of its input.
  have hlast := hdue l.dropLast (l.getLast hne) (by rw [List.dropLast_append_getLast])
  have hk := hlt _ (List.getLast_mem hne)
  refine hlast.read hall hM ?_ hs
  rw [List.dropLast_append_getLast, (show (replicatesOf M l _).Perm _ from hperm.filter _).length_eq]
  exact length_replicatesOf_range hpos.2 (Nat.div_lt_of_lt_mul (by rwa [Nat.mul_comm]))

end ManOutput

/-! ## Runs of the outputs -/

namespace Outputs

variable {os : List ManOutput} {S : Shape} {N M : ℕ} {result : ℕ → Views} {l : List ℕ}

/-- The insertions of the views of some numbers in the outputs. -/
def run (os : List ManOutput) (N M : ℕ) (result : ℕ → Views) (l : List ℕ) : Except Fault Outputs :=
  l.foldlM (fun s n => s.insertReplicate (result n) (n / M) N M) (start os)

/-- The outputs that have got the views of some numbers, and their final aggregates with the last. -/
structure Keeps (os : List ManOutput) (S : Shape) (N M : ℕ) (result : ℕ → Views) (l : List ℕ)
    (s : Outputs) : Prop where
  outputs : s.states.map Prod.fst = os
  before : l.length < N * M →
    (∀ p ∈ s.states, p.1.Keeps S N M result l p.2) ∧ s.received = [] ∧ s.results = fun _ => none
  after : l.length = N * M →
    s.received = os.map (fun o => (o.id, o.final S N M result l)) ∧
      s.results = os.foldl (fun (results : String → Option Aggregate) o =>
        Function.update results o.id (some (o.final S N M result l))) fun _ => none

/-- The good outputs take one number more. -/
theorem insertReplicate_spec {n : ℕ} {s : Outputs} (h : Keeps os S N M result l s)
    (hS : ∀ o ∈ os, o.Shaped S ∧ o.Allowed ∧ o.Good S M)
    (hnum : ∀ o ∈ os, ∀ k ∈ l ++ [n], (result k).Numeric S o) (ht : Turn N M l n)
    (hlen : l.length < N * M) :
    ∃ s', s.insertReplicate (result n) (n / M) N M = .ok s' ∧
      Keeps os S N M result (l ++ [n]) s' := by
  obtain ⟨hkeeps, hreceived, hresults⟩ := h.before hlen
  -- The loop over the outputs, of which some are through.
  have hturn : ∀ done p rest (s₁ : Outputs), s.states = done ++ p :: rest →
      Keeps (done.map Prod.fst) S N M result (l ++ [n]) s₁ →
      ∃ s₂, insertOne (result n) (n / M) N M s₁ p = .ok s₂ ∧
        Keeps ((done ++ [p]).map Prod.fst) S N M result (l ++ [n]) s₂ := by
    intro done p rest s₁ hsplit hinv
    have hp : p ∈ s.states := by rw [hsplit]; simp
    obtain ⟨hS, ho, hgood⟩ := hS p.1 (h.outputs ▸ List.mem_map_of_mem hp)
    obtain ⟨state', res, heq, hmore, hlast⟩ := ManOutput.insertReplicate_spec hS ho
      (hnum p.1 (h.outputs ▸ List.mem_map_of_mem hp)) ht (hkeeps p hp) hgood.due
    rw [insertOne, heq, ok_bind, List.map_append, List.map_singleton]
    by_cases hend : l.length + 1 = N * M
    · rw [hlast hend]
      obtain ⟨hreceived₁, hresults₁⟩ := hinv.after (by simpa using hend)
      refine ⟨_, rfl, by simp [hinv.outputs], fun hlt => ?_, fun _ => ⟨?_, ?_⟩⟩
      · simp only [List.length_append, List.length_singleton] at hlt
        omega
      · simp only [hreceived₁, List.map_append, List.map_singleton]
      · simp only [hresults₁, List.foldl_append, List.foldl_cons, List.foldl_nil]
    · obtain ⟨rfl, hkeeps'⟩ := hmore hend
      obtain ⟨hkeeps₁, hreceived₁, hresults₁⟩ := hinv.before (by simp; omega)
      refine ⟨_, rfl, by simp [hinv.outputs], fun _ => ⟨fun q hq => ?_, hreceived₁, hresults₁⟩,
        fun hlen => ?_⟩
      · rcases List.mem_append.mp hq with hq | hq
        · exact hkeeps₁ q hq
        · rw [List.mem_singleton] at hq
          rw [hq]
          exact hkeeps'
      · simp only [List.length_append, List.length_singleton] at hlen
        omega
  have hstart : Keeps ([].map Prod.fst) S N M result (l ++ [n])
      { states := [], results := s.results, received := s.received } :=
    ⟨rfl, fun _ => ⟨fun _ h => absurd h List.not_mem_nil, hreceived, hresults⟩,
      fun _ => ⟨hreceived, hresults⟩⟩
  obtain ⟨s', hs', hinv⟩ := foldlM_invariant
    (p := fun done => Keeps (done.map Prod.fst) S N M result (l ++ [n])) hstart hturn
  exact ⟨s', hs', h.outputs ▸ hinv⟩

/-- The good outputs take the views of any numbers. -/
theorem run_spec (hpos : 0 < N * M) (hS : ∀ o ∈ os, o.Shaped S ∧ o.Allowed ∧ o.Good S M)
    (hnodup : l.Nodup) (hlt : ∀ k ∈ l, k < N * M)
    (hnum : ∀ o ∈ os, ∀ k ∈ l, (result k).Numeric S o) :
    ∃ s, run os N M result l = .ok s ∧ Keeps os S N M result l s := by
  refine foldlM_invariant (p := Keeps os S N M result) ⟨?_, fun _ => ⟨fun p hp => ?_, rfl, rfl⟩,
    fun h => ?_⟩ fun done n rest s hsplit h => ?_
  · simp [start, Function.comp_def]
  · obtain ⟨o, -, rfl⟩ := List.mem_map.mp hp
    exact .inl ⟨rfl, rfl⟩
  · rw [List.length_nil] at h
    omega
  · have hmem : ∀ k ∈ done ++ [n], k ∈ l := fun k hk => by
      rw [hsplit, List.append_cons]
      exact List.mem_append_left _ hk
    rw [hsplit, List.append_cons] at hnodup
    obtain ⟨ht, hle⟩ := ManOutput.turn_of (hnodup.sublist (List.sublist_append_left _ _))
      fun k hk => hlt k (hmem k hk)
    exact insertReplicate_spec h hS (fun o ho k hk => hnum o ho k (hmem k hk)) ht (by omega)

/-- When the insertions in the outputs succeed, those in each of them do. -/
theorem run_outputs {s : Outputs} (h : run os N M result l = .ok s) :
    s.states.map Prod.fst = os ∧ ∀ p ∈ s.states, p.1.run N M result l = .ok p.2 := by
  induction l using List.reverseRecOn generalizing s with
  | nil =>
    cases h
    refine ⟨by simp [start, Function.comp_def], fun p hp => ?_⟩
    obtain ⟨o, -, rfl⟩ := List.mem_map.mp hp
    rfl
  | append_singleton l n ih =>
    rw [run, foldlM_concat] at h
    obtain ⟨s₀, h₀, h⟩ := bind_eq_ok.mp h
    obtain ⟨houtputs, hruns⟩ := ih h₀
    -- The loop over the outputs, of which some are through.
    have hloop : ∀ (states : List (ManOutput × Option OutputState)) (acc s : Outputs),
        (∀ p ∈ states, p.1.run N M result l = .ok p.2) →
        states.foldlM (insertOne (result n) (n / M) N M) acc = .ok s →
        (∀ p ∈ acc.states, p.1.run N M result (l ++ [n]) = .ok p.2) →
        s.states.map Prod.fst = acc.states.map Prod.fst ++ states.map Prod.fst ∧
          ∀ p ∈ s.states, p.1.run N M result (l ++ [n]) = .ok p.2 := by
      intro states
      induction states with
      | nil =>
        intro acc s _ hs hacc
        cases hs
        exact ⟨by simp, hacc⟩
      | cons p states ihs =>
        intro acc s hstates hs hacc
        rw [List.foldlM_cons] at hs
        obtain ⟨acc₁, h₁, hs⟩ := bind_eq_ok.mp hs
        obtain ⟨⟨state', res⟩, hr, h₁⟩ := bind_eq_ok.mp h₁
        have hstates₁ : acc₁.states = acc.states ++ [(p.1, some state')] := by
          cases res <;> cases h₁ <;> rfl
        have hrun : p.1.run N M result (l ++ [n]) = .ok (some state') :=
          (ManOutput.run_append l n).mpr ⟨p.2, hstates p List.mem_cons_self, _, hr, rfl⟩
        obtain ⟨hmap, hall⟩ := ihs acc₁ s (fun q hq => hstates q (List.mem_cons_of_mem _ hq)) hs
          fun q hq => by
            rw [hstates₁] at hq
            rcases List.mem_append.mp hq with hq | hq
            · exact hacc q hq
            · rw [List.mem_singleton] at hq
              rw [hq]
              exact hrun
        refine ⟨?_, hall⟩
        rw [hmap, hstates₁]
        simp
    obtain ⟨hmap, hall⟩ := hloop s₀.states _ s hruns h fun _ hp => absurd hp List.not_mem_nil
    exact ⟨by rw [hmap, ← houtputs]; rfl, hall⟩

end Outputs

end Vle.Manager
