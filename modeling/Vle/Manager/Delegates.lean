import Vle.Lib.Gather
import Vle.Manager.Output

/-!
# What a delegate gathers

An output gets the views of the numbers of the simulations one after the other, and the input of a
number is its quotient by the number of replicates. The accumulators of a delegate are those of the
groups that the numbers make by their inputs (`Represents`): an insertion goes from the numbers before
it to those with one more (`insertReplicate_spec`). What the last insertion returns does not depend on
the order of the numbers (`finish_perm`).
-/

namespace Vle.Manager

open Lib Lib.Except

/-! ## The numbers of the simulations -/

/-- One more number of a simulation. -/
structure Turn (N M : ℕ) (l : List ℕ) (n : ℕ) : Prop where
  nodup : (l ++ [n]).Nodup
  lt : ∀ k ∈ l ++ [n], k < N * M

/-- The groups of some numbers by their inputs. -/
abbrev gathered (M : ℕ) (l : List ℕ) : Gather ℕ ℕ := Gather.of M (· / M) l

/-- The numbers of an input. -/
abbrev replicatesOf (M : ℕ) (l : List ℕ) (k : ℕ) : List ℕ := Gather.fibre (· / M) l k

section Numbers

variable {N M : ℕ} {l : List ℕ} {n : ℕ}

/-- An input has as many numbers as there are replicates. -/
theorem length_replicatesOf_le (hM : 0 < M) (h : l.Nodup) (k : ℕ) :
    (replicatesOf M l k).length ≤ M := by
  have hsub : replicatesOf M l k ⊆ List.range' (k * M) M := by
    intro i hi
    obtain ⟨-, rfl⟩ := Gather.mem_fibre.mp hi
    have := Nat.div_add_mod i M
    have := Nat.mod_lt i hM
    rw [List.mem_range'_1, Nat.mul_comm]
    omega
  have := ((h.filter _).subperm hsub).length_le
  rwa [List.length_range'] at this

/-- All numbers of an input. -/
theorem length_replicatesOf_range (hM : 0 < M) {k : ℕ} (hk : k < N) :
    (replicatesOf M (List.range (N * M)) k).length = M := by
  have hperm : (replicatesOf M (List.range (N * M)) k).Perm (List.range' (k * M) M) := by
    refine (List.perm_ext_iff_of_nodup (List.nodup_range.filter _) List.nodup_range').mpr fun i => ?_
    change i ∈ replicatesOf M _ k ↔ _
    rw [Gather.mem_fibre, List.mem_range, List.mem_range'_1]
    have hkM := Nat.mul_le_mul_right M (show k + 1 ≤ N from hk)
    rw [Nat.add_mul] at hkM
    constructor
    · rintro ⟨-, rfl⟩
      have := Nat.div_add_mod i M
      have := Nat.mod_lt i hM
      rw [Nat.mul_comm]
      omega
    · rintro ⟨hge, hlt⟩
      refine ⟨by omega, ?_⟩
      exact Nat.div_eq_of_lt_le hge (by rw [Nat.succ_mul]; omega)
  rw [hperm.length_eq, List.length_range']

/-- Numbers that are all of them. -/
theorem perm_range_of_length (hnodup : l.Nodup) (hlt : ∀ k ∈ l, k < N * M)
    (hlen : l.length = N * M) : l.Perm (List.range (N * M)) :=
  (hnodup.subperm fun k hk => List.mem_range.mpr (hlt k hk)).perm_of_length_le
    (by rw [hlen, List.length_range])

namespace Turn

theorem before (h : Turn N M l n) : l.Nodup ∧ ∀ k ∈ l, k < N * M :=
  ⟨h.nodup.of_append_left, fun k hk => h.lt k (List.mem_append_left _ hk)⟩

theorem input_lt (h : Turn N M l n) : n / M < N :=
  Nat.div_lt_of_lt_mul (by rw [Nat.mul_comm]; exact h.lt n (by simp))

theorem pos (h : Turn N M l n) : 0 < N ∧ 0 < M := by
  have := h.lt n (by simp)
  exact ⟨Nat.pos_of_ne_zero fun h0 => by simp [h0] at this,
    Nat.pos_of_ne_zero fun h0 => by simp [h0] at this⟩

theorem bounded (h : Turn N M l n) : Gather.Bounded M (· / M) (l ++ [n]) :=
  length_replicatesOf_le h.pos.2 h.nodup

/-- The numbers of the input of the new one. -/
theorem replicatesOf_self : replicatesOf M (l ++ [n]) (n / M) = replicatesOf M l (n / M) ++ [n] :=
  Gather.fibre_append_self

/-- The full groups when the numbers are all there. -/
theorem full_perm (h : Turn N M l n) (hlen : l.length + 1 = N * M) :
    (gathered M (l ++ [n])).full.Perm
      ((List.range N).map fun k => (k, replicatesOf M (l ++ [n]) k)) := by
  have hM := h.pos.2
  have hperm := perm_range_of_length h.nodup h.lt (by simpa using hlen)
  refine Gather.full_perm hM h.bounded List.nodup_range fun k => ?_
  have heq : (replicatesOf M (l ++ [n]) k).length = (replicatesOf M (List.range (N * M)) k).length :=
    (hperm.filter _).length_eq
  rw [List.mem_range, heq]
  refine ⟨length_replicatesOf_range hM, fun hlen => ?_⟩
  obtain ⟨i, hi⟩ := List.exists_mem_of_length_pos (hlen.symm ▸ hM)
  obtain ⟨hmem, rfl⟩ := Gather.mem_fibre.mp hi
  exact Nat.div_lt_of_lt_mul (by rw [Nat.mul_comm]; exact List.mem_range.mp hmem)

/-- The groups of all inputs are full exactly when the numbers are all there. -/
theorem full_length_iff (h : Turn N M l n) :
    (gathered M (l ++ [n])).full.length = N ↔ l.length + 1 = N * M := by
  constructor
  · intro hfull
    have hle : (gathered M (l ++ [n])).full.length * M +
        ∑ k ∈ Finset.range N, ((gathered M (l ++ [n])).pending k).length = (l ++ [n]).length :=
      Gather.length_eq fun k hk => Finset.mem_range.mpr
        (Nat.div_lt_of_lt_mul (by rw [Nat.mul_comm]; exact h.lt k hk))
    have hge : (l ++ [n]).length ≤ N * M := by
      have := (h.nodup.subperm fun k hk => List.mem_range.mpr (h.lt k hk)).length_le
      rwa [List.length_range] at this
    rw [hfull] at hle
    simp only [List.length_append, List.length_singleton] at hle hge
    omega
  · intro hlen
    rw [(h.full_perm hlen).length_eq, List.length_map, List.length_range]

end Turn

end Numbers

/-! ## The accumulators of the replicates -/

/-- The groups that are not full yet, each with the accumulator of its numbers. -/
def Pending {A : Type} (mk : List ℕ → A) (M : ℕ) (accus : ℕ → Option A) (l : List ℕ) : Prop :=
  ∀ k, accus k = if (gathered M l).pending k = [] then none else some (mk ((gathered M l).pending k))

namespace Pending

variable {A : Type} {mk : List ℕ → A} {N M : ℕ} {accus : ℕ → Option A} {l : List ℕ} {n : ℕ}

theorem nil : Pending mk M (fun _ => none) [] := fun _ => (if_pos rfl).symm

/-- The accumulator that the next number of an input finds, or begins with. -/
theorem getD (h : Pending mk M accus l) (ht : Turn N M l n) :
    (accus (n / M)).getD (mk []) = mk (replicatesOf M l (n / M)) := by
  rw [h, Gather.pending_of ht.bounded.of_append, if_neg ht.bounded.length_lt.ne]
  split_ifs with hnil
  · rw [replicatesOf, hnil]; rfl
  · rfl

/-- The last number of an input gives its accumulator up. -/
theorem full (h : Pending mk M accus l) (ht : Turn N M l n)
    (hfull : (replicatesOf M (l ++ [n]) (n / M)).length = M) :
    Pending mk M (Function.update accus (n / M) none) (l ++ [n]) := by
  intro k
  rw [gathered, Gather.pending_append ht.bounded, if_pos hfull]
  by_cases e : k = n / M
  · subst e
    rw [Function.update_self, Function.update_self, if_pos rfl]
  · rw [Function.update_of_ne e, Function.update_of_ne e]
    exact h k

/-- Another number changes the accumulator of its input. -/
theorem more (h : Pending mk M accus l) (ht : Turn N M l n)
    (hfull : (replicatesOf M (l ++ [n]) (n / M)).length ≠ M) :
    Pending mk M (Function.update accus (n / M) (some (mk (replicatesOf M (l ++ [n]) (n / M)))))
      (l ++ [n]) := by
  intro k
  rw [gathered, Gather.pending_append ht.bounded, if_neg hfull]
  by_cases e : k = n / M
  · subst e
    rw [Function.update_self, Function.update_self, if_neg]
    change ¬ replicatesOf M (l ++ [n]) (n / M) = []
    rw [Turn.replicatesOf_self]
    simp
  · rw [Function.update_of_ne e, Function.update_of_ne e]
    exact h k

/-- With one replicate, no accumulator is used. -/
theorem one (h : Pending mk 1 accus l) (ht : Turn N 1 l n) : Pending mk 1 accus (l ++ [n]) := by
  have hlt : (replicatesOf 1 l (n / 1)).length < 1 := ht.bounded.length_lt
  have hnil : replicatesOf 1 l (n / 1) = [] := List.length_eq_zero_iff.mp (by omega)
  have hnone : accus (n / 1) = none := by
    rw [h, Gather.pending_of ht.bounded.of_append, if_neg hlt.ne, if_pos hnil]
  have hfull := h.full ht (by rw [Turn.replicatesOf_self, hnil]; rfl)
  rwa [← hnone, Function.update_eq_self] at hfull

end Pending

/-! ## What is kept of the replicates and of the inputs -/

namespace ManOutput

variable (o : ManOutput) (N M rows : ℕ) (x : ℕ → ℚ) (column : ℕ → List ℚ)

/-- The accumulator of the replicates of an input, with a quantile. -/
def replicatesAccu (q : ℚ) (l : List ℚ) : AccuMono :=
  ((AccuMono.ofStat o.replicateAggregationType).setDefaultQuantile q).accumulate l

/-- What the values of the replicates of an input come to; the value itself if there is one. -/
def replicatesStat (q : ℚ) (l : List ℚ) : Except Fault ℚ :=
  if M = 1 then .ok l.sum else (o.replicatesAccu q l).getStat o.replicateAggregationType

/-- The number that a statistic is, when it can be read. -/
def statValue (stat : Except Fault ℚ) : ℚ :=
  match stat with
  | .ok v => v
  | .error _ => 0

/-- What the values of the inputs come to. -/
def inputsStat (l : List ℚ) : Except Fault ℚ :=
  ((AccuMono.ofStat o.inputAggregationType).accumulate l).getStat o.inputAggregationType

/-- The value of the replicates of an input in a row. -/
def groupRow (y : ℕ) (group : List ℕ) : ℚ :=
  statValue (o.replicatesStat M (1 / 2) (AccuMulti.row (group.map column) y))

/-- The value of an input in a row. -/
def rowValue (l : List ℕ) (k y : ℕ) : ℚ := o.groupRow M column y (replicatesOf M l k)

/-- The value of the replicates of an input. -/
def groupValue (group : List ℕ) : ℚ :=
  statValue (o.replicatesStat M o.replicateAggregationQuantile (group.map x))

/-- The value of an input. -/
def inputValue (l : List ℕ) (k : ℕ) : ℚ := o.groupValue M x (replicatesOf M l k)

/-- What the output gives in the end. -/
def finish (l : List ℕ) : Aggregate :=
  if o.integrationType = .ALL then
    if o.inputAggregationType = .S_at then
      .table (Table.ofFn N rows (o.rowValue M column l))
    else
      .table (Table.ofFn 1 rows fun _ y =>
        statValue (o.inputsStat (AccuMulti.row (l.map column) y)))
  else
    if o.inputAggregationType = .S_at then
      .table (Table.ofFn N 1 fun k _ => o.inputValue M x l k)
    else
      .double (statValue (o.inputsStat ((List.range N).map (o.inputValue M x l))))

/-- The aggregations that a plan can ask for. -/
structure Allowed : Prop where
  replicate : o.replicateAggregationType = .S_mean ∨ o.replicateAggregationType = .S_variance ∨
    o.replicateAggregationType = .S_quantile
  input : o.inputAggregationType ≠ .S_variance

/-- The numbers that are inserted in an output when the aggregations can be read. -/
structure Readable : Prop where
  all : o.integrationType = .ALL → o.inputAggregationType ≠ .S_at → M = 1
  quantile : o.integrationType ≠ .ALL → o.replicateAggregationType = .S_quantile → M ≠ 1 →
    0 ≤ o.replicateAggregationQuantile ∧ o.replicateAggregationQuantile < 1

variable {o N M rows x column} {l l₁ l₂ : List ℕ}

theorem Allowed.replicate_ne (h : o.Allowed) : o.replicateAggregationType ≠ .S_at := by
  rcases h.replicate with h | h | h <;> rw [h] <;> decide

/-- The replicates of an input come to the same in every order. -/
theorem replicatesStat_perm (h : o.Allowed) (q : ℚ) {l₁ l₂ : List ℚ} (hperm : l₁.Perm l₂) :
    o.replicatesStat M q l₁ = o.replicatesStat M q l₂ := by
  unfold replicatesStat
  split_ifs
  · rw [hperm.sum_eq]
  · exact AccuMono.getStat_perm rfl h.replicate_ne hperm

theorem inputsStat_perm (hs : o.inputAggregationType ≠ .S_at) {l₁ l₂ : List ℚ}
    (hperm : l₁.Perm l₂) : o.inputsStat l₁ = o.inputsStat l₂ :=
  AccuMono.getStat_perm rfl hs hperm

/-- The aggregate of an output does not depend on the order of the simulations. -/
theorem finish_perm (h : o.Allowed) (hperm : l₁.Perm l₂) :
    o.finish N M rows x column l₁ = o.finish N M rows x column l₂ := by
  have hrow : o.rowValue M column l₁ = o.rowValue M column l₂ := by
    funext k y
    exact congrArg statValue (replicatesStat_perm h _ (((hperm.filter _).map _).map _))
  have hinput : o.inputValue M x l₁ = o.inputValue M x l₂ := by
    funext k
    exact congrArg statValue (replicatesStat_perm h _ ((hperm.filter _).map _))
  unfold finish
  rw [hrow, hinput]
  split_ifs with hall hat
  · rfl
  · congr 2
    funext _ y
    exact congrArg statValue (inputsStat_perm hat ((hperm.map _).map _))
  · rfl
  · rfl

/-- The statistic over the inputs can be read. -/
theorem inputsStat_ok (hs : o.inputAggregationType ≠ .S_at) {l : List ℚ} (hl : l ≠ []) :
    o.inputsStat l = .ok (statValue (o.inputsStat l)) := by
  obtain ⟨v, hv⟩ := AccuMono.getStat_ok (q := 1 / 2) hs hl fun _ => .inr ⟨by norm_num, by norm_num⟩
  have : o.inputsStat l = .ok v := hv
  rw [this]
  rfl

/-- The statistic over replicates can be read, but for a quantile of some orders. -/
theorem replicatesStat_ok (h : o.Allowed) {q : ℚ} {l : List ℚ} (hl : l ≠ [])
    (hq : o.replicateAggregationType = .S_quantile → M ≠ 1 → 0 ≤ q ∧ q < 1) :
    o.replicatesStat M q l = .ok (statValue (o.replicatesStat M q l)) := by
  have : ∃ v, o.replicatesStat M q l = .ok v := by
    unfold replicatesStat
    split_ifs with hM
    · exact ⟨_, rfl⟩
    · exact AccuMono.getStat_ok h.replicate_ne hl fun hs => .inr (hq hs hM)
  obtain ⟨v, hv⟩ := this
  rw [hv]
  rfl

end ManOutput

/-! ## The four delegates -/

namespace Delegate

variable (o : ManOutput) (N M rows : ℕ) (x : ℕ → ℚ) (column : ℕ → List ℚ)

/-- The accumulator of the integrated values of some replicates. -/
def accuMono (group : List ℕ) : AccuMono :=
  o.replicatesAccu o.replicateAggregationQuantile (group.map x)

/-- The accumulators of the columns of some replicates. -/
def accuMulti (group : List ℕ) : AccuMulti :=
  (AccuMulti.ofStat o.replicateAggregationType).accumulate (group.map column)

/-- The value of an input whose replicates are all there. -/
def cellOf (value : List ℕ → ℚ) (l : List ℕ) (k : ℕ) : ℚ :=
  if (replicatesOf M l k).length = M then value (replicatesOf M l k) else 0

/-- What a delegate is after the insertion of some numbers that are not all. -/
def Represents (l : List ℕ) : Delegate → Prop
  | .std accus acc =>
    (o.integrationType ≠ .ALL ∧ o.inputAggregationType ≠ .S_at) ∧ Pending (accuMono o x) M accus l ∧
      acc = some ((AccuMono.ofStat o.inputAggregationType).accumulate
        ((gathered M l).full.map fun g => o.groupValue M x g.2))
  | .intAggrAll manageDouble accus acc filled =>
    (o.integrationType = .ALL ∧ o.inputAggregationType = .S_at) ∧ manageDouble = true ∧
      Pending (accuMulti o column) M accus l ∧ filled = (gathered M l).full.length ∧
      acc = if l = [] then none else some (.table (Table.ofFn N rows fun k y =>
        cellOf M (o.groupRow M column y) l k))
  | .intAll accus acc =>
    (o.integrationType = .ALL ∧ o.inputAggregationType ≠ .S_at) ∧
      Pending (accuMulti o column) M accus l ∧
      acc = if l = [] then none else
        some ((AccuMulti.ofStat o.inputAggregationType).accumulate (l.map column))
  | .aggrAll manageDouble accus acc filled =>
    (o.integrationType ≠ .ALL ∧ o.inputAggregationType = .S_at) ∧ manageDouble = true ∧
      Pending (accuMono o x) M accus l ∧ filled = (gathered M l).full.length ∧
      acc = some (.table (Table.ofFn N 1 fun k _ => cellOf M (o.groupValue M x) l k))

/-- The delegate before the first insertion. -/
theorem create_spec (hN : 0 < N) (hM : 0 < M) : ∃ d, create o N true = .ok d ∧
    d.Represents o N M rows x column [] := by
  have hnil : ∀ value k, cellOf M value [] k = 0 := fun value k =>
    if_neg fun h => (show ¬ 0 = M by omega) h
  unfold create
  by_cases hall : o.integrationType = .ALL <;> by_cases hat : o.inputAggregationType = .S_at
  · exact ⟨.intAggrAll true (fun _ => none) none 0, by rw [if_pos hall, if_pos hat],
      ⟨hall, hat⟩, rfl, .nil, rfl, rfl⟩
  · exact ⟨.intAll (fun _ => none) none, by rw [if_pos hall, if_neg hat], ⟨hall, hat⟩, .nil, rfl⟩
  · refine ⟨.aggrAll true (fun _ => none) (some (.table (Table.ofFn N 1 fun _ _ => 0))) 0, ?_,
      ⟨hall, hat⟩, rfl, .nil, rfl, ?_⟩
    · rw [if_neg hall, if_pos hat, if_pos rfl, Table.ofSize_eq (by omega)]
      rfl
    · simp only [hnil]
  · exact ⟨.std (fun _ => none) (some (AccuMono.ofStat o.inputAggregationType)),
      by rw [if_neg hall, if_neg hat], ⟨hall, hat⟩, .nil, rfl⟩

section Insert

variable {o N M rows x column} {colIndex : ℕ} {m : Matrix} {l : List ℕ} {n : ℕ}

/-- What an insertion gives: the delegate of one number more, and the aggregate with the last one. -/
def Inserts (o : ManOutput) (N M rows : ℕ) (x : ℕ → ℚ) (column : ℕ → List ℚ) (l : List ℕ) (n : ℕ)
    (r : Except Fault (Delegate × Option Aggregate)) : Prop :=
  ∃ d res, r = .ok (d, res) ∧
    (l.length + 1 ≠ N * M → res = none ∧ d.Represents o N M rows x column (l ++ [n])) ∧
    (l.length + 1 = N * M → res = some (o.finish N M rows x column (l ++ [n])))

theorem full_append (ht : Turn N M l n) : (gathered M (l ++ [n])).full = (gathered M l).full ++
    (if (replicatesOf M (l ++ [n]) (n / M)).length = M then
      [(n / M, replicatesOf M (l ++ [n]) (n / M))] else []) :=
  Gather.full_append ht.bounded

/-- A new number gives its input a value when it is the last one of it. -/
theorem cellOf_append (ht : Turn N M l n) (value : List ℕ → ℚ) (k : ℕ) :
    cellOf M value (l ++ [n]) k =
      if k = n / M ∧ (replicatesOf M (l ++ [n]) (n / M)).length = M then
        value (replicatesOf M (l ++ [n]) (n / M))
      else cellOf M value l k := by
  unfold cellOf
  by_cases e : k = n / M
  · subst e
    have hlt : (replicatesOf M l (n / M)).length < M := ht.bounded.length_lt
    simp only [true_and, if_neg hlt.ne]
  · have hother : replicatesOf M (l ++ [n]) k = replicatesOf M l k := Gather.fibre_append_of_ne e
    simp only [hother, e, false_and, if_false]

/-- With the last number, all inputs have their values. -/
theorem cellOf_last (ht : Turn N M l n) (hlast : l.length + 1 = N * M) (value : List ℕ → ℚ) {k : ℕ}
    (hk : k < N) : cellOf M value (l ++ [n]) k = value (replicatesOf M (l ++ [n]) k) := by
  have hperm := perm_range_of_length ht.nodup ht.lt (by simpa using hlast)
  have heq : (replicatesOf M (l ++ [n]) k).length = (replicatesOf M (List.range (N * M)) k).length :=
    (hperm.filter _).length_eq
  rw [cellOf, if_pos (heq.trans (length_replicatesOf_range ht.pos.2 hk))]

/-- The accumulator of the inputs counts them. -/
theorem count_ofStat (s : AccuStat) (l : List ℚ) : ((AccuMono.ofStat s).accumulate l).count = l.length := by
  rw [(AccuMono.accumulate_spec _ _).2.2]
  cases s <;> simp [AccuMono.ofStat, AccuMono.count, AccuMono.storageTypeForStat]

/-- The accumulator of the replicates of the new number. -/
theorem getAccuMono_insert (ht : Turn N M l n) {accus : ℕ → Option AccuMono}
    (h : Pending (accuMono o x) M accus l) :
    (getAccuMono accus (n / M) o).insert (x n) =
        accuMono o x (replicatesOf M (l ++ [n]) (n / M)) ∧
      ((getAccuMono accus (n / M) o).insert (x n)).count =
        (replicatesOf M (l ++ [n]) (n / M)).length := by
  have hget : getAccuMono accus (n / M) o = accuMono o x (replicatesOf M l (n / M)) := h.getD ht
  have heq : (getAccuMono accus (n / M) o).insert (x n) =
      accuMono o x (replicatesOf M (l ++ [n]) (n / M)) := by
    rw [hget, Turn.replicatesOf_self, accuMono, accuMono, ManOutput.replicatesAccu,
      ManOutput.replicatesAccu, List.map_append, List.map_singleton, AccuMono.accumulate_append]
  refine ⟨heq, ?_⟩
  rw [heq, accuMono, ManOutput.replicatesAccu, (AccuMono.accumulate_spec _ _).2.2, List.length_map]
  cases o.replicateAggregationType <;>
    simp [AccuMono.ofStat, AccuMono.setDefaultQuantile, AccuMono.count, AccuMono.storageTypeForStat]

/-- The statistic of the replicates of an input that has several. -/
theorem getStat_accuMono (hM : M ≠ 1) (group : List ℕ) :
    (accuMono o x group).getStat o.replicateAggregationType =
      o.replicatesStat M o.replicateAggregationQuantile (group.map x) := by
  rw [ManOutput.replicatesStat, if_neg hM, accuMono]

/-- The group of the new number when there is one replicate. -/
theorem replicatesOf_one (ht : Turn N 1 l n) : replicatesOf 1 (l ++ [n]) (n / 1) = [n] := by
  have hlt : (replicatesOf 1 l (n / 1)).length < 1 := ht.bounded.length_lt
  rw [Turn.replicatesOf_self, List.length_eq_zero_iff.mp (show (replicatesOf 1 l (n / 1)).length = 0 by
    omega), List.nil_append]

/-- The orders of the quantile that can be read are needed when the replicates of an input are all
there. -/
def QuantileRead (o : ManOutput) (M : ℕ) (l : List ℕ) (n : ℕ) : Prop :=
  M ≠ 1 → (replicatesOf M (l ++ [n]) (n / M)).length = M →
    o.replicateAggregationType = .S_quantile →
      0 ≤ o.replicateAggregationQuantile ∧ o.replicateAggregationQuantile < 1

/-- The statistic of the replicates can then be read. -/
theorem QuantileRead.getStat (h : QuantileRead o M l n) (ho : o.Allowed) (hM : M ≠ 1)
    (hfull : (replicatesOf M (l ++ [n]) (n / M)).length = M) :
    (accuMono o x (replicatesOf M (l ++ [n]) (n / M))).getStat o.replicateAggregationType =
      .ok (o.groupValue M x (replicatesOf M (l ++ [n]) (n / M))) := by
  rw [getStat_accuMono hM]
  refine ManOutput.replicatesStat_ok ho ?_ fun hs _ => h hM hfull hs
  rw [Turn.replicatesOf_self]
  simp

/-- `DelOutStd` takes one number more. -/
theorem insertStd_spec (hx : o.integrateDouble colIndex m = .ok (x n)) (ht : Turn N M l n)
    (ho : o.Allowed) (hread : QuantileRead o M l n) {accus : ℕ → Option AccuMono}
    {acc : Option AccuMono} (hd : (Delegate.std accus acc).Represents o N M rows x column l) :
    Inserts o N M rows x column l n (insertStd o colIndex N M m (n / M) accus acc) := by
  obtain ⟨⟨hall, hat⟩, haccus, rfl⟩ := hd
  -- The accumulator of the inputs, with the new one when its replicates are all there.
  have hinputs : ∀ accus' acc', Pending (accuMono o x) M accus' (l ++ [n]) →
      acc' = (AccuMono.ofStat o.inputAggregationType).accumulate
        ((gathered M (l ++ [n])).full.map fun g => o.groupValue M x g.2) →
      Inserts o N M rows x column l n (if acc'.count = N then do
          let res ← acc'.getStat o.inputAggregationType
          return (.std accus' none, some (.double res))
        else
          return (.std accus' (some acc'), none)) := by
    rintro accus' _ haccus' rfl
    rw [count_ofStat, List.length_map]
    by_cases hlast : l.length + 1 = N * M
    · rw [if_pos ((ht.full_length_iff).mpr hlast)]
      have hperm : ((gathered M (l ++ [n])).full.map fun g => o.groupValue M x g.2).Perm
          ((List.range N).map (o.inputValue M x (l ++ [n]))) := by
        have := (ht.full_perm hlast).map fun g => o.groupValue M x g.2
        rwa [List.map_map] at this
      have hne : (List.range N).map (o.inputValue M x (l ++ [n])) ≠ [] := by
        rw [ne_eq, List.map_eq_nil_iff, List.range_eq_nil]
        exact ht.pos.1.ne'
      have hstat := ManOutput.inputsStat_perm hat hperm
      rw [ManOutput.inputsStat_ok hat hne] at hstat
      refine ⟨_, _, by rw [show AccuMono.getStat _ _ = _ from hstat]; rfl,
        fun h => absurd hlast h, fun _ => ?_⟩
      rw [ManOutput.finish, if_neg hall, if_neg hat]
    · rw [if_neg ((ht.full_length_iff).not.mpr hlast)]
      exact ⟨_, _, rfl, fun _ => ⟨rfl, ⟨hall, hat⟩, haccus', rfl⟩, fun h => absurd h hlast⟩
  unfold insertStd
  simp only [hx, ok_bind, nonNull, pure_eq]
  by_cases hM : M = 1
  · subst hM
    rw [if_pos rfl]
    refine hinputs _ _ (haccus.one ht) ?_
    rw [full_append ht, replicatesOf_one ht, if_pos List.length_singleton, List.map_append,
      List.map_singleton, AccuMono.accumulate_append]
    simp [ManOutput.groupValue, ManOutput.replicatesStat, ManOutput.statValue]
  · rw [if_neg hM]
    obtain ⟨hacc, hcount⟩ := getAccuMono_insert ht haccus
    rw [hcount, hacc]
    by_cases hfull : (replicatesOf M (l ++ [n]) (n / M)).length = M
    · rw [if_pos hfull, hread.getStat ho hM hfull, ok_bind]
      refine hinputs _ _ (haccus.full ht hfull) ?_
      rw [full_append ht, if_pos hfull, List.map_append, List.map_singleton,
        AccuMono.accumulate_append]
    · rw [if_neg hfull]
      refine hinputs _ _ (haccus.more ht hfull) ?_
      rw [full_append ht, if_neg hfull, List.append_nil]

/-- `DelOutAggrALL` takes one number more. -/
theorem insertAggrAll_spec (hx : o.integrateDouble colIndex m = .ok (x n)) (ht : Turn N M l n)
    (ho : o.Allowed) (hread : QuantileRead o M l n) {manageDouble : Bool}
    {accus : ℕ → Option AccuMono} {acc : Option Aggregate} {filled : ℕ}
    (hd : (Delegate.aggrAll manageDouble accus acc filled).Represents o N M rows x column l) :
    Inserts o N M rows x column l n
      (insertAggrAll o colIndex N M m (n / M) manageDouble accus acc filled) := by
  obtain ⟨⟨hall, hat⟩, rfl, haccus, rfl, rfl⟩ := hd
  obtain ⟨v, hv, -⟩ := bind_eq_ok.mp (show (o.integrateReplicate colIndex m >>= _) = _ from hx)
  -- The table, with the value of the input when its replicates are all there.
  have htable : ∀ accus' t filled', Pending (accuMono o x) M accus' (l ++ [n]) →
      t = Table.ofFn N 1 (fun k _ => cellOf M (o.groupValue M x) (l ++ [n]) k) →
      filled' = (gathered M (l ++ [n])).full.length →
      Inserts o N M rows x column l n (if filled' = N then
          .ok (.aggrAll true accus' none filled', some (.table t))
        else .ok (.aggrAll true accus' (some (.table t)) filled', none)) := by
    rintro accus' _ _ haccus' rfl rfl
    by_cases hlast : l.length + 1 = N * M
    · rw [if_pos ((ht.full_length_iff).mpr hlast)]
      refine ⟨_, _, rfl, fun h => absurd hlast h, fun _ => ?_⟩
      rw [ManOutput.finish, if_neg hall, if_pos hat]
      congr 2
      exact Table.ofFn_congr fun k hk _ _ => cellOf_last ht hlast _ hk
    · rw [if_neg ((ht.full_length_iff).not.mpr hlast)]
      exact ⟨_, _, rfl, fun _ => ⟨rfl, ⟨hall, hat⟩, rfl, haccus', rfl, rfl⟩,
        fun h => absurd h hlast⟩
  -- The cell of the input in the table.
  have hset : ∀ value, (replicatesOf M (l ++ [n]) (n / M)).length = M →
      value = o.groupValue M x (replicatesOf M (l ++ [n]) (n / M)) →
      (Table.ofFn N 1 fun k _ => cellOf M (o.groupValue M x) l k).set (n / M) 0 value =
        .ok (Table.ofFn N 1 fun k _ => cellOf M (o.groupValue M x) (l ++ [n]) k) := by
    rintro _ hfull rfl
    rw [Table.set_ofFn ht.input_lt one_pos]
    refine congrArg _ (Table.ofFn_congr fun k _ y hy => ?_)
    rw [cellOf_append ht]
    simp only [hfull, and_true, show y = 0 by omega]
  unfold insertAggrAll
  simp only [hx, hv, ok_bind, nonNull, pure_eq, if_true, toTable]
  by_cases hM : M = 1
  · subst hM
    rw [if_pos rfl, hset _ (by rw [replicatesOf_one ht]; rfl) (by
      rw [replicatesOf_one ht]
      simp [ManOutput.groupValue, ManOutput.replicatesStat, ManOutput.statValue]), ok_bind]
    refine htable _ _ _ (haccus.one ht) rfl ?_
    rw [full_append ht, replicatesOf_one ht, if_pos List.length_singleton, List.length_append,
      List.length_singleton]
  · rw [if_neg hM]
    obtain ⟨hacc, hcount⟩ := getAccuMono_insert ht haccus
    rw [hcount, hacc]
    by_cases hfull : (replicatesOf M (l ++ [n]) (n / M)).length = M
    · rw [if_pos hfull, hread.getStat ho hM hfull, ok_bind, hset _ hfull rfl, ok_bind]
      refine htable _ _ _ (haccus.full ht hfull) rfl ?_
      rw [full_append ht, if_pos hfull, List.length_append, List.length_singleton]
    · rw [if_neg hfull]
      refine htable _ _ _ (haccus.more ht hfull) ?_ ?_
      · refine Table.ofFn_congr fun k _ _ _ => ?_
        rw [cellOf_append ht, if_neg fun h => hfull h.2]
      · rw [full_append ht, if_neg hfull, List.append_nil]

/-- The column of a view with a row for the header. -/
structure Column (rows : ℕ) (column : ℕ → List ℚ) (colIndex : ℕ) (m : Matrix) (l : List ℕ) (n : ℕ) :
    Prop where
  read : m.column colIndex = .ok (column n)
  rows_eq : m.rows = rows + 1
  pos : 0 < rows
  length_eq : ∀ k ∈ l ++ [n], (column k).length = rows

/-- The columns of the replicates of the new number. -/
theorem Column.group (hc : Column rows column colIndex m l n) :
    (replicatesOf M (l ++ [n]) (n / M)).map column ≠ [] ∧
      ∀ c ∈ (replicatesOf M (l ++ [n]) (n / M)).map column, c.length = rows := by
  constructor
  · rw [Turn.replicatesOf_self]
    simp
  · intro c hmem
    obtain ⟨k, hk, rfl⟩ := List.mem_map.mp hmem
    exact hc.length_eq k (Gather.mem_fibre.mp hk).1

/-- The accumulators of the columns of the replicates of the new number. -/
theorem getAccuMulti_insert (hc : Column rows column colIndex m l n) (ht : Turn N M l n)
    {accus : ℕ → Option AccuMulti} (h : Pending (accuMulti o column) M accus l) :
    (getAccuMulti accus (n / M) o).insertColumn (column n) =
        accuMulti o column (replicatesOf M (l ++ [n]) (n / M)) ∧
      (accuMulti o column (replicatesOf M (l ++ [n]) (n / M))).count =
        .ok (replicatesOf M (l ++ [n]) (n / M)).length := by
  have hget : getAccuMulti accus (n / M) o = accuMulti o column (replicatesOf M l (n / M)) :=
    h.getD ht
  obtain ⟨hne, hlen⟩ := hc.group (M := M)
  constructor
  · rw [hget, Turn.replicatesOf_self, accuMulti, accuMulti, List.map_append, List.map_singleton,
      AccuMulti.accumulate_append]
  · rw [accuMulti, AccuMulti.ofStat, AccuMulti.count_accumulate hc.pos hne hlen, List.length_map]

/-- The statistics of the rows can be read: their quantile is that of the order one half. -/
theorem stats_accuMulti (hc : Column rows column colIndex m l n) (ho : o.Allowed) (hM : M ≠ 1) :
    (accuMulti o column (replicatesOf M (l ++ [n]) (n / M))).stats o.replicateAggregationType =
      .ok ((List.range rows).map fun y =>
        o.groupRow M column y (replicatesOf M (l ++ [n]) (n / M))) := by
  obtain ⟨hne, hlen⟩ := hc.group (M := M)
  have hstat : ∀ values, values ≠ [] →
      ((AccuMono.ofStat o.replicateAggregationType).accumulate values).getStat
        o.replicateAggregationType =
          .ok (ManOutput.statValue (o.replicatesStat M (1 / 2) values)) := by
    intro values hvalues
    have := ManOutput.replicatesStat_ok (M := M) ho hvalues (q := 1 / 2)
      fun _ _ => ⟨by norm_num, by norm_num⟩
    rw [← this, ManOutput.replicatesStat, if_neg hM]
    rfl
  exact AccuMulti.stats_accumulate hc.pos hne hlen hstat

/-- The table of `DelOutIntAggrALL` before the new number is put in. -/
theorem createIntAggrAll_spec (hc : Column rows column colIndex m l n) (ht : Turn N M l n) :
    createIntAggrAll N m true (if l = [] then none else some (.table (Table.ofFn N rows fun k y =>
      cellOf M (o.groupRow M column y) l k))) =
        .ok (.table (Table.ofFn N rows fun k y => cellOf M (o.groupRow M column y) l k)) := by
  have hpos : 0 < N * rows := Nat.mul_pos ht.pos.1 hc.pos
  have hrows : m.rows - 1 = rows := by rw [hc.rows_eq]; rfl
  have hheight : ∀ cell, (Table.ofFn N rows cell).height < m.rows := fun _ => by
    rw [hc.rows_eq]; exact Nat.lt_succ_self rows
  unfold createIntAggrAll
  by_cases hl : l = []
  · subst hl
    have hnil : ∀ value k, cellOf M value [] k = 0 := fun value k =>
      if_neg fun h => (show ¬ 0 = M by have := ht.pos.2; omega) h
    simp only [if_true, hrows, Table.ofSize_eq hpos, ok_bind, pure_eq, toTable, hheight,
      Table.resize_ofFn hpos, hnil]
  · simp only [if_neg hl, if_true, hrows, ok_bind, pure_eq, toTable, hheight,
      Table.resize_ofFn hpos]

/-- `DelOutIntAggrALL` takes one number more. -/
theorem insertIntAggrAll_spec (hc : Column rows column colIndex m l n) (ht : Turn N M l n)
    (ho : o.Allowed) {manageDouble : Bool} {accus : ℕ → Option AccuMulti} {acc : Option Aggregate}
    {filled : ℕ}
    (hd : (Delegate.intAggrAll manageDouble accus acc filled).Represents o N M rows x column l) :
    Inserts o N M rows x column l n
      (insertIntAggrAll o colIndex N M m (n / M) manageDouble accus acc filled) := by
  obtain ⟨⟨hall, hat⟩, rfl, haccus, rfl, rfl⟩ := hd
  -- The table, with the column of the input when its replicates are all there.
  have htable : ∀ accus' t filled', Pending (accuMulti o column) M accus' (l ++ [n]) →
      t = Table.ofFn N rows (fun k y => cellOf M (o.groupRow M column y) (l ++ [n]) k) →
      filled' = (gathered M (l ++ [n])).full.length →
      Inserts o N M rows x column l n (if filled' = N then
          .ok (.intAggrAll true accus' none filled', some (.table t))
        else .ok (.intAggrAll true accus' (some (.table t)) filled', none)) := by
    rintro accus' _ _ haccus' rfl rfl
    by_cases hlast : l.length + 1 = N * M
    · rw [if_pos ((ht.full_length_iff).mpr hlast)]
      refine ⟨_, _, rfl, fun h => absurd hlast h, fun _ => ?_⟩
      rw [ManOutput.finish, if_pos hall, if_pos hat]
      congr 2
      exact Table.ofFn_congr fun k hk y _ => cellOf_last ht hlast _ hk
    · rw [if_neg ((ht.full_length_iff).not.mpr hlast)]
      refine ⟨_, _, rfl, fun _ => ⟨rfl, ⟨hall, hat⟩, rfl, haccus', rfl, ?_⟩,
        fun h => absurd h hlast⟩
      rw [if_neg (by simp)]
  -- The column of the input in the table.
  have hfill : ∀ values : List ℚ, (replicatesOf M (l ++ [n]) (n / M)).length = M →
      values.length = rows → (∀ y < rows, values[y]?.getD 0 =
        o.groupRow M column y (replicatesOf M (l ++ [n]) (n / M))) →
      (Table.ofFn N rows fun k y => cellOf M (o.groupRow M column y) l k).fillColumn (n / M) values =
        .ok (Table.ofFn N rows fun k y => cellOf M (o.groupRow M column y) (l ++ [n]) k) := by
    intro values hfull hlen hvalues
    rw [Table.fillColumn_ofFn ht.input_lt hlen.le]
    refine congrArg _ (Table.ofFn_congr fun k _ y hy => ?_)
    rw [cellOf_append ht, hlen]
    simp only [hfull, and_true, hy, hvalues y hy]
  unfold insertIntAggrAll
  simp only [createIntAggrAll_spec hc ht, hc.read, ok_bind, pure_eq, if_true, toTable]
  by_cases hM : M = 1
  · subst hM
    rw [if_pos rfl, hfill _ (by rw [replicatesOf_one ht]; rfl) (hc.length_eq n (by simp)), ok_bind]
    · refine htable _ _ _ (haccus.one ht) rfl ?_
      rw [full_append ht, replicatesOf_one ht, if_pos List.length_singleton, List.length_append,
        List.length_singleton]
    · intro y _
      rw [replicatesOf_one ht]
      simp [ManOutput.groupRow, ManOutput.replicatesStat, ManOutput.statValue, AccuMulti.row]
  · rw [if_neg hM]
    obtain ⟨hacc, hcount⟩ := getAccuMulti_insert hc ht haccus
    rw [hacc, hcount, ok_bind]
    by_cases hfull : (replicatesOf M (l ++ [n]) (n / M)).length = M
    · rw [if_pos hfull, stats_accuMulti hc ho hM, ok_bind, hfill _ hfull (by simp), ok_bind]
      · refine htable _ _ _ (haccus.full ht hfull) rfl ?_
        rw [full_append ht, if_pos hfull, List.length_append, List.length_singleton]
      · intro y hy
        simp [hy]
    · rw [if_neg hfull]
      refine htable _ _ _ (haccus.more ht hfull) ?_ ?_
      · refine Table.ofFn_congr fun k _ y _ => ?_
        rw [cellOf_append ht, if_neg fun h => hfull h.2]
      · rw [full_append ht, if_neg hfull, List.append_nil]

/-- `DelOutIntALL` takes one number more when there is one replicate. -/
theorem insertIntAll_spec (hc : Column rows column colIndex m l n) (ht : Turn N 1 l n)
    {accus : ℕ → Option AccuMulti} {acc : Option AccuMulti}
    (hd : (Delegate.intAll accus acc).Represents o N 1 rows x column l) :
    Inserts o N 1 rows x column l n (insertIntAll o colIndex N 1 m (n / 1) accus acc) := by
  obtain ⟨⟨hall, hat⟩, haccus, rfl⟩ := hd
  have hne : (l ++ [n]).map column ≠ [] := by simp
  have hlen : ∀ c ∈ (l ++ [n]).map column, c.length = rows := by
    intro c hmem
    obtain ⟨k, hk, rfl⟩ := List.mem_map.mp hmem
    exact hc.length_eq k hk
  have hacc : ((if l = [] then none else
      some ((AccuMulti.ofStat o.inputAggregationType).accumulate (l.map column))).getD
        (AccuMulti.ofStat o.inputAggregationType)).insertColumn (column n) =
      (AccuMulti.ofStat o.inputAggregationType).accumulate ((l ++ [n]).map column) := by
    rw [List.map_append, List.map_singleton, AccuMulti.accumulate_append]
    split_ifs with hl
    · rw [hl]; rfl
    · rfl
  have hsize : ((AccuMulti.ofStat o.inputAggregationType).accumulate
      ((l ++ [n]).map column)).size = rows := by
    rw [AccuMulti.ofStat, AccuMulti.accumulate_mstats hc.pos hne hlen, AccuMulti.size,
      List.length_map, List.length_range]
  have hcount : ((AccuMulti.ofStat o.inputAggregationType).accumulate
      ((l ++ [n]).map column)).count = .ok (l.length + 1) := by
    rw [AccuMulti.ofStat, AccuMulti.count_accumulate hc.pos hne hlen, List.length_map,
      List.length_append, List.length_singleton]
  have hstats := AccuMulti.stats_accumulate (s := o.inputAggregationType) hc.pos hne hlen
    fun values hvalues => ManOutput.inputsStat_ok hat hvalues
  unfold insertIntAll
  simp only [hc.read, ok_bind, pure_eq, if_true, hacc, hcount, hsize]
  by_cases hlast : l.length + 1 = N * 1
  · rw [if_pos (by omega), Table.ofSize_eq (by have := hc.pos; omega), ok_bind, hstats, ok_bind,
      Table.fillColumn_ofFn one_pos (by simp), ok_bind]
    refine ⟨_, _, rfl, fun h => absurd hlast h, fun _ => ?_⟩
    rw [ManOutput.finish, if_pos hall, if_neg hat]
    congr 2
    refine Table.ofFn_congr fun k hk y hy => ?_
    simp [show k = 0 by omega, hy]
  · rw [if_neg (by omega)]
    refine ⟨_, _, rfl, fun _ => ⟨rfl, ⟨hall, hat⟩, haccus.one ht, ?_⟩, fun h => absurd h hlast⟩
    rw [if_neg (by simp)]

/-- `DelOutIntALL` reads the first row of an accumulator that has none when there are replicates. -/
theorem insertIntAll_out (hc : Column rows column colIndex m [] n) (ht : Turn N M [] n) (hM : M ≠ 1) :
    insertIntAll o colIndex N M m (n / M) (fun _ => none) none = .error .outOfRange := by
  obtain ⟨hacc, hcount⟩ := getAccuMulti_insert hc ht (o := o) .nil
  have hlen : (replicatesOf M ([] ++ [n]) (n / M)).length ≠ M := by
    rw [Turn.replicatesOf_self]
    exact fun h => hM h.symm
  unfold insertIntAll
  simp only [hc.read, ok_bind, pure_eq, if_neg hM, hacc, hcount, if_neg hlen]
  rfl

/-- When the quantile of the replicates cannot be read, their last number is not inserted. -/
theorem not_quantileRead (hx : o.integrateDouble colIndex m = .ok (x n)) (ht : Turn N M l n)
    (hread : ¬ QuantileRead o M l n) (hall : o.integrationType ≠ .ALL) {d : Delegate}
    (hd : d.Represents o N M rows x column l) {r : Delegate × Option Aggregate} :
    d.insertReplicate o colIndex N M m (n / M) ≠ .ok r := by
  unfold QuantileRead at hread
  push Not at hread
  obtain ⟨hM, hfull, hs, hq⟩ := hread
  have hlen : 2 ≤ ((replicatesOf M (l ++ [n]) (n / M)).map x).length := by
    have := ht.pos.2
    rw [List.length_map, hfull]
    omega
  have hstat : ∀ v, (accuMono o x (replicatesOf M (l ++ [n]) (n / M))).getStat
      o.replicateAggregationType ≠ .ok v := by
    intro v hv
    rw [accuMono, ManOutput.replicatesAccu, hs] at hv
    obtain ⟨haccu, hquantile, -⟩ := ((AccuMono.ofStat .S_quantile).setDefaultQuantile
      o.replicateAggregationQuantile).accumulate_spec
        ((replicatesOf M (l ++ [n]) (n / M)).map x)
    rw [AccuMono.getStat, AccuMono.quantile, haccu, hquantile,
      AccuMono.accumulate_mvalues (.inl rfl)] at hv
    have := (AccuMono.quantileOnSortedVect_ok_iff (by
      rw [List.length_insertionSort]; exact hlen) _).mp ⟨v, hv⟩
    exact absurd this.2 (not_lt.mpr (hq this.1))
  cases d with
  | std accus acc =>
    obtain ⟨-, haccus, rfl⟩ := hd
    obtain ⟨hacc, hcount⟩ := getAccuMono_insert ht haccus
    unfold insertReplicate insertStd
    simp only [hx, ok_bind, nonNull, pure_eq, if_neg hM]
    rw [hcount, if_pos hfull, hacc]
    intro h
    obtain ⟨v, hv, -⟩ := bind_eq_ok.mp h
    exact hstat v hv
  | intAggrAll manageDouble accus acc filled => exact absurd hd.1.1 hall
  | intAll accus acc => exact absurd hd.1.1 hall
  | aggrAll manageDouble accus acc filled =>
    obtain ⟨-, rfl, haccus, -, rfl⟩ := hd
    obtain ⟨w, hw, -⟩ := bind_eq_ok.mp (show (o.integrateReplicate colIndex m >>= _) = _ from hx)
    obtain ⟨hacc, hcount⟩ := getAccuMono_insert ht haccus
    unfold insertReplicate insertAggrAll
    simp only [hx, hw, ok_bind, nonNull, pure_eq, if_neg hM]
    rw [hcount, if_pos hfull, hacc]
    intro h
    obtain ⟨v, hv, -⟩ := bind_eq_ok.mp h
    exact hstat v hv

/-- A delegate takes one number more, unless a statistic that is due cannot be read. -/
theorem insertReplicate_spec (hx : o.integrationType ≠ .ALL → o.integrateDouble colIndex m = .ok (x n))
    (hc : Column rows column colIndex m l n) (ht : Turn N M l n) (ho : o.Allowed)
    (hall : o.integrationType = .ALL → o.inputAggregationType ≠ .S_at → M = 1)
    (hread : o.integrationType ≠ .ALL → QuantileRead o M l n) {d : Delegate}
    (hd : d.Represents o N M rows x column l) :
    Inserts o N M rows x column l n (d.insertReplicate o colIndex N M m (n / M)) := by
  cases d with
  | std accus acc => exact insertStd_spec (hx hd.1.1) ht ho (hread hd.1.1) hd
  | intAggrAll manageDouble accus acc filled => exact insertIntAggrAll_spec hc ht ho hd
  | intAll accus acc =>
    obtain rfl := hall hd.1.1 hd.1.2
    exact insertIntAll_spec hc ht hd
  | aggrAll manageDouble accus acc filled =>
    exact insertAggrAll_spec (hx hd.1.1) ht ho (hread hd.1.1) hd

end Insert

end Delegate

end Vle.Manager
