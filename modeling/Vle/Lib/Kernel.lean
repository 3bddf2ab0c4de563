import Mathlib.Data.Multiset.Bind
import Mathlib.Data.Set.Card
import Mathlib.Data.Multiset.Count
import Mathlib.Algebra.BigOperators.Group.Multiset.Basic
import Mathlib.Algebra.BigOperators.Group.Finset.Basic
import Mathlib.Tactic

/-!
# Kernels that count

A kernel gives for each point the multiset of the points that one step leads to. Kernels compose
(`comp`), and `star n` takes any number of steps up to `n`. Two kernels are `Dual` when one leads
from `v` to `w` as often as the other leads from `w` to `v`; duals compose in the other order, and
the iterations of duals are dual. A path that chooses a position in a list at each step is counted
by `encard_positions`.
-/

namespace Vle.Lib

/-- A kernel from the points of `V` to those of `W`, with multiplicities. -/
abbrev Kernel (V W : Type) := V → Multiset W

namespace Kernel

variable {U V W : Type}

/-- One step of `κ`, then one of `η`. -/
def comp (κ : Kernel U V) (η : Kernel V W) : Kernel U W := fun u => (κ u).bind η

theorem comp_assoc {X : Type} (κ : Kernel U V) (η : Kernel V W) (θ : Kernel W X) :
    (κ.comp η).comp θ = κ.comp (η.comp θ) :=
  funext fun _ => Multiset.bind_assoc

/-- Up to `n` steps of `κ`. -/
def star (κ : Kernel V V) : ℕ → Kernel V V
  | 0, v => {v}
  | n + 1, v => {v} + (κ v).bind (star κ n)

/-- One step after up to `n` steps is the same as one before them. -/
theorem star_bind (κ : Kernel V V) (n : ℕ) (v : V) :
    (star κ n v).bind κ = (κ v).bind (star κ n) := by
  induction n generalizing v with
  | zero => exact (Multiset.singleton_bind v κ).trans (Multiset.bind_singleton (κ v) id |>.trans
      (Multiset.map_id _)).symm
  | succ n ih =>
    have hstep : (κ v).bind (star κ (n + 1)) = κ v + ((κ v).bind κ).bind (star κ n) := by
      change (κ v).bind (fun w => {w} + (κ w).bind (star κ n)) = _
      rw [Multiset.bind_add, Multiset.bind_singleton, Multiset.map_id', Multiset.bind_assoc]
    rw [hstep]
    change (({v} : Multiset V) + (κ v).bind (star κ n)).bind κ = _
    rw [Multiset.add_bind, Multiset.singleton_bind, Multiset.bind_assoc]
    congr 1
    rw [Multiset.bind_assoc]
    exact Multiset.bind_congr fun w _ => ih w

/-- Where every step lowers a rank, more steps than the rank add nothing. -/
theorem star_eq {κ : Kernel V V} {rank : V → ℕ} (hrank : ∀ v, ∀ w ∈ κ v, rank w < rank v)
    {n m : ℕ} {v : V} (hn : rank v ≤ n) (hm : rank v ≤ m) : star κ n v = star κ m v := by
  have hzero : ∀ v, rank v = 0 → κ v = 0 := fun v hv =>
    Multiset.eq_zero_of_forall_notMem fun w hw => by have := hrank v w hw; omega
  induction n generalizing m v with
  | zero =>
    cases m with
    | zero => rfl
    | succ m => simp [star, hzero v (by omega)]
  | succ n ih =>
    cases m with
    | zero => simp [star, hzero v (by omega)]
    | succ m =>
      refine congrArg ({v} + ·) (Multiset.bind_congr fun w hw => ?_)
      have := hrank v w hw
      exact ih (by omega) (by omega)

/-- With enough steps, the iteration is no step, or one and the iteration again. -/
theorem star_unfold {κ : Kernel V V} {rank : V → ℕ} (hrank : ∀ v, ∀ w ∈ κ v, rank w < rank v)
    {n : ℕ} {v : V} (hn : rank v ≤ n) : star κ n v = {v} + (κ v).bind (star κ n) :=
  star_eq hrank hn (Nat.le_succ_of_le hn)

/-- Where `f` carries the steps of `κ` to those of `κ'`, from points of a set that is not left, it carries
the iterations too. -/
theorem star_map {κ : Kernel V V} {κ' : Kernel W W} {f : V → W} {P : V → Prop}
    (h : ∀ v, P v → κ' (f v) = (κ v).map f ∧ ∀ w ∈ κ v, P w) (n : ℕ) {v : V} (hv : P v) :
    star κ' n (f v) = (star κ n v).map f ∧ ∀ w ∈ star κ n v, P w := by
  induction n generalizing v with
  | zero =>
    refine ⟨(Multiset.map_singleton f v).symm, fun w hw => ?_⟩
    rwa [Multiset.mem_singleton.mp hw]
  | succ n ih =>
    obtain ⟨hmap, hstep⟩ := h v hv
    constructor
    · change {f v} + (κ' (f v)).bind (star κ' n) = Multiset.map f ({v} + (κ v).bind (star κ n))
      rw [hmap, Multiset.map_add, Multiset.map_singleton, Multiset.bind_map, Multiset.map_bind]
      exact congrArg _ (Multiset.bind_congr fun w hw => (ih (hstep w hw)).1)
    · intro w hw
      rcases Multiset.mem_add.mp hw with hw | hw
      · rwa [Multiset.mem_singleton.mp hw]
      · obtain ⟨u, hu, hw⟩ := Multiset.mem_bind.mp hw
        exact (ih (hstep u hu)).2 w hw

/-- The same of a composition. -/
theorem comp_map {U' W' X : Type} {κ : Kernel U V} {η : Kernel V W} {κ' : Kernel U' X}
    {η' : Kernel X W'} {f : U → U'} {f' : V → X} {f'' : W → W'} {u : U}
    (hκ : κ' (f u) = (κ u).map f') (hη : ∀ v ∈ κ u, η' (f' v) = (η v).map f'') :
    κ'.comp η' (f u) = (κ.comp η u).map f'' := by
  rw [comp, comp, hκ, Multiset.bind_map, Multiset.map_bind]
  exact Multiset.bind_congr hη

variable [DecidableEq U] [DecidableEq V] [DecidableEq W]

/-- Two kernels lead back and forth between the same points, with the same multiplicities. -/
def Dual (κ : Kernel V W) (κ' : Kernel W V) : Prop := ∀ v w, (κ v).count w = (κ' w).count v

omit [DecidableEq U] in
/-- The multiplicity of a composition, as a sum over the points in between. -/
theorem count_comp (κ : Kernel U V) (η : Kernel V W) (u : U) (w : W) {s : Finset V}
    (hs : (κ u).toFinset ⊆ s) :
    (κ.comp η u).count w = ∑ v ∈ s, (κ u).count v * (η v).count w := by
  rw [comp, Multiset.count_bind, Finset.sum_multiset_map_count]
  refine Finset.sum_subset hs fun v _ hv => ?_
  rw [Multiset.count_eq_zero.mpr (fun h => hv (Multiset.mem_toFinset.mpr h)), zero_smul]

/-- Duals compose in the other order. -/
theorem Dual.comp {κ : Kernel U V} {κ' : Kernel V U} {η : Kernel V W} {η' : Kernel W V}
    (hκ : Dual κ κ') (hη : Dual η η') : Dual (Kernel.comp κ η) (Kernel.comp η' κ') := by
  intro u w
  rw [count_comp κ η u w (s := (κ u).toFinset ∪ (η' w).toFinset) Finset.subset_union_left,
    count_comp η' κ' w u (s := (κ u).toFinset ∪ (η' w).toFinset) Finset.subset_union_right]
  refine Finset.sum_congr rfl fun v _ => ?_
  rw [hκ u v, hη v w, Nat.mul_comm]

/-- The iterations of duals are dual. -/
theorem Dual.star {κ κ' : Kernel V V} (h : Dual κ κ') (n : ℕ) :
    Dual (Kernel.star κ n) (Kernel.star κ' n) := by
  have hself : ∀ v w : V, ({v} : Multiset V).count w = ({w} : Multiset V).count v := by
    intro v w
    rw [Multiset.count_singleton, Multiset.count_singleton]
    exact if_congr eq_comm rfl rfl
  induction n with
  | zero => exact hself
  | succ n ih =>
    intro v w
    rw [Kernel.star, Kernel.star, Multiset.count_add, Multiset.count_add, hself v w]
    have := h.comp ih v w
    rw [Kernel.comp, Kernel.comp, star_bind] at this
    rw [this]

omit [DecidableEq V] [DecidableEq U] in
/-- A multiplicity after one step along the elements of a list. -/
theorem count_coe_bind (l : List V) (η : Kernel V W) (w : W) :
    ((((l : Multiset V).bind η).count w : ℕ) : ℕ∞) =
      (l.map fun v => (((η v).count w : ℕ) : ℕ∞)).sum := by
  rw [Multiset.count_bind, Multiset.map_coe, Multiset.sum_coe, ← Nat.coe_castAddMonoidHom,
    map_list_sum, List.map_map]
  rfl

end Kernel

/-- The number of position lists that lead through an expansion, summed over its elements. -/
theorem encard_positions {X : Type} (items : List X) (q : X → List ℕ → Prop) :
    {is | ∃ i is' x, is = i :: is' ∧ items[i]? = some x ∧ q x is'}.encard =
      (items.map fun x => {is | q x is}.encard).sum := by
  induction items with
  | nil => simp
  | cons x items ih =>
    have hsplit : {is | ∃ i is' y, is = i :: is' ∧ (x :: items)[i]? = some y ∧ q y is'} =
        (List.cons 0) '' {is | q x is} ∪ (List.modifyHead (· + 1)) ''
          {is | ∃ i is' y, is = i :: is' ∧ items[i]? = some y ∧ q y is'} := by
      ext is
      constructor
      · rintro ⟨i, is', y, rfl, hget, hq⟩
        cases i with
        | zero =>
          obtain rfl : x = y := by simpa using hget
          exact .inl ⟨is', hq, rfl⟩
        | succ i => exact .inr ⟨i :: is', ⟨i, is', y, rfl, by simpa using hget, hq⟩, rfl⟩
      · rintro (⟨is', hq, rfl⟩ | ⟨_, ⟨i, is', y, rfl, hget, hq⟩, rfl⟩)
        · exact ⟨0, is', x, rfl, rfl, hq⟩
        · exact ⟨i + 1, is', y, rfl, by simpa using hget, hq⟩
    have hdisjoint : Disjoint ((List.cons 0) '' {is | q x is}) ((List.modifyHead (· + 1)) ''
        {is | ∃ i is' y, is = i :: is' ∧ items[i]? = some y ∧ q y is'}) := by
      refine Set.disjoint_left.mpr ?_
      rintro _ ⟨is, -, rfl⟩ ⟨_, ⟨i, is', y, rfl, -, -⟩, h⟩
      simp at h
    have hinj : Set.InjOn (List.modifyHead (· + 1))
        {is | ∃ i is' y, is = i :: is' ∧ items[i]? = some y ∧ q y is'} := by
      rintro _ ⟨i, is, -, rfl, -⟩ _ ⟨j, js, -, rfl, -⟩ h
      simpa using h
    rw [hsplit, Set.encard_union_eq hdisjoint, (List.cons_injective).encard_image,
      hinj.encard_image, ih, List.map_cons, List.sum_cons]

end Vle.Lib
