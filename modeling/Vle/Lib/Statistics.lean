import Mathlib.Algebra.BigOperators.Group.List.Basic
import Mathlib.Algebra.Order.Floor.Ring
import Mathlib.Data.List.GetD
import Mathlib.Data.List.Sort
import Mathlib.Tactic

/-!
# Statistics of a list

The statistics of a list of numbers in exact arithmetic, and the two facts by which a running summary
gives them: the sum of the squared deviations from the sums alone (`deviationSquareSum_eq`), and the
quantiles from any order of the list (`quantile_perm`). A quantile interpolates between two neighbours
of the sorted list; that of a list in another order is the same for all its orders only when there is
nothing to interpolate between (`interpolated_perm_iff`).
-/

namespace Vle.Lib.Statistics

/-- A running minimum that starts from a number is the least value of a list exactly when some value is
not above that number. -/
theorem foldl_min_least_iff {α : Type*} [LinearOrder α] (l : List α) (d : α) :
    (l.foldl (fun m v => min v m) d ∈ l ∧ ∀ v ∈ l, l.foldl (fun m v => min v m) d ≤ v) ↔
      ∃ v ∈ l, v ≤ d := by
  have hspec : ∀ (l : List α) (d : α), l.foldl (fun m v => min v m) d ≤ d ∧
      (∀ v ∈ l, l.foldl (fun m v => min v m) d ≤ v) ∧
      (l.foldl (fun m v => min v m) d = d ∨ l.foldl (fun m v => min v m) d ∈ l) := by
    intro l
    induction l with
    | nil => exact fun d => ⟨le_rfl, fun v hv => absurd hv List.not_mem_nil, .inl rfl⟩
    | cons v l ih =>
      intro d
      obtain ⟨hle, hall, hmem⟩ := ih (min v d)
      rw [List.foldl_cons]
      refine ⟨hle.trans (min_le_right _ _), fun w hw => ?_, ?_⟩
      · rcases List.mem_cons.mp hw with rfl | hw
        · exact hle.trans (min_le_left _ _)
        · exact hall w hw
      · rcases hmem with heq | hmem
        · rcases min_choice v d with hmin | hmin
          · exact .inr (by rw [heq, hmin]; exact List.mem_cons_self)
          · exact .inl (heq.trans hmin)
        · exact .inr (List.mem_cons_of_mem _ hmem)
  obtain ⟨hle, hall, hmem⟩ := hspec l d
  constructor
  · rintro ⟨hin, -⟩
    exact ⟨_, hin, hle⟩
  · rintro ⟨v, hv, hvd⟩
    refine ⟨?_, hall⟩
    rcases hmem with heq | hmem
    · have : v = d := le_antisymm hvd (heq ▸ hall v hv)
      rwa [heq, ← this]
    · exact hmem

/-- The same for a running maximum. -/
theorem foldl_max_greatest_iff {α : Type*} [LinearOrder α] (l : List α) (d : α) :
    (l.foldl (fun m v => max v m) d ∈ l ∧ ∀ v ∈ l, v ≤ l.foldl (fun m v => max v m) d) ↔
      ∃ v ∈ l, d ≤ v :=
  foldl_min_least_iff (α := αᵒᵈ) l d

variable {K : Type*} [Field K]

def mean (l : List K) : K := l.sum / l.length

def squareSum (l : List K) : K := (l.map (· ^ 2)).sum

def moment2 (l : List K) : K := squareSum l / l.length

/-- The sum of the squared deviations from the mean. -/
def deviationSquareSum (l : List K) : K := (l.map fun v => (v - mean l) ^ 2).sum

/-- The variance of a sample. -/
def variance (l : List K) : K := deviationSquareSum l / (l.length - 1)

/-- The squared deviations from any number, summed up. -/
theorem sum_deviations (l : List K) (m : K) :
    (l.map fun v => (v - m) ^ 2).sum = l.length * m ^ 2 + squareSum l - 2 * m * l.sum := by
  unfold squareSum
  induction l with
  | nil => simp
  | cons v l ih =>
    simp only [List.map_cons, List.sum_cons, ih, List.length_cons, Nat.cast_add, Nat.cast_one]
    ring

theorem deviationSquareSum_eq (l : List K) : deviationSquareSum l =
    l.length * mean l ^ 2 + squareSum l - 2 * mean l * l.sum :=
  sum_deviations l _

/-- Lists with the same elements are sorted to the same list. -/
theorem insertionSort_perm {α : Type*} [LinearOrder α] {l l' : List α} (h : l.Perm l') :
    l.insertionSort (· ≤ ·) = l'.insertionSort (· ≤ ·) :=
  List.Perm.eq_of_pairwise (fun _ _ _ _ => le_antisymm) (List.pairwise_insertionSort ..)
    (List.pairwise_insertionSort ..)
    (((List.perm_insertionSort ..).trans h).trans (List.perm_insertionSort ..).symm)

variable [LinearOrder K] [FloorRing K]

/-- The position of a quantile in a list: it is between two places. -/
def position (n : ℕ) (p : K) : K := (n - 1) * p

/-- What is at a position of a list, which is interpolated between two places. It is the last place for
the order one. -/
def interpolated (x : List K) (p : K) : K :=
  let h := position x.length p
  let k := ⌊h⌋.toNat
  if p = 1 then x.getD (x.length - 1) 0
  else x.getD k 0 + (h - k) * (x.getD (k + 1) 0 - x.getD k 0)

/-- The quantile of order `p`. -/
def quantile (l : List K) (p : K) : K := interpolated (l.insertionSort (· ≤ ·)) p

/-- A quantile does not depend on the order of the list. -/
theorem quantile_perm {l l' : List K} (h : l.Perm l') (p : K) : quantile l p = quantile l' p := by
  rw [quantile, quantile, insertionSort_perm h]

/-- How far a position is from the place before it. -/
def fraction (n : ℕ) (p : K) : K := position n p - (⌊position n p⌋.toNat : K)

theorem interpolated_eq {x : List K} {p : K} (h1 : p < 1) : interpolated x p =
    x.getD ⌊position x.length p⌋.toNat 0 + fraction x.length p *
      (x.getD (⌊position x.length p⌋.toNat + 1) 0 - x.getD ⌊position x.length p⌋.toNat 0) :=
  if_neg h1.ne

variable [IsStrictOrderedRing K]

/-- Below the order one a position has two neighbours in the list. -/
theorem floor_position {n : ℕ} (hn : 2 ≤ n) {p : K} (h0 : 0 ≤ p) (h1 : p < 1) :
    0 ≤ ⌊position n p⌋ ∧ ⌊position n p⌋ + 1 < n := by
  have hpos : (1 : K) ≤ n - 1 := by
    have : (2 : K) ≤ n := by exact_mod_cast hn
    linarith
  constructor
  · exact Int.floor_nonneg.mpr (mul_nonneg (by linarith) h0)
  · have : ⌊position n p⌋ < (n : ℤ) - 1 := by
      refine Int.floor_lt.mpr ?_
      push_cast
      exact mul_lt_of_lt_one_right (by linarith) h1
    omega

theorem fraction_spec {n : ℕ} (hn : 2 ≤ n) {p : K} (h0 : 0 ≤ p) (h1 : p < 1) :
    0 ≤ fraction n p ∧ fraction n p < 1 := by
  have hfloor : ((⌊position n p⌋.toNat : ℤ) : K) = ⌊position n p⌋ := by
    rw [Int.toNat_of_nonneg (floor_position hn h0 h1).1]
  rw [Int.cast_natCast] at hfloor
  unfold fraction
  rw [hfloor]
  exact ⟨Int.fract_nonneg _, Int.fract_lt_one _⟩

/-- The order of a list puts any two of its elements next to a position. -/
theorem interpolated_of_perm {l r : List K} {a b : K} (hl : 2 ≤ l.length) {p : K} (h0 : 0 ≤ p)
    (h1 : p < 1) (hperm : l.Perm (a :: b :: r)) : ∃ l', l'.Perm l ∧
      interpolated l' p = a + fraction l.length p * (b - a) := by
  obtain ⟨hk0, hk1⟩ := floor_position hl h0 h1
  set k := ⌊position l.length p⌋.toNat with hk
  have hlen : l.length = r.length + 2 := hperm.length_eq
  have hkr : k ≤ r.length := by omega
  have htake : (r.take k).length = k := by rw [List.length_take, Nat.min_eq_left hkr]
  refine ⟨r.take k ++ a :: b :: r.drop k, ?_, ?_⟩
  · refine List.Perm.trans ?_ hperm.symm
    refine (List.perm_middle.trans (List.Perm.cons a List.perm_middle)).trans ?_
    rw [List.take_append_drop]
  · have hlen' : (r.take k ++ a :: b :: r.drop k).length = l.length := by
      rw [List.length_append, htake, List.length_cons, List.length_cons, List.length_drop]
      omega
    rw [interpolated_eq h1, hlen', ← hk]
    have ha : (r.take k ++ a :: b :: r.drop k).getD k 0 = a := by
      rw [List.getD_append_right _ _ _ _ (by omega), htake, Nat.sub_self]
      rfl
    have hb : (r.take k ++ a :: b :: r.drop k).getD (k + 1) 0 = b := by
      rw [List.getD_append_right _ _ _ _ (by omega), htake, Nat.add_sub_cancel_left]
      rfl
    rw [ha, hb]

/-- All values of a list are the same. -/
def Constant (l : List K) : Prop := ∀ v ∈ l, ∀ w ∈ l, v = w

/-- In a list of one value only there is nothing to interpolate. -/
theorem Constant.interpolated {l : List K} (h : Constant l) (hl : 2 ≤ l.length) {p : K} (h0 : 0 ≤ p)
    (h1 : p < 1) {v : K} (hv : v ∈ l) : interpolated l p = v := by
  obtain ⟨hk0, hk1⟩ := floor_position hl h0 h1
  have hall : ∀ j < l.length, l.getD j 0 = v := fun j hj => by
    rw [List.getD_eq_getElem _ _ hj]
    exact h _ (List.getElem_mem hj) _ hv
  rw [interpolated_eq h1, hall _ (by omega), hall _ (by omega)]
  ring

/-- What is interpolated in a list is a quantile, whatever the order of the list, exactly when all
values are the same, or it is the middle of two. -/
theorem interpolated_perm_iff {l : List K} (hl : 2 ≤ l.length) {p : K} (h0 : 0 ≤ p) (h1 : p < 1) :
    (∀ l', l'.Perm l → interpolated l' p = quantile l p) ↔
      Constant l ∨ l.length = 2 ∧ p = 1 / 2 := by
  constructor
  · intro hall
    by_contra hnot
    rw [not_or] at hnot
    obtain ⟨hconstant, hhalf⟩ := hnot
    unfold Constant at hconstant
    simp only [not_forall] at hconstant
    obtain ⟨v, hv, w, hw, hne⟩ := hconstant
    -- two different values in either order, next to the position
    have hwr : w ∈ l.erase v := (List.mem_erase_of_ne (Ne.symm hne)).mpr hw
    have hperm : l.Perm (v :: w :: (l.erase v).erase w) :=
      (List.perm_cons_erase hv).trans ((List.perm_cons_erase hwr).cons v)
    obtain ⟨l₁, hl₁, h₁⟩ := interpolated_of_perm hl h0 h1 hperm
    obtain ⟨l₂, hl₂, h₂⟩ := interpolated_of_perm hl h0 h1 (hperm.trans (List.Perm.swap w v _))
    have heq : v + fraction l.length p * (w - v) = w + fraction l.length p * (v - w) := by
      rw [← h₁, ← h₂, hall _ hl₁, hall _ hl₂]
    have hsub : v - w ≠ 0 := sub_ne_zero.mpr hne
    have hfraction : fraction l.length p = 1 / 2 := by
      have : (v - w) * (1 - 2 * fraction l.length p) = 0 := by linear_combination heq
      rcases mul_eq_zero.mp this with h | h
      · exact absurd h hsub
      · linarith
    cases hr : (l.erase v).erase w with
    | nil =>
      have htwo : l.length = 2 := by
        have := hperm.length_eq
        rw [hr] at this
        exact this
      refine hhalf ⟨htwo, ?_⟩
      have hpos : position 2 p = p := by
        unfold position
        push_cast
        ring
      rw [htwo, fraction, hpos, Int.floor_eq_zero_iff.mpr ⟨h0, h1⟩] at hfraction
      simpa using hfraction
    | cons u r =>
      -- a third value next to each of them
      rw [hr] at hperm
      have hvu : l.Perm (v :: u :: w :: r) := hperm.trans ((List.Perm.swap u w r).cons v)
      have hwu : l.Perm (w :: u :: v :: r) :=
        (hperm.trans (List.Perm.swap w v _)).trans ((List.Perm.swap u v r).cons w)
      obtain ⟨l₃, hl₃, h₃⟩ := interpolated_of_perm hl h0 h1 hvu
      obtain ⟨l₄, hl₄, h₄⟩ := interpolated_of_perm hl h0 h1 hwu
      have heq' : v + fraction l.length p * (u - v) = w + fraction l.length p * (u - w) := by
        rw [← h₃, ← h₄, hall _ hl₃, hall _ hl₄]
      rw [hfraction] at heq'
      exact hsub (by linarith)
  · rintro (hconstant | ⟨htwo, rfl⟩) l' hperm
    · obtain ⟨v, hv⟩ : ∃ v, v ∈ l := List.exists_mem_of_length_pos (by omega)
      have hsort : (l.insertionSort (· ≤ ·)).Perm l := List.perm_insertionSort ..
      have hvalue : ∀ x : List K, x.Perm l → interpolated x p = v := fun x hx => by
        have hx' : Constant x := fun a ha b hb => hconstant a (hx.subset ha) b (hx.subset hb)
        exact hx'.interpolated (hx.length_eq ▸ hl) h0 h1 (hx.symm.subset hv)
      rw [quantile, hvalue _ hperm, hvalue _ hsort]
    · have hvalue : ∀ x : List K, x.Perm l → interpolated x (1 / 2) = l.sum / 2 := fun x hx => by
        obtain ⟨a, b, rfl⟩ := List.length_eq_two.mp (hx.length_eq.trans htwo)
        have hpos : position 2 (1 / 2 : K) = 1 / 2 := by
          unfold position
          push_cast
          ring
        have hfraction : fraction 2 (1 / 2 : K) = 1 / 2 := by
          rw [fraction, hpos, Int.floor_eq_zero_iff.mpr ⟨h0, h1⟩]
          simp
        rw [interpolated_eq h1, ← hx.sum_eq]
        simp only [List.length_cons, List.length_nil, Nat.zero_add, Nat.reduceAdd, hfraction, hpos,
          Int.floor_eq_zero_iff.mpr ⟨h0, h1⟩, Int.toNat_zero, List.getD_cons_zero,
          List.getD_cons_succ, List.sum_cons, List.sum_nil]
        ring
      rw [quantile, hvalue _ hperm, hvalue _ (List.perm_insertionSort ..)]

end Vle.Lib.Statistics
