import Vle.Manager.AccuMono

/-!
# Quantiles

The accumulators of types `QUANTILE` and `ORDERED` keep their values, and both answer a quantile from
what they keep; only the first sorts it. `answers_iff` says when the answer is the quantile of the
values, in whatever order they were inserted and with other quantiles asked for in between.
-/

namespace Vle.Manager.Details

open Lib Lib.EState

namespace AccuMono

/-- What is asked of an accumulator that keeps its values. -/
inductive Call where
  | insert (v : ℚ)
  | quantile (p : ℚ)

/-- A call; what a quantile returns is dropped. -/
def call : Call → EStateM Fault AccuMono PUnit
  | .insert v => fun a =>
    match a.insert v with
    | .ok a' => .ok ⟨⟩ a'
    | .error e => .error e a
  | .quantile p => do
    let _ ← quantile p

/-- The values that some calls insert. -/
def inserted (cs : List Call) : List ℚ :=
  cs.filterMap fun c =>
    match c with
    | .insert v => some v
    | .quantile _ => none

/-- However the values of a list have been inserted, the quantile of an order is that of the list. -/
def Answers (type : AccuType) (l : List ℚ) (p : ℚ) : Prop :=
  ∀ cs a, cs.forM call (ofType type) = .ok ⟨⟩ a → (inserted cs).Perm l →
    ∃ a', quantile p a = .ok (Statistics.quantile l p) a'

/-- What an accumulator keeps: the values, in the order of the insertions unless it sorts them. -/
structure Stores (type : AccuType) (l : List ℚ) (a : AccuMono) : Prop where
  accu : a.accu = type
  values : ∃ x, a.mvalues = some x ∧ (type = .ordered → x = l) ∧
    (type = .quantile → x.Perm l ∧ (a.msorted = true → x.Pairwise (· ≤ ·)))

/-- What a quantile is read from. -/
def readFrom (type : AccuType) (l : List ℚ) : List ℚ :=
  if type = .quantile then l.insertionSort (· ≤ ·) else l

variable {type : AccuType} {l : List ℚ} {a : AccuMono}

theorem stores_ofType (htype : type = .quantile ∨ type = .ordered) :
    Stores type [] (ofType type) where
  accu := rfl
  values := ⟨[], if_pos htype.symm, fun _ => rfl, fun _ => ⟨List.Perm.refl _, fun _ => List.Pairwise.nil⟩⟩

/-- An insertion adds a value. -/
theorem stores_insert (htype : type = .quantile ∨ type = .ordered) (h : Stores type l a) (v : ℚ) :
    ∃ a', a.insert v = .ok a' ∧ Stores type (l ++ [v]) a' := by
  obtain ⟨haccu, x, hx, hordered, hquantile⟩ := h
  unfold insert
  rcases htype with rfl | rfl
  · refine ⟨{ a with mvalues := some (x ++ [v]), msorted := false }, ?_, haccu, ?_⟩
    · simp only [haccu, values, hx, Except.ok_bind, Except.pure_eq]
    · exact ⟨x ++ [v], rfl, fun h => (AccuType.noConfusion h),
        fun _ => ⟨(hquantile rfl).1.append_right [v], fun h => (Bool.noConfusion h)⟩⟩
  · refine ⟨{ a with mvalues := some (x ++ [v]) }, ?_, haccu, ?_⟩
    · simp only [haccu, values, hx, Except.ok_bind, Except.pure_eq]
    · exact ⟨x ++ [v], rfl, fun _ => by rw [hordered rfl], fun h => (AccuType.noConfusion h)⟩

/-- The values are read where they are. -/
theorem inspect_values {x : List ℚ} (hx : a.mvalues = some x) (p : ℚ) :
    inspect (fun a => a.values >>= fun x => quantileOnSortedVect x p) a =
      inspect (fun _ => quantileOnSortedVect x p) a := by
  have hvalues : a.values = .ok x := by
    unfold values
    rw [hx]
  simp only [inspect, hvalues, Except.ok_bind]

/-- A quantile is read from the values, sorted if the accumulator sorts them, and keeps them. -/
theorem stores_quantile (htype : type = .quantile ∨ type = .ordered) (h : Stores type l a) (p : ℚ) :
    ∃ a', Stores type l a' ∧
      quantile p a = inspect (fun _ => quantileOnSortedVect (readFrom type l) p) a' := by
  obtain ⟨haccu, x, hx, hordered, hquantile⟩ := h
  rcases htype with rfl | rfl
  · obtain ⟨hperm, hsorted⟩ := hquantile rfl
    rw [readFrom, if_pos rfl, ← Statistics.insertionSort_perm hperm]
    by_cases hflag : a.msorted = true
    · refine ⟨a, ⟨haccu, x, hx, fun h => (AccuType.noConfusion h), fun _ => ⟨hperm, hsorted⟩⟩, ?_⟩
      -- sorted values are not sorted again
      have heq : x.insertionSort (· ≤ ·) = x := (hsorted hflag).insertionSort_eq
      rw [heq, ← inspect_values hx]
      simp only [quantile, haccu, values, hx, hflag, if_true]
    · refine ⟨{ a with mvalues := some (x.insertionSort (· ≤ ·)), msorted := true }, ⟨haccu, _, rfl,
        fun h => (AccuType.noConfusion h), fun _ => ⟨(List.perm_insertionSort _ x).trans hperm,
          fun _ => List.pairwise_insertionSort ..⟩⟩, ?_⟩
      rw [← inspect_values rfl]
      simp only [quantile, haccu, values, hx, hflag, if_false, Bool.false_eq_true]
  · refine ⟨a, ⟨haccu, x, hx, hordered, hquantile⟩, ?_⟩
    rw [readFrom, if_neg (by decide), ← hordered rfl, ← inspect_values hx]
    simp only [quantile, haccu]

theorem call_insert {a' : AccuMono} {v : ℚ} (h : a.insert v = .ok a') :
    call (.insert v) a = .ok ⟨⟩ a' := by
  change (match a.insert v with
    | .ok a' => EStateM.Result.ok PUnit.unit a'
    | .error e => EStateM.Result.error e a) = _
  rw [h]

/-- After any calls an accumulator keeps what they inserted. -/
theorem stores_of_calls (htype : type = .quantile ∨ type = .ordered) {cs : List Call}
    (h : cs.forM call (ofType type) = .ok ⟨⟩ a) : Stores type (inserted cs) a := by
  have hrun : ∀ (cs : List Call) (l : List ℚ) (b : AccuMono), Stores type l b →
      cs.forM call b = .ok ⟨⟩ a → Stores type (l ++ inserted cs) a := by
    intro cs
    induction cs with
    | nil =>
      rintro l b hb ⟨⟩
      rwa [inserted, List.filterMap_nil, List.append_nil]
    | cons c cs ih =>
      intro l b hb hcs
      obtain ⟨⟨⟩, b', hc, hrest⟩ := bind_eq_ok.mp hcs
      cases c with
      | insert v =>
        obtain ⟨b'', hinsert, hstores⟩ := stores_insert htype hb v
        rw [call_insert hinsert] at hc
        cases hc
        have := ih _ _ hstores hrest
        rwa [List.append_assoc] at this
      | quantile p =>
        obtain ⟨b'', hstores, hquantile⟩ := stores_quantile htype hb p
        obtain ⟨r, b₁, hr, hc⟩ := bind_eq_ok.mp hc
        cases hc
        rw [hquantile] at hr
        exact ih _ _ ((inspect_eq_ok.mp hr).2 ▸ hstores) hrest
  exact hrun cs [] _ (stores_ofType htype) h

/-- The values of a list can be inserted in the order of the list. -/
theorem calls_insert (htype : type = .quantile ∨ type = .ordered) (l : List ℚ) :
    ∃ a, (l.map Call.insert).forM call (ofType type) = .ok ⟨⟩ a := by
  have hrun : ∀ (r l : List ℚ) (b : AccuMono), Stores type l b →
      ∃ a, (r.map Call.insert).forM call b = .ok ⟨⟩ a := by
    intro r
    induction r with
    | nil => exact fun _ b _ => ⟨b, rfl⟩
    | cons v r ih =>
      intro l b hb
      obtain ⟨b', hinsert, hstores⟩ := stores_insert htype hb v
      obtain ⟨a, ha⟩ := ih _ _ hstores
      exact ⟨a, bind_eq_ok.mpr ⟨⟨⟩, b', call_insert hinsert, ha⟩⟩
  exact hrun l [] _ (stores_ofType htype)

theorem inserted_map (l : List ℚ) : inserted (l.map Call.insert) = l := by
  rw [inserted, List.filterMap_map]
  exact List.filterMap_some

/-- The answer is right exactly when what the quantile is read from gives the quantile, for every order
of the values. -/
theorem answers_iff_read (htype : type = .quantile ∨ type = .ordered) (l : List ℚ) (p : ℚ) :
    Answers type l p ↔
      ∀ l', l'.Perm l → quantileOnSortedVect (readFrom type l') p = .ok (Statistics.quantile l p) := by
  have hanswer : ∀ {l' : List ℚ} {a : AccuMono}, Stores type l' a →
      ((∃ a', quantile p a = .ok (Statistics.quantile l p) a') ↔
        quantileOnSortedVect (readFrom type l') p = .ok (Statistics.quantile l p)) := by
    intro l' a ha
    obtain ⟨a', -, hquantile⟩ := stores_quantile htype ha p
    rw [hquantile]
    constructor
    · rintro ⟨_, h⟩
      exact (inspect_eq_ok.mp h).1
    · exact fun h => ⟨a', inspect_eq_ok.mpr ⟨h, rfl⟩⟩
  constructor
  · intro h l' hperm
    obtain ⟨a, ha⟩ := calls_insert htype l'
    have hstores := stores_of_calls htype ha
    rw [inserted_map] at hstores
    exact (hanswer hstores).mp (h _ a ha (by rwa [inserted_map]))
  · intro h cs a ha hperm
    exact (hanswer (stores_of_calls htype ha)).mpr (h _ hperm)

/-- The quantile of one value. -/
theorem quantileOnSortedVect_single (v p : ℚ) :
    quantileOnSortedVect [v] p = .ok (Statistics.interpolated [v] p) := by
  have hposition : Statistics.position 1 p = 0 := by simp [Statistics.position]
  have hvalue : Statistics.interpolated [v] p = v := by
    simp [Statistics.interpolated, hposition]
  rw [hvalue]
  rfl

/-- Below the order one the two places next to the position are read. -/
theorem quantileOnSortedVect_ok {x : List ℚ} (hx : 2 ≤ x.length) (hlen : x.length < unsignedInt)
    {p : ℚ} (h0 : 0 ≤ p) (h1 : p < 1) :
    quantileOnSortedVect x p = .ok (Statistics.interpolated x p) := by
  obtain ⟨hk0, hk1⟩ := Statistics.floor_position hx h0 h1
  have hread : ∀ {j : ℕ}, j < x.length → Manager.AccuMono.read x j = .ok (x.getD j 0) := fun {j} hj => by
    rw [Manager.AccuMono.read, if_pos (Int.natCast_nonneg j), Int.toNat_natCast,
      List.getElem?_eq_getElem hj, List.getD_eq_getElem _ _ hj]
  have hfloor : (x.length : ℚ) * p + (1 - p) = Statistics.position x.length p + 1 := by
    unfold Statistics.position
    ring
  have hcast : ((⌊Statistics.position x.length p⌋.toNat : ℕ) : ℤ) =
      ⌊Statistics.position x.length p⌋ := Int.toNat_of_nonneg hk0
  rw [quantileOnSortedVect_eq hlen, Manager.AccuMono.quantileOnSortedVect, if_neg (by omega),
    Statistics.interpolated_eq h1]
  simp only [hfloor, Int.floor_add_one, add_sub_cancel_right]
  rw [← hcast, ← Nat.cast_succ, hread (by omega), hread (by omega)]
  refine congrArg Except.ok ?_
  have hg : (x.length : ℚ) * p + 1 - p - ((⌊Statistics.position x.length p⌋.toNat.succ : ℤ) : ℚ) =
      Statistics.fraction x.length p := by
    unfold Statistics.fraction Statistics.position
    push_cast
    ring
  rw [hg, Nat.succ_eq_add_one, Int.toNat_natCast]
  ring

/-- For the order one a place is read that is not there. -/
theorem quantileOnSortedVect_one_not_ok {x : List ℚ} (hx : 2 ≤ x.length)
    (hlen : x.length < unsignedInt) (v : ℚ) : quantileOnSortedVect x 1 ≠ .ok v := by
  intro h
  rw [quantileOnSortedVect_eq hlen] at h
  exact absurd ((Manager.AccuMono.quantileOnSortedVect_ok_iff hx 1).mp ⟨v, h⟩).2 (lt_irrefl 1)

/-- The quantiles of at least one value are those of the list exactly when there is one value only, or
the order is below one and the values are sorted, or need not be. -/
theorem answers_iff (htype : type = .quantile ∨ type = .ordered) (hl : l ≠ [])
    (hlen : l.length < 2 ^ 32) {p : ℚ} (h0 : 0 ≤ p) (h1 : p ≤ 1) :
    Answers type l p ↔ l.length = 1 ∨
      p < 1 ∧ (type = .quantile ∨ Statistics.Constant l ∨ l.length = 2 ∧ p = 1 / 2) := by
  rw [answers_iff_read htype]
  have hread : ∀ l', l'.Perm l → (readFrom type l').Perm l := fun l' hl' => by
    unfold readFrom
    split_ifs
    · exact (List.perm_insertionSort _ l').trans hl'
    · exact hl'
  by_cases hone : l.length = 1
  · refine iff_of_true (fun l' hl' => ?_) (.inl hone)
    obtain ⟨v, rfl⟩ := List.length_eq_one_iff.mp hone
    rw [List.perm_singleton.mp (hread l' hl'), quantileOnSortedVect_single]
    rfl
  have htwo : 2 ≤ l.length := by
    have := List.length_pos_iff.mpr hl
    omega
  rcases h1.lt_or_eq with h1 | rfl
  · have hok : ∀ l', l'.Perm l →
        quantileOnSortedVect (readFrom type l') p = .ok (Statistics.interpolated (readFrom type l') p) :=
      fun l' hl' => by
        have hlength := (hread l' hl').length_eq
        exact quantileOnSortedVect_ok (by omega) (by unfold unsignedInt; omega) h0 h1
    constructor
    · intro h
      refine .inr ⟨h1, ?_⟩
      rcases htype with htype | htype
      · exact .inl htype
      · refine .inr ((Statistics.interpolated_perm_iff htwo h0 h1).mp fun l' hl' => ?_)
        have heq := (hok l' hl').symm.trans (h l' hl')
        rw [readFrom, if_neg (by rw [htype]; decide)] at heq
        exact Except.ok.inj heq
    · intro h l' hl'
      rw [hok l' hl']
      refine congrArg Except.ok ?_
      rcases (h.resolve_left hone).2 with hquantile | hany
      · rw [readFrom, if_pos hquantile, Statistics.insertionSort_perm hl']
        rfl
      · exact (Statistics.interpolated_perm_iff htwo h0 h1).mpr hany _ (hread l' hl')
  · refine iff_of_false (fun h => ?_) fun h => ?_
    · have hlength := (hread l (List.Perm.refl l)).length_eq
      exact quantileOnSortedVect_one_not_ok (by omega) (by unfold unsignedInt; omega) _
        (h l (List.Perm.refl l))
    · rcases h with h | ⟨h, -⟩
      · exact hone h
      · exact absurd h (lt_irrefl 1)

/-- The median of two values. -/
theorem answers_median : Answers .ordered [2, 1] (1 / 2) :=
  (answers_iff (.inr rfl) (List.cons_ne_nil _ _) (by decide) (by norm_num) (by norm_num)).mpr
    (.inr ⟨by norm_num, .inr (.inr ⟨rfl, rfl⟩)⟩)

/-- The least of two values that are not inserted in order. -/
theorem not_answers_least : ¬ Answers .ordered [2, 1] 0 := by
  intro h
  have hread := (answers_iff_read (.inr rfl) _ _).mp h [2, 1] (List.Perm.refl _)
  have hvalue : Statistics.quantile [2, 1] (0 : ℚ) = 1 := by
    rw [Statistics.quantile, Statistics.interpolated_eq zero_lt_one]
    simp [Statistics.position, Statistics.fraction, List.insertionSort]
  rw [hvalue, readFrom, if_neg (by decide),
    quantileOnSortedVect_ok (by decide) (by decide) le_rfl zero_lt_one,
    Statistics.interpolated_eq zero_lt_one] at hread
  simp [Statistics.position, Statistics.fraction] at hread

end AccuMono

end Vle.Manager.Details
