import Vle.Translator.MatrixTranslator

/-!
# Lines of models

What `make_1d` connects a line with, and when that is what its mask shows. The positions of a line that
does not wrap are clipped to it, and those of one that wraps are moved by its length once when they are
before it. `make_1d_iff` says that this is enough unless the origin of the mask is too far from the line.
-/

namespace Vle.Translator

open Lib Lib.EState Lib.Loops Devs

variable {V ν : Type} {E : Failure → Prop}

/-- The name of the model at a position of a line. -/
def name1d (params : Parameter) (i : ℤ) : String := (params.make_model ⟨i, -1, -1⟩).1

/-- What a cell of the mask connects the model at a position of a line to. -/
def neighbour1d (params : Parameter) (length : ℤ) (wrap : Bool) (mask : List String) (x_mask : ℤ)
    (i m : ℕ) : List (String × String × String × String) :=
  let cell := mask.getD m ""
  if cell = "" then []
  else (target wrap length i (m - x_mask)).toList.map fun t =>
    connection params.type (name1d params i) (name1d params t) cell

/-- The connections of a line. -/
def graph1d (params : Parameter) (length : ℤ) (wrap : Bool) (mask : List String) (x_mask : ℤ) :
    List (String × String × String × String) :=
  (List.range length.toNat).flatMap fun i => (List.range mask.length).flatMap fun m =>
    neighbour1d params length wrap mask x_mask i m

/-- The generator ends, and its connections are those of the line. -/
def Builds1d (conditions : Conditions V) (params : Parameter) (length : ℤ) (wrap : Bool)
    (mask : List String) (x_mask : ℤ) : Prop :=
  ∃ w, make1d conditions params length wrap mask x_mask ⟨[], [], -1⟩ = .ok ⟨⟩ w ∧
    (connections w.commands).Perm (graph1d params length wrap mask x_mask)

/-- The sizes are `int`s that can be added, and the origin of the mask is not too far from the line: not
more than one cell before the mask if the line does not wrap, and not more than the line after a cell
that connects if it does. -/
def Fits1d (length : ℤ) (wrap : Bool) (mask : List String) (x_mask : ℤ) : Prop :=
  length - 1 + mask.length ≤ intMax ∧ length - 1 + mask.length - x_mask ≤ intMax ∧
    if wrap then ∀ m < mask.length, mask.getD m "" ≠ "" → x_mask ≤ m + length else -1 ≤ x_mask

theorem within_connect1d (type : Connectivity) (mask : List String) (i x m : ℤ) :
    Within SameNames (connect1d type mask i x m : GenM V (List String) PUnit) := by
  refine within_bind (within_inspect _) fun cell => ?_
  split_ifs
  · exact within_pure _
  · exact within_bind within_get fun w => within_bind (within_inspect _) fun src =>
      within_bind (within_inspect _) fun dst => within_command _

/-- The names of the models of a line. -/
def names1d (params : Parameter) (length : ℤ) : List String :=
  (List.range length.toNat).map fun i : ℕ => name1d params i

section Line

variable (params : Parameter) {length : ℤ} {mask : List String} {x_mask : ℤ} {i m : ℕ}

theorem read_names1d (h0 : length ≤ intMax) {x : ℤ} (hx0 : 0 ≤ x) (hx : x < length) :
    Storage.read Failure.outOfRange (names1d params length) (toSize x) = .ok (name1d params x) := by
  rw [Storage.read_eq_ok, toSize_of_nonneg hx0 (by omega), names1d, List.getElem?_map,
    List.getElem?_range (by omega), Option.map_some, Int.toNat_of_nonneg hx0]

theorem element_run {α : Type} {l : List α} {i : ℤ} {v : α}
    (h : Storage.read Failure.outOfRange l (toSize i) = .ok v) (w : Work V ν) :
    element l i w = .ok v w := by
  rw [element, inspect, h]

/-- The cell of a mask. -/
theorem read_mask (hmask : mask.length ≤ intMax) (hm : m < mask.length) :
    Storage.read Failure.outOfRange mask (toSize m) = .ok (mask.getD m "") := by
  rw [Storage.read_eq_ok, toSize_of_nonneg (by omega) (by omega), Int.toNat_natCast,
    List.getElem?_eq_getElem hm, List.getD_eq_getElem _ _ hm]

/-- An empty cell connects nothing. -/
theorem connects_empty (hmask : mask.length ≤ intMax) (hm : m < mask.length)
    (hempty : mask.getD m "" = "") (type : Connectivity) (x y : ℤ) {N : List String} :
    Connects (V := V) E N (connect1d type mask x y m) [] := by
  intro w hw
  refine .inl ⟨w, ?_, hw, (List.append_nil _).symm⟩
  unfold connect1d
  rw [bind_run (element_run (read_mask hmask hm) w), if_pos hempty]
  rfl

/-- A model is connected to another one by a cell that is not empty. -/
theorem connects_connect1d (hlength : length ≤ intMax) (hmask : mask.length ≤ intMax) {x : ℤ}
    (hi : (i : ℤ) < length) (hx0 : 0 ≤ x) (hx : x < length) (hm : m < mask.length) :
    Connects (V := V) E (names1d params length) (connect1d params.type mask i x m)
      (if mask.getD m "" = "" then []
        else [connection params.type (name1d params i) (name1d params x) (mask.getD m "")]) := by
  by_cases hempty : mask.getD m "" = ""
  · rw [if_pos hempty]
    exact connects_empty hmask hm hempty _ _ _
  intro w hw
  have hsrc := read_names1d params hlength (Int.natCast_nonneg i) hi
  have hdst := read_names1d params hlength hx0 hx
  rw [← hw] at hsrc hdst
  refine .inl ?_
  unfold connect1d
  rw [bind_run (element_run (read_mask hmask hm) w), if_neg hempty, if_neg hempty,
    bind_run (get_run w), bind_run (element_run hsrc w), bind_run (element_run hdst w)]
  refine ⟨_, rfl, hw, ?_⟩
  rw [connections_append, connections_link]

/-- The round of the line that does not wrap makes the connections of a position. -/
theorem connects_round_noWrap (hfits : Fits1d length false mask x_mask)
    (hlt : x_mask < mask.length) (hi : (i : ℤ) < length) :
    Connects (V := V) E (names1d params length) (do
        let before ← int (i - x_mask)
        let next ← int (i + mask.length)
        let next ← int (next - x_mask)
        let mask_before ← int (x_mask - i)
        let i_min := max 0 before
        let i_max := min length next
        let x_mask_min := max 0 mask_before
        loop i_min x_mask_min i_max fun x m => connect1d params.type mask i x m)
      ((List.range mask.length).flatMap fun m =>
        neighbour1d params length false mask x_mask i m) := by
  obtain ⟨hsum, hsum', horigin⟩ := hfits
  rw [if_neg Bool.false_ne_true] at horigin
  have hmax : intMin = -intMax - 1 := by decide
  rw [int_of_bounds (by omega), pure_bind, int_of_bounds (by omega), pure_bind,
    int_of_bounds (by omega), pure_bind, int_of_bounds (by omega), pure_bind]
  refine connects_clipped horigin hlt (Int.natCast_nonneg i) hi hsum hsum' (fun m hm t ht => ?_)
    fun m hm ht => ?_
  · have hin : 0 ≤ t ∧ t < length := by
      unfold target at ht
      rw [if_neg Bool.false_ne_true] at ht
      split_ifs at ht with h
      cases ht
      exact h
    have hconnect := connects_connect1d (V := V) (E := E) params (by omega) (by omega) hi hin.1 hin.2 hm
    simpa only [neighbour1d, ht, Option.toList_some, List.map_singleton] using hconnect
  · simp only [neighbour1d, ht, Option.toList_none, List.map_nil, ite_self]

/-- The round of the line that wraps. -/
theorem connects_round_wrap (hfits : Fits1d length true mask x_mask)
    (hlt : x_mask < mask.length) (hi : (i : ℤ) < length) :
    Connects (V := V) E (names1d params length) (do
        let x_min ← int (i - x_mask)
        let x_max ← int (i + mask.length)
        let x_max ← int (x_max - x_mask)
        loop x_min 0 x_max fun x m => do
          let p ← wrapTo length x
          connect1d params.type mask i p m)
      ((List.range mask.length).flatMap fun m =>
        neighbour1d params length true mask x_mask i m) := by
  obtain ⟨hsum, hsum', horigin⟩ := hfits
  rw [if_pos rfl] at horigin
  have hmax : intMin = -intMax - 1 := by decide
  rw [int_of_bounds (by omega), pure_bind, int_of_bounds (by omega), pure_bind,
    int_of_bounds (by omega), pure_bind]
  refine connects_loop (by omega) (by omega) (by omega) fun m hm => ?_
  have hx : (i : ℤ) + (m - x_mask) = i - x_mask + m := by ring
  rw [zero_add]
  by_cases hempty : mask.getD m "" = ""
  · rw [show neighbour1d params length true mask x_mask i m = [] from if_pos hempty]
    rcases le_or_gt (-length) (i - x_mask + m) with hge | hfar
    · rw [wrapTo_of_le (by omega) (by omega) hge, pure_bind]
      exact connects_empty (by omega) hm hempty _ _ _
    · rw [wrapTo_of_lt (by omega) (by omega) hfar (by omega), pure_bind]
      exact connects_empty (by omega) hm hempty _ _ _
  · have hnear := horigin m hm hempty
    rw [wrapTo_of_le (by omega) (by omega) (by omega), pure_bind]
    have hconnect := connects_connect1d (V := V) (E := E) params (by omega) (by omega) hi
      (Int.emod_nonneg (i - x_mask + m) (by omega : length ≠ 0))
      (Int.emod_lt_of_pos (i - x_mask + m) (by omega : 0 < length)) hm
    simpa only [neighbour1d, target, if_true, hx, Option.toList_some, List.map_singleton]
      using hconnect

/-- The models of a line are created under their names. -/
theorem create1d_run (conditions : Conditions V) (h0 : 0 ≤ length) (hlength : length ≤ intMax)
    (w : Work V (List String)) : ∃ w', create1d conditions params length w = .ok ⟨⟩ w' ∧
      w'.modelnames = names1d params length ∧ connections w'.commands = connections w.commands := by
  have hround : ∀ (done : List ℕ) (k : ℕ) (todo : List ℕ) (s : Work V (List String)),
      List.range (length - 0).toNat = done ++ k :: todo →
      (s.modelnames = (done.map fun i : ℕ => name1d params i) ++
          List.replicate (length.toNat - done.length) "" ∧
        connections s.commands = connections w.commands) →
      ∃ s', (do
          let made := params.make_model ⟨0 + (k : ℤ), -1, -1⟩
          command [.createModelFromClass made.2 made.1 [] [] conditions]
          let w ← get
          let modelnames ← inspect fun _ =>
            Storage.write .outOfRange w.modelnames (toSize (0 + (k : ℤ))) made.1
          modify fun w => { w with modelnames := modelnames } : GenM V (List String) PUnit) s = .ok ⟨⟩ s' ∧
        s'.modelnames = ((done ++ [k]).map fun i : ℕ => name1d params i) ++
          List.replicate (length.toNat - (done ++ [k]).length) "" ∧
        connections s'.commands = connections w.commands := by
    rintro done k todo s hlist ⟨hnames, hcommands⟩
    obtain ⟨hk, hlt⟩ := eq_length_of_range hlist
    have hwrite : Storage.write Failure.outOfRange s.modelnames (toSize (0 + (k : ℤ)))
        (name1d params (0 + k)) = .ok (s.modelnames.set k (name1d params (0 + k))) := by
      rw [Storage.write_eq_ok, toSize_of_nonneg (by omega) (by omega), zero_add, Int.toNat_natCast,
        hnames]
      exact ⟨by simp; omega, rfl⟩
    have hassign : ∀ u : Work V (List String), inspect (fun _ => Storage.write Failure.outOfRange
        s.modelnames (toSize (0 + (k : ℤ))) (name1d params (0 + k))) u =
        .ok (s.modelnames.set k (name1d params (0 + k))) u := fun u =>
      inspect_eq_ok.mpr ⟨hwrite, rfl⟩
    refine ⟨_, (bind_run (modify_run _ s)).trans ((bind_run (get_run _)).trans
      ((bind_run (hassign _)).trans (modify_run _ _))), ?_, ?_⟩
    · obtain ⟨r, hr⟩ : ∃ r, length.toNat - done.length = r + 1 :=
        ⟨length.toNat - done.length - 1, by omega⟩
      simp only [hnames, hr, List.map_append, List.map_singleton, List.length_append,
        List.length_singleton, zero_add, show length.toNat - (done.length + 1) = r by omega]
      rw [hk, List.set_append_right _ _ (by simp), List.length_map, Nat.sub_self,
        List.replicate_succ, List.set_cons_zero, List.append_assoc, List.singleton_append]
    · rw [connections_append, hcommands]
      exact List.append_nil _
  unfold create1d
  rw [bind_run (modify_run _ w), loop, forNe_eq h0 hlength (by omega)]
  obtain ⟨w', hrun, hnames, hcommands⟩ := forM_total (I := fun done s =>
      s.modelnames = (done.map fun i : ℕ => name1d params i) ++
        List.replicate (length.toNat - done.length) "" ∧
      connections s.commands = connections w.commands) _ hround
    (s := { w with modelnames := List.replicate length.toNat "" }) ⟨by simp, rfl⟩
  refine ⟨w', hrun, ?_, hcommands⟩
  rw [hnames, names1d, Int.sub_zero, List.length_range, Nat.sub_self, List.replicate_zero,
    List.append_nil]

end Line

/-- The arguments are refused, or the models are created and connected. -/
theorem make1d_run (conditions : Conditions V) (params : Parameter) (length : ℤ) (wrap : Bool)
    (mask : List String) (x_mask : ℤ) (w : Work V (List String)) :
    (∃ w', make1d conditions params length wrap mask x_mask w = .error badModelParameters w') ∨
    (0 < length ∧ intMax < mask.length ∧
      make1d conditions params length wrap mask x_mask w = .error .numericCast w) ∨
    0 < length ∧ 0 < mask.length ∧ mask.length ≤ intMax ∧ x_mask < mask.length ∧
      make1d conditions params length wrap mask x_mask w =
        build1d conditions params length wrap mask x_mask w := by
  unfold make1d
  by_cases hbad : length ≤ 0 ∨ mask.length = 0
  · exact .inl ⟨w, by rw [if_pos hbad]; rfl⟩
  rw [if_neg hbad]
  by_cases hcast : (mask.length : ℤ) ≤ intMax
  · rw [numericCast_of_le hcast, pure_bind]
    by_cases hx : (mask.length : ℤ) ≤ x_mask
    · exact .inl ⟨w, by rw [if_pos hx]; rfl⟩
    · rw [if_neg hx]
      exact .inr (.inr ⟨by omega, by omega, hcast, by omega, rfl⟩)
  · refine .inr (.inl ⟨by omega, by omega, ?_⟩)
    rw [numericCast, if_neg hcast]
    rfl

section Line

variable {conditions : Conditions V} {params : Parameter} {length : ℤ} {wrap : Bool} {mask : List String}
  {x_mask : ℤ}

/-- The line is connected as it should when the sizes fit. -/
theorem connects_of_fits1d (h0 : 0 < length) (hpos : 0 < mask.length) (hcast : mask.length ≤ intMax) (hlt : x_mask < mask.length)
    (hfits : Fits1d length wrap mask x_mask) {w : Work V (List String)}
    (hnames : w.modelnames = names1d params length) : ∃ w',
      (if wrap then make1dWrap params.type length mask x_mask
        else make1dNoWrap params.type length mask x_mask) w = .ok ⟨⟩ w' ∧
      connections w'.commands = connections w.commands ++ graph1d params length wrap mask x_mask := by
  have hlength : length ≤ intMax := by
    have := hfits.1
    omega
  have hconnects : Connects (fun _ => False) (names1d params length)
      (if wrap then make1dWrap params.type length mask x_mask
        else make1dNoWrap params.type length mask x_mask : GenM V (List String) PUnit)
      (graph1d params length wrap mask x_mask) := by
    cases wrap with
    | false =>
      rw [if_neg Bool.false_ne_true, make1dNoWrap, numericCast_of_le hcast, pure_bind]
      exact connects_loop_zero h0.le hlength fun k hk => connects_round_noWrap params hfits hlt hk
    | true =>
      rw [if_pos rfl, make1dWrap, numericCast_of_le hcast, pure_bind]
      exact connects_loop_zero h0.le hlength fun k hk => connects_round_wrap params hfits hlt hk
  rcases hconnects w hnames with ⟨w', hrun, -, hcommands⟩ | ⟨_, _, _, ⟨⟩⟩
  exact ⟨w', hrun, hcommands⟩

/-- The line that does not wrap fits when the generator ends well. -/
theorem fits_of_noWrap (h0 : 0 < length) {w w' : Work V (List String)}
    (h : make1dNoWrap params.type length mask x_mask w = .ok ⟨⟩ w') :
    Fits1d length false mask x_mask := by
  obtain ⟨-, hloop⟩ := numericCast_bind_ok h
  obtain ⟨-, -, hforM⟩ := forNe_of_ok hloop
  -- the last position is the one that asks for the most
  obtain ⟨s₁, s₂, -, hround⟩ := forM_round (I := fun _ => True) (fun _ _ _ _ _ _ => trivial) trivial
    hforM (a := (length - 1).toNat) (List.mem_range.mpr (by omega))
  obtain ⟨-, h₁⟩ := int_bind_ok hround
  obtain ⟨hsum, h₂⟩ := int_bind_ok h₁
  obtain ⟨hnext, h₃⟩ := int_bind_ok h₂
  obtain ⟨-, h₄⟩ := int_bind_ok h₃
  obtain ⟨hle, -, -⟩ := forNe_of_ok h₄
  refine ⟨by omega, by omega, ?_⟩
  rw [if_neg Bool.false_ne_true]
  omega

/-- A position outside of the line is not that of a model. -/
theorem connect1d_not_ok (hlength : length ≤ intMax) (hmask : mask.length ≤ intMax) {m : ℕ}
    (hm : m < mask.length) (hcell : mask.getD m "" ≠ "") {x : ℤ} (hneg : x < 0) (hmin : intMin ≤ x)
    {w w' : Work V (List String)} (hnames : w.modelnames = names1d params length) (i : ℤ) :
    connect1d params.type mask i x m w ≠ .ok ⟨⟩ w' := by
  intro h
  unfold connect1d at h
  rw [bind_run (element_run (read_mask hmask hm) w), if_neg hcell, bind_run (get_run w)] at h
  obtain ⟨src, _, -, h⟩ := bind_eq_ok.mp h
  obtain ⟨dst, _, hdst, -⟩ := bind_eq_ok.mp h
  obtain ⟨hread, -⟩ := inspect_eq_ok.mp hdst
  rw [Storage.read_eq_ok, hnames] at hread
  obtain ⟨hlt, -⟩ := List.getElem?_eq_some_iff.mp hread
  rw [names1d, List.length_map, List.length_range] at hlt
  have := toSize_of_neg hneg hmin
  omega

/-- The line that wraps fits when the generator ends well. -/
theorem fits_of_wrap (h0 : 0 < length) {w w' : Work V (List String)}
    (hnames : w.modelnames = names1d params length)
    (h : make1dWrap params.type length mask x_mask w = .ok ⟨⟩ w') : Fits1d length true mask x_mask := by
  obtain ⟨hcast, hloop⟩ := numericCast_bind_ok h
  obtain ⟨-, hlength, hforM⟩ := forNe_of_ok hloop
  have hlength := hlength h0
  have hinner : ∀ (x m : ℤ) (i : ℤ), Within SameNames (do
      let p ← wrapTo length x
      connect1d params.type mask i p m : GenM V (List String) PUnit) := fun x m i =>
    within_bind (within_wrapTo _ _) fun _ => within_connect1d _ _ _ _ _
  have hrounds : ∀ i ∈ List.range (length - 0).toNat, ∃ s₁ s₂ : Work V (List String),
      s₁.modelnames = names1d params length ∧ (do
        let x_min ← int (0 + (i : ℤ) - x_mask)
        let x_max ← int (0 + (i : ℤ) + mask.length)
        let x_max ← int (x_max - x_mask)
        loop x_min 0 x_max fun x m => do
          let p ← wrapTo length x
          connect1d params.type mask (0 + (i : ℤ)) p m : GenM V (List String) PUnit) s₁ = .ok ⟨⟩ s₂ :=
    fun i hi => forM_round (I := fun s => s.modelnames = names1d params length)
      (fun k _ s s' hs hk => ((within_bind (within_int _) fun _ => within_bind (within_int _) fun _ =>
        within_bind (within_int _) fun _ => within_loop fun _ _ => hinner _ _ _) s _ s' hk).trans hs)
      hnames hforM hi
  have hsums : length - 1 + mask.length ≤ intMax ∧ length - 1 + mask.length - x_mask ≤ intMax := by
    obtain ⟨s₁, s₂, -, hround⟩ := hrounds (length - 1).toNat (List.mem_range.mpr (by omega))
    obtain ⟨-, h₁⟩ := int_bind_ok hround
    obtain ⟨hsum, h₂⟩ := int_bind_ok h₁
    obtain ⟨hnext, -⟩ := int_bind_ok h₂
    omega
  refine ⟨hsums.1, hsums.2, ?_⟩
  rw [if_pos rfl]
  intro m hm hcell
  by_contra hfar
  -- the first position is the farthest from the origin of the mask
  obtain ⟨s₁, s₂, hs₁, hround⟩ := hrounds 0 (List.mem_range.mpr (by omega))
  obtain ⟨hmin, h₁⟩ := int_bind_ok hround
  obtain ⟨-, h₂⟩ := int_bind_ok h₁
  obtain ⟨-, h₃⟩ := int_bind_ok h₂
  obtain ⟨-, -, hcells⟩ := forNe_of_ok h₃
  obtain ⟨t₁, t₂, ht₁, hconnect⟩ := forM_round (I := fun s => s.modelnames = names1d params length)
    (fun k _ s s' hs hk => (hinner _ _ _ s _ s' hk).trans hs) hs₁ hcells (a := m)
    (List.mem_range.mpr (by omega))
  rw [wrapTo_of_lt h0 hlength (by omega) (by omega), pure_bind, zero_add (m : ℤ)] at hconnect
  exact connect1d_not_ok hlength hcast hm hcell (by omega) (by unfold intMin intMax at *; omega) ht₁ _
    hconnect

/-- The line is connected as it should when its sizes fit. -/
theorem builds_of_fits1d (conditions : Conditions V) (params : Parameter) (h0 : 0 < length)
    (hpos : 0 < mask.length) (hlt : x_mask < mask.length)
    (hfits : Fits1d length wrap mask x_mask) :
    Builds1d conditions params length wrap mask x_mask := by
  have hsum := hfits.1
  have hcast : (mask.length : ℤ) ≤ intMax := by omega
  obtain ⟨w₁, hcreated, hnames, hcommands⟩ :=
    create1d_run params conditions h0.le (by omega) ⟨[], [], -1⟩
  obtain ⟨w₂, happly, hcommands₂⟩ := connects_of_fits1d h0 hpos hcast hlt hfits
    (w := { w₁ with vertices := length }) hnames
  refine ⟨w₂, ?_, ?_⟩
  · rw [make1d, if_neg (by omega), numericCast_of_le hcast, pure_bind, if_neg (by omega), build1d,
      bind_run hcreated, bind_run (modify_run _ w₁)]
    exact happly
  · rw [hcommands₂, hcommands]
    exact List.Perm.refl _

/-- The line is connected as it should exactly when its sizes fit, unless the arguments are refused. -/
theorem make_1d_iff (hargs : ∀ what w, make1d conditions params length wrap mask x_mask ⟨[], [], -1⟩ ≠
    .error (.argError what) w) :
    Builds1d conditions params length wrap mask x_mask ↔ Fits1d length wrap mask x_mask := by
  rcases make1d_run conditions params length wrap mask x_mask ⟨[], [], -1⟩ with
    ⟨w', hrun⟩ | ⟨h0, hlarge, hrun⟩ | ⟨h0, hpos, hcast, hlt, hrun⟩
  · exact absurd hrun (hargs _ w')
  · refine iff_of_false (fun h => ?_) fun h => ?_
    · obtain ⟨w, hok, -⟩ := h
      rw [hrun] at hok
      cases hok
    · have := h.1
      omega
  · constructor
    · rintro ⟨w, hok, -⟩
      rw [hrun] at hok
      obtain ⟨_, w₁, hcreate, hrest⟩ := bind_eq_ok.mp hok
      have hlength : length ≤ intMax := by
        obtain ⟨_, _, -, hloop⟩ := bind_eq_ok.mp hcreate
        exact (forNe_of_ok hloop).2.1 h0
      obtain ⟨w', hcreated, hnames, -⟩ := create1d_run params conditions h0.le hlength ⟨[], [], -1⟩
      rw [hcreated] at hcreate
      cases hcreate
      rw [bind_run (modify_run _ _)] at hrest
      cases wrap with
      | false => exact fits_of_noWrap h0 hrest
      | true => exact fits_of_wrap h0 (w := { w₁ with vertices := length }) hnames hrest
    · exact builds_of_fits1d conditions params h0 hpos hlt

end Line

end Vle.Translator
