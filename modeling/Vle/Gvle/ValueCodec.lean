import Vle.Gvle.ValueContainers
import Vle.Lib.Words

/-!
# The codec of values

The numbers of a table are the words of its text, and the cells of a matrix are its children, line after
line. Both make the round trip when their sizes are those of `int`; a matrix also needs its row step in
the attribute `rowstep`, which is not the one that it is written to.
-/

namespace Vle.Gvle

open Lib Lib.Storage

variable {D : Type}

/-! ## Tables -/

section Table

/-- A text that starts and ends with no blank is not trimmed. -/
theorem trim_eq_self {s : List Char} (hhead : ∀ c ∈ s.head?, isBlank c = false)
    (hlast : ∀ c ∈ s.getLast?, isBlank c = false) : trim s = s := by
  have hdrop : s.dropWhile isBlank = s := by
    cases s with
    | nil => rfl
    | cons c s => rw [List.dropWhile_cons_of_neg (by simp [hhead c rfl])]
  rw [trim, hdrop, List.rdropWhile_eq_self_iff]
  intro hne
  simp [hlast _ (List.getLast?_eq_getLast_of_ne_nil hne)]

/-- The words of a text are found again. -/
theorem fillWords_intercalate {ws : List (List Char)} (hne : ws ≠ []) (hws : ∀ w ∈ ws, w ≠ [])
    (hplain : ∀ w ∈ ws, ∀ c ∈ w, isBlank c = false) :
    fillWords ((" " : String).toList.intercalate ws) = ws := by
  have hblank : ∀ {c : Char}, isBlank c = false → decide (c ∈ [' ', '\n', '\t', '\r']) = false := by
    intro c hc
    rw [decide_eq_false_iff_not]
    intro hmem
    have hblank : isBlank c = true := decide_eq_true (List.mem_append_left ['\x0b', '\x0c'] hmem)
    rw [hc] at hblank
    cases hblank
  have htrim : trim ((" " : String).toList.intercalate ws) = (" " : String).toList.intercalate ws := by
    refine trim_eq_self (fun c hc => ?_) fun c hc => ?_
    · obtain ⟨w, hw, hcw⟩ := Words.mem_head_intercalate hws hc
      exact hplain w hw c hcw
    · obtain ⟨w, hw, hcw⟩ := Words.mem_getLast_intercalate hws hc
      exact hplain w hw c hcw
  have hsplit := Words.splitOnP_intercalate (p := fun c => decide (c ∈ [' ', '\n', '\t', '\r']))
    (x := ' ') (by decide) hne fun w hw c hc => hblank (hplain w hw c hc)
  have htrims : ws.map trim = ws := by
    refine (List.map_congr_left fun w hw => ?_).trans (List.map_id ws)
    exact trim_eq_self (fun c hc => hplain w hw c (List.mem_of_mem_head? hc))
      fun c hc => hplain w hw c (List.mem_of_mem_getLast? hc)
  have hlist : (" " : String).toList = [' '] := rfl
  rw [fillWords, htrim, hlist, hsplit, htrims, List.filter_eq_self]
  intro w hw
  simpa using hws w hw

/-- A text without brackets, and blanks for commas. -/
def clean (s : List Char) : List Char :=
  (s.filter (· ∉ ['(', ')'])).map fun c => if c = ',' then ' ' else c

theorem clean_append (s t : List Char) : clean (s ++ t) = clean s ++ clean t := by
  rw [clean, List.filter_append, List.map_append]
  rfl

theorem clean_eq_self {s : List Char} (h : ∀ c ∈ s, c ∉ ['(', ')', ',']) : clean s = s := by
  have hfilter : s.filter (· ∉ ['(', ')']) = s := by
    rw [List.filter_eq_self]
    intro c hc
    have := h c hc
    simp only [List.mem_cons, List.not_mem_nil, or_false, not_or] at this
    simp [this.1, this.2.1]
  rw [clean, hfilter]
  refine (List.map_congr_left fun c hc => ?_).trans (List.map_id s)
  have := h c hc
  simp only [List.mem_cons, List.not_mem_nil, or_false, not_or] at this
  rw [if_neg this.2.2]
  rfl

variable {T : DoubleTexts D} {width height : ℕ} {t : List D}

/-- A number of a table that has all its cells. -/
theorem get_table (hlen : t.length = width * height) (hsmall : t.length ≤ maxSize) {i j : ℕ}
    (hi : i < width) (hj : j < height) [Zero D] :
    (⟨t, width, height⟩ : Table D).get i j = .ok (t.getD (j * width + i) 0) := by
  have hlt : j * width + i < t.length := by
    rw [hlen, Nat.mul_comm width]
    exact Grid.flat_lt hi hj
  have hplace : (⟨t, width, height⟩ : Table D).place i j = j * width + i :=
    Grid.place_of_lt (lt_of_lt_of_le hlt (hsmall.trans Matrix.maxSize_lt.le))
  rw [Table.get, Table.checkPlace, hplace]
  simp only [if_neg (not_lt.2 hlt.le), Except.ok_bind]
  rw [read_eq_ok, List.getD_eq_getElem?_getD, List.getElem?_eq_getElem hlt, Option.getD_some]

/-- The text of a table is that of its numbers with blanks between them. -/
theorem tableText_eq [Zero D] (hlen : t.length = width * height) (hne : t ≠ [])
    (hsmall : t.length ≤ maxSize) (ht : ∀ d ∈ t, T.Exact d) :
    tableText T ⟨t, width, height⟩ =
      .ok ((" " : String).toList.intercalate (t.map fun d => (T.writeCell d).toList)) := by
  have hpos : 0 < width * height := by
    rw [← hlen]
    exact List.length_pos_iff.2 hne
  have hwidth : 0 < width := Nat.pos_of_mul_pos_right hpos
  let line : ℕ → List D := fun j => (List.range width).map fun i => t.getD (j * width + i) 0
  have hlines : ((List.range height).mapM fun j => (List.range width).mapM fun i =>
      (⟨t, width, height⟩ : Table D).get i j) = .ok ((List.range height).map line) :=
    Except.mapM_eq_ok fun j hj => Except.mapM_eq_ok fun i hi =>
      get_table hlen hsmall (List.mem_range.1 hi) (List.mem_range.1 hj)
  have hflat : ((List.range height).map line).flatten = t := by
    have hrange := congrArg (List.map fun k => t.getD k 0) (Grid.flat_range width height)
    rw [List.map_flatMap, Nat.mul_comm height, ← hlen] at hrange
    simp only [List.map_map, Function.comp_def] at hrange
    rw [← List.flatMap_def, hrange]
    refine List.ext_getElem (by simp) fun k h₁ h₂ => ?_
    simp [List.getElem?_eq_getElem h₂]
  rw [tableText, hlines]
  simp only [Except.ok_bind, Except.pure_eq, Except.ok.injEq]
  change clean _ = _
  simp only [String.toList_append, String.toList_intercalate, List.map_map]
  rw [clean_append, clean_append, Words.map_intercalate clean_append]
  have hopen : clean ("(" : String).toList = [] := by decide
  have hclose : clean (")" : String).toList = [] := by decide
  have hcomma : clean ("," : String).toList = (" " : String).toList := by decide
  rw [hopen, hclose, hcomma, List.nil_append, List.append_nil]
  have hline : ∀ j ∈ List.range height, (clean ∘ String.toList ∘ (fun l : List D =>
      "(" ++ ",".intercalate (l.map T.writeCell) ++ ")") ∘ line) j =
      ((" " : String).toList.intercalate ∘ fun j => (line j).map fun d => (T.writeCell d).toList) j := by
    intro j hj
    simp only [Function.comp_apply, String.toList_append, String.toList_intercalate, List.map_map]
    rw [clean_append, clean_append, Words.map_intercalate clean_append, hopen, hclose, hcomma,
      List.nil_append, List.append_nil, List.map_map]
    congr 1
    refine List.map_congr_left fun d hd => ?_
    have hmem : d ∈ t := by
      rw [← hflat]
      exact List.mem_flatten.2 ⟨line j, List.mem_map_of_mem hj, hd⟩
    exact clean_eq_self fun c hc => ((ht d hmem).plain c hc).2
  rw [List.map_map, List.map_congr_left hline, ← List.map_map, Words.intercalate_flatten]
  · conv_rhs => rw [← hflat, List.map_flatten, List.map_map]
    rfl
  · intro l hl
    obtain ⟨j, -, rfl⟩ := List.mem_map.1 hl
    simp [line, hwidth.ne']

/-- The numbers of a text fill a table from a place on. -/
theorem fillFrom_eq {number : List Char → Option D} {words : List (List Char)} {ds : List D}
    (hwords : words.map number = ds.map some) (hds : ds ≠ []) {i j : ℕ} (hi : i < width)
    (hj : j < height) (hend : j * width + i + ds.length = width * height)
    (hlen : t.length = width * height) (hsmall : t.length ≤ maxSize) :
    Table.fillFrom number words i j ⟨t, width, height⟩ =
      .ok () ⟨t.take (j * width + i) ++ ds, width, height⟩ := by
  induction words generalizing ds i j t with
  | nil =>
    obtain rfl := List.map_eq_nil_iff.1 hwords.symm
    exact absurd rfl hds
  | cons word words ih =>
    cases ds with
    | nil => cases hwords
    | cons d ds =>
      obtain ⟨hd, hrest⟩ := List.cons.inj hwords
      rw [List.length_cons] at hend
      have hlt : j * width + i < t.length := by omega
      have hplace : (⟨t, width, height⟩ : Table D).place i j = j * width + i :=
        Grid.place_of_lt (lt_of_lt_of_le hlt (hsmall.trans Matrix.maxSize_lt.le))
      have hassign : (⟨t, width, height⟩ : Table D).assign i j d =
          .ok ⟨t.set (j * width + i) d, width, height⟩ := by
        rw [Table.assign, Table.checkPlace, hplace]
        simp only [if_neg (not_lt.2 hlt.le), Except.ok_bind]
        rw [write_eq_ok.2 ⟨hlt, rfl⟩]
        rfl
      have htake : (t.set (j * width + i) d).take (j * width + i + 1) = t.take (j * width + i) ++ [d] := by
        rw [List.take_succ_eq_append_getElem (by rwa [List.length_set]), List.getElem_set_self,
          List.take_set_of_le le_rfl]
      have hlen' : (t.set (j * width + i) d).length = width * height := by rw [List.length_set, hlen]
      rw [Table.fillFrom, hd]
      simp only [hassign]
      -- The last number is in the last column of the last row.
      have hrow : j + 1 < height → (j + 1) * width + width ≤ width * height := by
        intro hj'
        have := Nat.mul_le_mul_right width hj'
        rwa [Nat.succ_mul, Nat.mul_comm height] at this
      have hnext : (j + 1) * width = j * width + width := Nat.succ_mul j width
      have hlast : j + 1 = height → width * height = j * width + width := by
        rintro rfl
        rw [Nat.mul_comm, hnext]
      cases ds with
      | nil =>
        rw [List.length_nil] at hend
        have hjlast : height ≤ j + 1 := by
          by_contra hlt'
          have := hrow (not_le.1 hlt')
          omega
        have hilast : width ≤ i + 1 := by
          have := hlast (by omega)
          omega
        rw [if_pos hilast, if_pos hjlast, ← htake, List.take_of_length_le (by rw [hlen']; omega)]
      | cons d' ds =>
        have happend : (t.set (j * width + i) d).take (j * width + i + 1) ++ d' :: ds =
            t.take (j * width + i) ++ d :: d' :: ds := by
          rw [htake, List.append_assoc, List.singleton_append]
        rw [List.length_cons] at hend
        split_ifs with hilast hjlast
        · have := hlast (by omega)
          omega
        · have hstep := ih (i := 0) hrest (List.cons_ne_nil _ _) (by omega) (not_le.1 hjlast)
            (by rw [List.length_cons]; omega) hlen' (by rwa [List.length_set])
          rw [hstep, ← happend]
          have hnextplace : (j + 1) * width + 0 = j * width + i + 1 := by omega
          rw [hnextplace]
        · have hstep := ih hrest (List.cons_ne_nil _ _) (not_le.1 hilast) hj
            (by rw [List.length_cons]; omega) hlen' (by rwa [List.length_set])
          rw [hstep, ← happend]
          rfl

/-- Filling keeps the dimensions of a table. -/
theorem dims_of_fillFrom {number : List Char → Option D} {words : List (List Char)} {i j : ℕ}
    {t t' : Table D} (h : Table.fillFrom number words i j t = .ok () t') :
    t'.width = t.width ∧ t'.height = t.height := by
  induction words generalizing i j t with
  | nil =>
    cases h
    exact ⟨rfl, rfl⟩
  | cons word words ih =>
    rw [Table.fillFrom] at h
    cases hnumber : number word with
    | none =>
      rw [hnumber] at h
      cases h
    | some d =>
      rw [hnumber] at h
      dsimp only at h
      cases hassign : t.assign i j d with
      | error e =>
        rw [hassign] at h
        cases h
      | ok t₁ =>
        rw [hassign] at h
        have hdims : t₁.width = t.width ∧ t₁.height = t.height := by
          obtain ⟨_, -, hrun⟩ := Except.bind_eq_ok.mp hassign
          obtain ⟨s, -, hrun⟩ := Except.bind_eq_ok.mp hrun
          cases hrun
          exact ⟨rfl, rfl⟩
        rw [← hdims.1, ← hdims.2]
        dsimp only at h
        split_ifs at h
        · cases h
          exact ⟨rfl, rfl⟩
        · exact ih h
        · exact ih h

/-- A size that goes through `int` and back is the same exactly when it is that of an `int`. -/
theorem toSize_bmod_iff {n : ℕ} (h : n ≤ maxSize) : toSize (Int.bmod n (2 ^ 32)) = n ↔ n < 2 ^ 31 := by
  unfold toSize Int.bmod
  unfold maxSize at h
  norm_num
  split_ifs <;> omega

theorem bmod_int (n : ℤ) : -2 ^ 31 ≤ Int.bmod n (2 ^ 32) ∧ Int.bmod n (2 ^ 32) < 2 ^ 31 := by
  unfold Int.bmod
  norm_num
  split_ifs <;> omega

variable [Zero D] {buildText : Bool}

/-- A table is read again exactly when its sizes are those of `int`. -/
theorem roundTrip_table_iff (hlen : t.length = width * height) (hne : t ≠ [])
    (hsmall : t.length ≤ maxSize) (ht : ∀ d ∈ t, T.Exact d) {node : Content}
    (h : Holds (.table width height t : Value D) node) :
    RoundTrip T buildText (.table width height t) node ↔ width < 2 ^ 31 ∧ height < 2 ^ 31 := by
  have hname : node.label.nodeName = "table" := (Option.some.inj h.tag).symm
  have hpos : 0 < width * height := by
    rw [← hlen]
    exact List.length_pos_iff.2 hne
  have hwidth : width ≤ maxSize :=
    (Nat.le_mul_of_pos_right _ (Nat.pos_of_mul_pos_left hpos)).trans (hlen ▸ hsmall)
  have hheight : height ≤ maxSize :=
    (Nat.le_mul_of_pos_left _ (Nat.pos_of_mul_pos_right hpos)).trans (hlen ▸ hsmall)
  rw [← toSize_bmod_iff hwidth, ← toSize_bmod_iff hheight]
  generalize hlabel : setAttributeValue (setAttributeValue node.label "width"
    (toString (Int.bmod width (2 ^ 32)))) "height" (toString (Int.bmod height (2 ^ 32))) = label
  have hw : toInt (attributeValue label "width") = Int.bmod width (2 ^ 32) := by
    rw [← hlabel, attributeValue_set, if_neg (by decide), attributeValue_set, if_pos rfl,
      toInt_toString (bmod_int _)]
  have hh : toInt (attributeValue label "height") = Int.bmod height (2 ^ 32) := by
    rw [← hlabel, attributeValue_set, if_pos rfl, toInt_toString (bmod_int _)]
  have hlabelName : label.nodeName = "table" := by rw [← hlabel, nodeName_set, nodeName_set, hname]
  obtain ⟨tx, htx, htext⟩ := fillText_holds
    (String.ofList ((" " : String).toList.intercalate (t.map fun d => (T.writeCell d).toList)))
    (show (Rose.node label node.children).label.nodeName = "table" from hlabelName) (h.text rfl)
  have hfill : fillWithValue T (.table width height t) node = .ok (true, .node label [tx]) := by
    simp only [fillWithValue, hname, ne_eq, not_true_eq_false, if_false, hlabel,
      tableText_eq hlen hne hsmall ht, Except.ok_bind, Except.pure_eq, htx]
    rfl
  have hbuild : buildValue T buildText (.node label [tx]) = buildTable T label [tx] := by
    simp [buildValue, hlabelName]
  have hwords : fillWords (firstText [tx]).toList = t.map fun d => (T.writeCell d).toList := by
    rw [htext, String.toList_ofList]
    refine fillWords_intercalate (by simpa using hne) ?_ ?_
    · intro w hw
      obtain ⟨d, hd, rfl⟩ := List.mem_map.1 hw
      exact (ht d hd).nonempty
    · intro w hw c hc
      obtain ⟨d, hd, rfl⟩ := List.mem_map.1 hw
      exact ((ht d hd).plain c hc).1
  rw [RoundTrip, hfill]
  simp only [buildTable, List.length_singleton, ne_eq, not_true_eq_false, if_false, hw, hh] at hbuild
  constructor
  · rintro ⟨node', hnode', hread⟩
    cases hnode'
    rw [hbuild] at hread
    obtain ⟨t₀, hsize, hread⟩ := Except.bind_eq_ok.mp hread
    obtain ⟨value, -, hsize⟩ := Except.bind_eq_ok.mp hsize
    split_ifs at hsize
    cases hsize
    cases hrun : Table.fill T.lexicalCast (firstText [tx]).toList
        ⟨value, toSize (Int.bmod width (2 ^ 32)), toSize (Int.bmod height (2 ^ 32))⟩ with
    | error e t' =>
      rw [hrun] at hread
      cases hread
    | ok a t' =>
      rw [hrun] at hread
      obtain ⟨hw', hh'⟩ := dims_of_fillFrom hrun
      simp only [Value.seen, Except.pure_eq, Except.ok.injEq, Option.some.injEq, Value.table.injEq]
        at hread
      dsimp only at hw' hh'
      rw [← hw', ← hh']
      exact ⟨hread.1, hread.2.1⟩
  · rintro ⟨hw', hh'⟩
    refine ⟨_, rfl, ?_⟩
    rw [hbuild, hw', hh']
    have hmod : width * height % sizeT = width * height :=
      Nat.mod_eq_of_lt (lt_of_le_of_lt (hlen ▸ hsmall) Matrix.maxSize_lt)
    have hroom : width * height ≤ maxSize := hlen ▸ hsmall
    have hsize : Table.ofSize maxSize width height =
        .ok (⟨List.replicate (width * height) 0, width, height⟩ : Table D) := by
      rw [Table.ofSize, hmod, (numbers_eq_ok (d := (0 : D))).2 ⟨le_min hroom hroom, rfl⟩, Except.ok_bind,
        if_neg hpos.ne']
    have hnumbers : (t.map fun d => (T.writeCell d).toList).map T.lexicalCast = t.map some := by
      rw [List.map_map]
      exact List.map_congr_left fun d hd => (ht d hd).cell
    have hrun : Table.fill T.lexicalCast (firstText [tx]).toList
        ⟨List.replicate (width * height) 0, width, height⟩ = .ok () ⟨t, width, height⟩ := by
      rw [Table.fill, hwords, fillFrom_eq hnumbers hne (Nat.pos_of_mul_pos_right hpos)
        (Nat.pos_of_mul_pos_left hpos) (by omega) List.length_replicate
        (by rwa [List.length_replicate])]
      simp
    rw [hsize, Except.ok_bind, hrun]
    rfl

end Table

/-! ## Matrices -/

section Matrix

/-- Where a loop over the cells of a matrix stands when it meets a cell. -/
theorem getElem?_cells {columns rows : ℕ} {p : ℕ × ℕ}
    (hp : p ∈ Matrix.cells (List.range rows) (List.range columns)) :
    (Matrix.cells (List.range rows) (List.range columns))[p.1 + p.2 * columns]? = some p := by
  have hrange : (Matrix.cells (List.range rows) (List.range columns)).map
      (fun p => p.2 * columns + p.1) = List.range (rows * columns) := by
    rw [Matrix.cells, List.map_flatMap, ← Grid.flat_range]
    simp only [List.map_map, Function.comp_def]
  obtain ⟨k, hk⟩ := List.mem_iff_getElem?.1 hp
  have hplace := congrArg (fun l : List ℕ => l[k]?) hrange
  have hlt : k < rows * columns := by
    have := (List.getElem?_eq_some_iff.1 hk).1
    rwa [← List.length_map (fun p : ℕ × ℕ => p.2 * columns + p.1), hrange, List.length_range] at this
  simp only [List.getElem?_map, hk, Option.map_some, List.getElem?_range hlt, Option.some.injEq] at hplace
  rw [Nat.add_comm, hplace, hk]

theorem length_cells (columns rows : ℕ) :
    (Matrix.cells (List.range rows) (List.range columns)).length = columns * rows := by
  simp [Matrix.cells, List.length_flatMap, Nat.mul_comm]

variable {T : DoubleTexts D} {size : MatrixSize} {cells : List (Option (Value D))}

/-- The sizes are written when they are those of `int`. -/
theorem matrixAttributes_iff {node label : NodeData} :
    matrixAttributes size node = .ok label ↔
      (size.columns < 2 ^ 31 ∧ size.rows < 2 ^ 31 ∧ size.columnsMax < 2 ^ 31 ∧ size.rowsMax < 2 ^ 31 ∧
        size.stepColumns < 2 ^ 31 ∧ size.stepRows < 2 ^ 31) ∧
      label = [("columns", (size.columns : ℤ)), ("rows", (size.rows : ℤ)),
        ("columnmax", (size.columnsMax : ℤ)), ("rowmax", (size.rowsMax : ℤ)),
        ("columnstep", (size.stepColumns : ℤ)), ("rowsstep", (size.stepRows : ℤ))].foldl
          (fun node a => setAttributeValue node a.1 (toString a.2)) node := by
  have hcast : ∀ (n : ℕ) (x : ℤ), numericCast n = .ok x ↔ n < 2 ^ 31 ∧ x = n := by
    intro n x
    unfold numericCast
    split_ifs with h
    · simp only [h, true_and, Except.ok.injEq]
      exact eq_comm
    · simp only [h, false_and]
  simp only [matrixAttributes, Except.bind_eq_ok, hcast, Except.pure_eq, Except.ok.injEq]
  constructor
  · rintro ⟨_, ⟨h₁, rfl⟩, _, ⟨h₂, rfl⟩, _, ⟨h₃, rfl⟩, _, ⟨h₄, rfl⟩, _, ⟨h₅, rfl⟩, _, ⟨h₆, rfl⟩, rfl⟩
    exact ⟨⟨h₁, h₂, h₃, h₄, h₅, h₆⟩, rfl⟩
  · rintro ⟨⟨h₁, h₂, h₃, h₄, h₅, h₆⟩, rfl⟩
    exact ⟨_, ⟨h₁, rfl⟩, _, ⟨h₂, rfl⟩, _, ⟨h₃, rfl⟩, _, ⟨h₄, rfl⟩, _, ⟨h₅, rfl⟩, _, ⟨h₆, rfl⟩, rfl⟩

/-- A number is an `int`. -/
theorem toInt_range (str : String) : -2 ^ 31 ≤ toInt str ∧ toInt str < 2 ^ 31 := by
  unfold toInt
  cases decimal str.toList with
  | none => norm_num
  | some n =>
    dsimp only
    split_ifs with h
    · exact h.2
    · norm_num

theorem toSize_natCast {n : ℕ} (h : n < 2 ^ 31) : toSize n = n := by
  unfold toSize
  omega

/-- An `int` is a size when it is that size. -/
theorem toSize_eq_iff {n : ℕ} {x : ℤ} (hn : n < 2 ^ 31) (hx : -2 ^ 31 ≤ x ∧ x < 2 ^ 31) :
    toSize x = n ↔ (n : ℤ) = x := by
  unfold toSize
  omega

/-- What a turn is read as, and nothing when that fails. -/
def got (e : Except Fault (Option (Value D))) : Option (Value D) :=
  match e with
  | .ok p => p
  | .error _ => none

/-- The loop that reads the cells of a matrix writes them into its buffer. -/
theorem foldlM_set {chs : List (Except Fault (Option (Value D)))} {columns : ℕ}
    {g : ℕ × ℕ → Except Fault (Option (Value D))} {l : List (ℕ × ℕ)} {m m' : Matrix (Value D)}
    (hread : ∀ p ∈ l, chs[p.1 + p.2 * columns]? = some (g p))
    (hcheck : ∀ p ∈ l, p.1 < m.nbcol ∧ p.2 ≤ m.nbrow) :
    l.foldlM (fun mat p => do
      let child ← Storage.read Fault.outOfRange chs (p.1 + p.2 * columns)
      let v ← child
      mat.set p.1 p.2 v) m = .ok m' ↔
    (∀ p ∈ l, ∃ v, g p = .ok v) ∧ ∃ s, writeAll Fault.outOfRange
      (l.map fun p => (Matrix.position m.nbcolmax p.1 p.2, got (g p))) m.matrix = .ok s ∧
      m' = { m with matrix := s } := by
  induction l generalizing m with
  | nil =>
    constructor
    · intro h
      cases h
      exact ⟨fun p hp => absurd hp List.not_mem_nil, _, rfl, rfl⟩
    · rintro ⟨-, s, hs, rfl⟩
      cases hs
      rfl
  | cons p l ih =>
    rw [List.forall_mem_cons] at hread hcheck
    rw [List.foldlM_cons, read_eq_ok.2 hread.1, List.forall_mem_cons, List.map_cons, writeAll_cons]
    simp only [Except.ok_bind]
    cases hp : g p with
    | error e => simp
    | ok v =>
      have hset : m.set p.1 p.2 v = (write .outOfRange m.matrix (Matrix.position m.nbcolmax p.1 p.2) v
          >>= fun s => .ok { m with matrix := s }) := by
        rw [Matrix.set, Matrix.checkIndex, if_pos hcheck.1, Except.ok_bind]
        rfl
      simp only [Except.ok_bind, hset, got, Except.ok.injEq, exists_eq', true_and]
      cases hw : write Fault.outOfRange m.matrix (Matrix.position m.nbcolmax p.1 p.2) v with
      | error e => simp
      | ok s =>
        simp only [Except.ok_bind]
        exact ih hread.2 hcheck.2

/-- A product of sizes is an `int`. -/
theorem intMul_iff {m n : ℕ} {x : ℤ} : intMul m n = .ok x ↔ m * n < 2 ^ 31 ∧ x = (m * n : ℕ) := by
  have hcast : ((m * n : ℕ) : ℤ) = (m : ℤ) * n := Nat.cast_mul m n
  unfold intMul
  rw [← hcast]
  split_ifs with h
  · have hlt : m * n < 2 ^ 31 := by omega
    simp only [hlt, true_and, Except.ok.injEq]
    exact eq_comm
  · have hlt : ¬ m * n < 2 ^ 31 := by omega
    simp only [hlt, false_and]

/-- The pointer of a cell. -/
def pointer (size : MatrixSize) (cells : List (Option (Value D))) (p : ℕ × ℕ) : Option (Value D) :=
  (cells[Matrix.position size.columnsMax p.1 p.2]?).getD none

/-- The nodes made for the cells of a matrix are those made for the pointers of its cells. -/
theorem fillCells_iff (hcells : ∀ c r, c < size.columns → r < size.rows →
      ∃ v, cells[Matrix.position size.columnsMax c r]? = some (some v)) {cs : List (Option Content)} :
    ((Matrix.cells (List.range size.rows) (List.range size.columns)).mapM fun p => do
      let c ← Storage.read Fault.outOfRange (fillEach T cells) (Matrix.position size.columnsMax p.1 p.2)
      c) = .ok cs ↔
    ((Matrix.cells (List.range size.rows) (List.range size.columns)).map (pointer size cells)).map
      (fillPointer T) = cs.map .ok := by
  rw [Except.mapM_iff, List.map_map]
  refine Eq.congr_left (List.map_congr_left fun p hp => ?_)
  obtain ⟨c, r⟩ := p
  obtain ⟨hr, hc⟩ := Matrix.mem_cells.1 hp
  obtain ⟨v, hv⟩ := hcells c r (List.mem_range.1 hc) (List.mem_range.1 hr)
  have hread : Storage.read Fault.outOfRange (fillEach T cells)
      (Matrix.position size.columnsMax c r) = .ok (fillPointer T (some v)) := by
    rw [read_eq_ok, fillEach_eq, List.getElem?_map, hv]
    rfl
  simp only [hread, Except.ok_bind, Function.comp_apply, pointer, hv, Option.getD_some]

/-- A matrix that was made for sizes and capacities. -/
theorem ofCapacities_iff {columns rows columnmax rowmax stepcol steprow : ℕ} {m : Matrix (Value D)}
    (hsmall : columnmax * rowmax ≤ maxSize) :
    Matrix.ofCapacities maxSize columns rows columnmax rowmax stepcol steprow = .ok m ↔
      0 < columnmax * rowmax ∧ columns ≤ columnmax ∧ rows ≤ rowmax ∧
      m = ⟨List.replicate (columnmax * rowmax) none, columns, rows, columnmax, rowmax, stepcol, steprow,
        0, 0⟩ := by
  have hmod : columnmax * rowmax % sizeT = columnmax * rowmax :=
    Nat.mod_eq_of_lt (lt_of_le_of_lt hsmall Matrix.maxSize_lt)
  rw [Matrix.ofCapacities, hmod, Matrix.allocate_eq_ok.2 ⟨le_min hsmall hsmall, rfl⟩, Except.ok_bind]
  split_ifs with hzero hcolumns hrows
  · simp [hzero]
  · simp only [false_iff]
    rintro ⟨-, h, -⟩
    omega
  · simp only [false_iff]
    rintro ⟨-, -, h, -⟩
    omega
  · simp only [Except.ok.injEq, Nat.pos_of_ne_zero hzero, not_lt.1 hcolumns, not_lt.1 hrows, true_and]
    exact eq_comm

/-- The place of a cell within the capacities. -/
theorem position_of_fits (hsize : Fits size) (hsmall : size.columnsMax * size.rowsMax ≤ maxSize)
    {c r : ℕ} (hc : c < size.columns) (hr : r < size.rows) :
    Matrix.position size.columnsMax c r = r * size.columnsMax + c ∧
      r * size.columnsMax + c < size.columnsMax * size.rowsMax := by
  have hlt := Matrix.place_lt (lt_of_lt_of_le hc hsize.columns) (lt_of_lt_of_le hr hsize.rows)
  exact ⟨Matrix.position_eq (hlt.le.trans hsmall), hlt⟩

/-- The cells of a buffer that is shown. -/
theorem getElem?_shown (size : MatrixSize) (cells : List (Option (Value D))) (k : ℕ) :
    (Value.shown size (Value.seenEach cells))[k]? = cells[k]?.map fun p =>
      if k % size.columnsMax < size.columns ∧ k / size.columnsMax < size.rows then p.map Value.seen
      else none := by
  rw [Value.shown, List.getElem?_mapIdx, Value.seenEach_eq, List.getElem?_map, Option.map_map]
  rfl

/-- The buffer that the cells are written into is what is shown exactly when the values written are those
seen. -/
theorem writeAll_shown_iff (hsize : Fits size) (hlen : cells.length = size.columnsMax * size.rowsMax)
    (hsmall : size.columnsMax * size.rowsMax ≤ maxSize)
    (hcells : ∀ c r, c < size.columns → r < size.rows →
      ∃ v, cells[Matrix.position size.columnsMax c r]? = some (some v))
    {w : ℕ × ℕ → Option (Value D)} {s : List (Option (Value D))}
    (hs : writeAll Fault.outOfRange
      ((Matrix.cells (List.range size.rows) (List.range size.columns)).map
        fun p => (Matrix.position size.columnsMax p.1 p.2, w p))
      (List.replicate (size.columnsMax * size.rowsMax) none) = .ok s) :
    s = Value.shown size (Value.seenEach cells) ↔
      ∀ p ∈ Matrix.cells (List.range size.rows) (List.range size.columns),
        w p = (pointer size cells p).map Value.seen := by
  -- What is written at the place of a cell, and what is shown there.
  have hcell : ∀ c r, c < size.columns → r < size.rows →
      s[r * size.columnsMax + c]? = some (w (c, r)) ∧
        (Value.shown size (Value.seenEach cells))[r * size.columnsMax + c]? =
          some ((pointer size cells (c, r)).map Value.seen) := by
    intro c r hc hr
    obtain ⟨hpos, -⟩ := position_of_fits hsize hsmall hc hr
    have hc' : c < size.columnsMax := lt_of_lt_of_le hc hsize.columns
    constructor
    · refine writeAll_const hs ?_ ⟨_, List.mem_map_of_mem (Matrix.mem_cells.2
        ⟨List.mem_range.2 hr, List.mem_range.2 hc⟩), hpos⟩
      intro q hq hplace
      obtain ⟨⟨c', r'⟩, hmem, rfl⟩ := List.mem_map.1 hq
      obtain ⟨hr', hc''⟩ := Matrix.mem_cells.1 hmem
      rw [List.mem_range] at hr' hc''
      dsimp only at hplace ⊢
      rw [(position_of_fits hsize hsmall hc'' hr').1] at hplace
      obtain ⟨rfl, rfl⟩ := Grid.flat_inj (lt_of_lt_of_le hc'' hsize.columns) hc' hplace
      rfl
    · obtain ⟨v, hv⟩ := hcells c r hc hr
      have hmod : (r * size.columnsMax + c) % size.columnsMax = c := Nat.mul_add_mod_of_lt hc'
      have hdiv : (r * size.columnsMax + c) / size.columnsMax = r := by
        rw [Nat.mul_comm, Nat.mul_add_div (by omega), Nat.div_eq_of_lt hc', Nat.add_zero]
      rw [getElem?_shown, hmod, hdiv, pointer]
      simp only [hpos] at hv ⊢
      simp [hv, hc, hr]
  constructor
  · rintro rfl ⟨c, r⟩ hp
    obtain ⟨hr, hc⟩ := Matrix.mem_cells.1 hp
    obtain ⟨h₁, h₂⟩ := hcell c r (List.mem_range.1 hc) (List.mem_range.1 hr)
    exact Option.some.inj (h₁.symm.trans h₂)
  · intro hall
    refine List.ext_getElem? fun k => ?_
    by_cases hk : k % size.columnsMax < size.columns ∧ k / size.columnsMax < size.rows
    · obtain ⟨h₁, h₂⟩ := hcell _ _ hk.1 hk.2
      rw [Nat.div_add_mod'] at h₁ h₂
      rw [h₁, h₂, hall _ (Matrix.mem_cells.2 ⟨List.mem_range.2 hk.2, List.mem_range.2 hk.1⟩)]
    · have hapart : s[k]? = (List.replicate (size.columnsMax * size.rowsMax) none)[k]? := by
        refine writeAll_apart hs fun q hq hplace => hk ?_
        obtain ⟨⟨c, r⟩, hmem, rfl⟩ := List.mem_map.1 hq
        obtain ⟨hr, hc⟩ := Matrix.mem_cells.1 hmem
        rw [List.mem_range] at hr hc
        dsimp only at hplace
        have hc' : c < size.columnsMax := lt_of_lt_of_le hc hsize.columns
        rw [(position_of_fits hsize hsmall hc hr).1] at hplace
        subst hplace
        rw [Nat.mul_add_mod_of_lt hc', Nat.mul_comm, Nat.mul_add_div (by omega), Nat.div_eq_of_lt hc',
          Nat.add_zero]
        exact ⟨hc, hr⟩
      rw [hapart, getElem?_shown]
      simp only [hk, if_false]
      by_cases hlt : k < size.columnsMax * size.rowsMax
      · rw [List.getElem?_replicate, if_pos hlt, List.getElem?_eq_getElem (by rwa [hlen])]
        rfl
      · rw [List.getElem?_replicate, if_neg hlt, List.getElem?_eq_none (by omega)]
        rfl

/-- What a node with the attributes of a matrix and its cells is read as. -/
theorem buildMatrix_iff {node label : NodeData} (hlabel : matrixAttributes size node = .ok label)
    (hsmall : size.columnsMax * size.rowsMax ≤ maxSize)
    {g : ℕ × ℕ → Except Fault (Option (Value D))} {v : Value D} :
    buildMatrix label ((Matrix.cells (List.range size.rows) (List.range size.columns)).map g) =
      .ok (some v) ↔
    0 < size.columnsMax * size.rowsMax ∧ size.columns ≤ size.columnsMax ∧ size.rows ≤ size.rowsMax ∧
    size.columns * size.rows < 2 ^ 31 ∧
    (∀ p ∈ Matrix.cells (List.range size.rows) (List.range size.columns), ∃ p', g p = .ok p') ∧
    ∃ s, writeAll Fault.outOfRange
        ((Matrix.cells (List.range size.rows) (List.range size.columns)).map
          fun p => (Matrix.position size.columnsMax p.1 p.2, got (g p)))
        (List.replicate (size.columnsMax * size.rowsMax) none) = .ok s ∧
      v = .matrix { size with stepRows := toSize (toInt (attributeValue node "rowstep")) } s := by
  obtain ⟨⟨h₁, h₂, h₃, h₄, h₅, h₆⟩, rfl⟩ := matrixAttributes_iff.1 hlabel
  have hint : ∀ n : ℕ, n < 2 ^ 31 → toInt (toString (n : ℤ)) = n :=
    fun n hn => toInt_toString ⟨by omega, by exact_mod_cast hn⟩
  generalize hlabel' : List.foldl (fun node (a : String × ℤ) => setAttributeValue node a.1 (toString a.2))
    node _ = label
  have hcolumns : toInt (attributeValue label "columns") = size.columns := by
    simp [← hlabel', attributeValue_set, -Int.toString_eq_repr, hint _ h₁]
  have hrows : toInt (attributeValue label "rows") = size.rows := by
    simp [← hlabel', attributeValue_set, -Int.toString_eq_repr, hint _ h₂]
  have hcolumnmax : toInt (attributeValue label "columnmax") = size.columnsMax := by
    simp [← hlabel', attributeValue_set, -Int.toString_eq_repr, hint _ h₃]
  have hrowmax : toInt (attributeValue label "rowmax") = size.rowsMax := by
    simp [← hlabel', attributeValue_set, -Int.toString_eq_repr, hint _ h₄]
  have hcolumnstep : toInt (attributeValue label "columnstep") = size.stepColumns := by
    simp [← hlabel', attributeValue_set, -Int.toString_eq_repr, hint _ h₅]
  have hrowstep : attributeValue label "rowstep" = attributeValue node "rowstep" := by
    simp [← hlabel', attributeValue_set]
  have hread : ∀ p ∈ Matrix.cells (List.range size.rows) (List.range size.columns),
      ((Matrix.cells (List.range size.rows) (List.range size.columns)).map g)[p.1 + p.2 * size.columns]? =
        some (g p) := by
    intro p hp
    rw [List.getElem?_map, getElem?_cells hp]
    rfl
  have hcheck : ∀ p ∈ Matrix.cells (List.range size.rows) (List.range size.columns),
      p.1 < size.columns ∧ p.2 ≤ size.rows := by
    rintro ⟨c, r⟩ hp
    obtain ⟨hr, hc⟩ := Matrix.mem_cells.1 hp
    exact ⟨List.mem_range.1 hc, (List.mem_range.1 hr).le⟩
  simp only [buildMatrix, hcolumns, hrows, hcolumnmax, hrowmax, hcolumnstep, hrowstep,
    toSize_natCast h₁, toSize_natCast h₂, toSize_natCast h₃, toSize_natCast h₄, toSize_natCast h₅,
    Int.toNat_natCast, List.length_map, length_cells, Except.bind_eq_ok, ofCapacities_iff hsmall,
    intMul_iff]
  constructor
  · rintro ⟨m, ⟨hroom, hc, hr, rfl⟩, _, ⟨hcells, rfl⟩, h⟩
    rw [if_neg (by push_cast; simp)] at h
    obtain ⟨m', hrun, h⟩ := Except.bind_eq_ok.mp h
    obtain ⟨hg, s, hs, rfl⟩ := (foldlM_set hread hcheck).1 hrun
    cases h
    exact ⟨hroom, hc, hr, hcells, hg, s, hs, rfl⟩
  · rintro ⟨hroom, hc, hr, hcells, hg, s, hs, rfl⟩
    refine ⟨_, ⟨hroom, hc, hr, rfl⟩, _, ⟨hcells, rfl⟩, ?_⟩
    rw [if_neg (by push_cast; simp), (foldlM_set hread hcheck).2 ⟨hg, s, hs, rfl⟩]
    rfl

variable [Zero D] {buildText : Bool}

/-- A matrix is read again exactly when its sizes fit, the node had its row step, and its cells are read
again. -/
theorem roundTrip_matrix_iff (hlen : cells.length = size.columnsMax * size.rowsMax % sizeT)
    (hsmall : cells.length ≤ maxSize)
    (hcells : ∀ c r, c < size.columns → r < size.rows →
      ∃ v, cells[Matrix.position size.columnsMax c r]? = some (some v))
    (htags : ∀ c r v, c < size.columns → r < size.rows →
      cells[Matrix.position size.columnsMax c r]? = some (some v) → (tagName v).isSome) {node : Content}
    (h : Holds (.matrix size cells : Value D) node) :
    RoundTrip T buildText (.matrix size cells) node ↔
      Fits size ∧ (size.stepRows : ℤ) = toInt (attributeValue node.label "rowstep") ∧
        ∀ c r v, c < size.columns → r < size.rows →
          cells[Matrix.position size.columnsMax c r]? = some (some v) →
            RoundTrip T buildText v (fresh v) := by
  have hname : node.label.nodeName = "matrix" := (Option.some.inj h.tag).symm
  let cl := Matrix.cells (List.range size.rows) (List.range size.columns)
  have hmem : ∀ {c r : ℕ}, (c, r) ∈ cl ↔ r < size.rows ∧ c < size.columns := by
    intro c r
    rw [Matrix.mem_cells, List.mem_range, List.mem_range]
  have hps : ∀ p ∈ cl.map (pointer size cells), ∃ v, p = some v ∧ (tagName v).isSome := by
    intro p hp
    obtain ⟨⟨c, r⟩, hq, rfl⟩ := List.mem_map.1 hp
    obtain ⟨hr, hc⟩ := hmem.1 hq
    obtain ⟨v, hv⟩ := hcells c r hc hr
    exact ⟨v, by simp [pointer, hv], htags c r v hc hr hv⟩
  -- The round trips of the cells, over the pointers of the loop.
  have htrips : (∀ c r v, c < size.columns → r < size.rows →
      cells[Matrix.position size.columnsMax c r]? = some (some v) → RoundTrip T buildText v (fresh v)) ↔
      ∀ p ∈ cl, readBack T buildText (pointer size cells p) =
        .ok ((pointer size cells p).map Value.seen) := by
    constructor
    · rintro hall ⟨c, r⟩ hp
      obtain ⟨hr, hc⟩ := hmem.1 hp
      obtain ⟨v, hv⟩ := hcells c r hc hr
      have hpointer : pointer size cells (c, r) = some v := by simp [pointer, hv]
      rw [hpointer]
      exact (readBack_iff (htags c r v hc hr hv)).2 (hall c r v hc hr hv)
    · intro hall c r v hc hr hv
      have hp := hall (c, r) (hmem.2 ⟨hr, hc⟩)
      have hpointer : pointer size cells (c, r) = some v := by simp [pointer, hv]
      rw [hpointer] at hp
      exact (readBack_iff (htags c r v hc hr hv)).1 hp
  have hbuild : ∀ (label : NodeData) (cs : List (Option Content)), label.nodeName = "matrix" →
      (cl.map (pointer size cells)).map (fillPointer T) = cs.map .ok →
      buildValue T buildText (.node label cs.reduceOption) =
        buildMatrix label (cl.map fun p => readBack T buildText (pointer size cells p)) := by
    intro label cs hlabel hcs
    rw [← Function.comp_def, ← List.map_map, ← buildEach_fillEach hps hcs]
    simp [buildValue, hlabel]
  rw [RoundTrip, htrips]
  simp only [fillWithValue, hname, ne_eq, not_true_eq_false, if_false, Except.bind_eq_ok,
    fillCells_iff hcells]
  constructor
  · rintro ⟨node', ⟨label, hlabel, cs, hcs, hnode'⟩, hread⟩
    cases hnode'
    obtain ⟨⟨h₁, h₂, h₃, h₄, h₅, h₆⟩, -⟩ := matrixAttributes_iff.1 hlabel
    have hmod : size.columnsMax * size.rowsMax % sizeT = size.columnsMax * size.rowsMax :=
      Nat.mod_eq_of_lt (by unfold sizeT; nlinarith)
    rw [hmod] at hlen
    have hroom : size.columnsMax * size.rowsMax ≤ maxSize := hlen ▸ hsmall
    rw [hbuild label cs ((matrixAttributes_type hlabel).2.trans hname) hcs,
      buildMatrix_iff hlabel hroom, Value.seen] at hread
    obtain ⟨hpos, hc, hr, hproduct, hg, s, hs, hv⟩ := hread
    obtain ⟨hsize, hshown⟩ := Value.matrix.inj hv
    have hfits : Fits size := ⟨hc, hr, hpos, h₃, h₄, h₅, h₆, hproduct⟩
    refine ⟨hfits, ?_, fun p hp => ?_⟩
    · rw [← toSize_eq_iff h₆ (toInt_range _)]
      exact (congrArg MatrixSize.stepRows hsize).symm
    · obtain ⟨v, hp'⟩ := hg p hp
      have hgot := (writeAll_shown_iff hfits hlen hroom hcells hs).1 hshown.symm p hp
      rw [hp'] at hgot ⊢
      exact congrArg Except.ok hgot
  · rintro ⟨hfits, hstep, hall⟩
    have hmod : size.columnsMax * size.rowsMax % sizeT = size.columnsMax * size.rowsMax :=
      Nat.mod_eq_of_lt (by have := hfits.columnsMax; have := hfits.rowsMax; unfold sizeT; nlinarith)
    rw [hmod] at hlen
    have hroom : size.columnsMax * size.rowsMax ≤ maxSize := hlen ▸ hsmall
    obtain ⟨cs, hcs⟩ := exists_fillEach hps (by
      intro v hv
      obtain ⟨⟨c, r⟩, hq, hp⟩ := List.mem_map.1 hv
      have := hall _ hq
      rw [hp] at this
      obtain ⟨w, hw, htag⟩ := hps _ hv
      cases hw
      exact (readBack_iff htag).1 this)
    obtain ⟨label, hlabel⟩ : ∃ label, matrixAttributes size node.label = .ok label :=
      ⟨_, matrixAttributes_iff.2 ⟨⟨lt_of_le_of_lt hfits.columns hfits.columnsMax,
        lt_of_le_of_lt hfits.rows hfits.rowsMax, hfits.columnsMax, hfits.rowsMax, hfits.stepColumns,
        hfits.stepRows⟩, rfl⟩⟩
    refine ⟨_, ⟨label, hlabel, cs, hcs, rfl⟩, ?_⟩
    rw [hbuild _ cs ((matrixAttributes_type hlabel).2.trans hname) hcs, buildMatrix_iff hlabel hroom]
    obtain ⟨s, hs⟩ : ∃ s, writeAll Fault.outOfRange (cl.map fun p =>
        (Matrix.position size.columnsMax p.1 p.2, got (readBack T buildText (pointer size cells p))))
        (List.replicate (size.columnsMax * size.rowsMax) none) = .ok s := by
      refine exists_writeAll Fault.outOfRange fun q hq => ?_
      obtain ⟨⟨c, r⟩, hp, rfl⟩ := List.mem_map.1 hq
      obtain ⟨hr, hc⟩ := hmem.1 hp
      obtain ⟨hplace, hlt⟩ := position_of_fits hfits hroom hc hr
      rw [List.length_replicate]
      exact hplace.trans_lt hlt
    refine ⟨hfits.room, hfits.columns, hfits.rows, hfits.cells, fun p hp => ⟨_, hall p hp⟩, s, hs, ?_⟩
    rw [Value.seen, Value.matrix.injEq]
    constructor
    · rw [(toSize_eq_iff hfits.stepRows (toInt_range _)).2 hstep]
    · refine ((writeAll_shown_iff hfits hlen hroom hcells hs).2 fun p hp => ?_).symm
      rw [hall p hp]
      rfl

end Matrix

/-! ## All values -/

section All

variable {T : DoubleTexts D}

theorem Editable.tag {v : Value D} (h : Editable T v) : (tagName v).isSome := by
  cases h <;> rfl

theorem rowstep_fresh (v : Value D) : toInt (attributeValue (fresh v).label "rowstep") = 0 := by
  have hattr : attributeValue (fresh v).label "rowstep" = "" := rfl
  rw [hattr]
  decide

/-- A loop of writes into one node. -/
def fillAll (T : DoubleTexts D) (ws : List (Value D)) (node : Content) : Except Fault Content :=
  ws.foldlM (fun node w => do return (← fillWithValue T w node).2) node

/-- Writing a text into a node leaves its label, and one text. -/
theorem fillText_keeps {tag text : String} {node node' : Content} {b : Bool}
    (h : fillText tag text node = (b, node'))
    (hcs : node.children.length ≤ 1 ∧ ∀ ch ∈ node.children, ch.label.nodeType = .text) :
    node'.children.length ≤ 1 ∧ ∀ ch ∈ node'.children, ch.label.nodeType = .text := by
  have htext : ∀ s t : Content, t.label.nodeType = .text → s = .node s.label [t] →
      s.children.length ≤ 1 ∧ ∀ ch ∈ s.children, ch.label.nodeType = .text := by
    rintro s t ht hs
    rw [hs, Rose.children_node]
    exact ⟨le_rfl, fun ch hch => by rwa [List.mem_singleton.1 hch]⟩
  unfold fillText at h
  split_ifs at h with hname
  · cases h
    exact hcs
  · split at h
    · cases h
      exact htext _ (textNode text) rfl rfl
    · rename_i ch hch
      split_ifs at h with htype
      · cases h
        exact htext _ (.node { ch.label with nodeValue := text } ch.children) htype rfl
      · cases h
        exact hcs
    · cases h
      exact hcs

theorem rowstep_matrixAttributes {size : MatrixSize} {node node' : NodeData}
    (h : matrixAttributes size node = .ok node') :
    attributeValue node' "rowstep" = attributeValue node "rowstep" := by
  unfold matrixAttributes at h
  obtain ⟨_, -, h⟩ := Except.bind_eq_ok.mp h
  obtain ⟨_, -, h⟩ := Except.bind_eq_ok.mp h
  obtain ⟨_, -, h⟩ := Except.bind_eq_ok.mp h
  obtain ⟨_, -, h⟩ := Except.bind_eq_ok.mp h
  obtain ⟨_, -, h⟩ := Except.bind_eq_ok.mp h
  obtain ⟨_, -, h⟩ := Except.bind_eq_ok.mp h
  cases h
  simp [attributeValue_set]

/-- No write sets the attribute that a matrix is read with. -/
theorem rowstep_of_fill {v : Value D} {node node' : Content} {b : Bool}
    (h : fillWithValue T v node = .ok (b, node')) :
    attributeValue node'.label "rowstep" = attributeValue node.label "rowstep" := by
  cases v with
  | boolean _ | integer _ | double _ | string _ | tuple _ =>
    simp only [fillWithValue] at h
    rw [label_of_fillText (Except.ok.inj h)]
  | xml _ | null =>
    simp only [fillWithValue] at h
    cases h
    rfl
  | set l | map l =>
    simp only [fillWithValue] at h
    split_ifs at h
    · cases h
      rfl
    · obtain ⟨cs, -, h⟩ := Except.bind_eq_ok.mp h
      cases h
      rfl
  | table width height t =>
    simp only [fillWithValue] at h
    split_ifs at h
    · cases h
      rfl
    · obtain ⟨text, -, h⟩ := Except.bind_eq_ok.mp h
      rw [label_of_fillText (Except.ok.inj h), Rose.label_node]
      simp [attributeValue_set]
  | matrix size cells =>
    simp only [fillWithValue] at h
    split_ifs at h
    · cases h
      rfl
    · obtain ⟨label, hlabel, h⟩ := Except.bind_eq_ok.mp h
      obtain ⟨cs, -, h⟩ := Except.bind_eq_ok.mp h
      cases h
      exact rowstep_matrixAttributes hlabel

/-- A node that holds a value holds any value of its type after a write. -/
theorem holds_of_fill {v w : Value D} {node node' : Content} {b : Bool} (hv : Holds v node)
    (hw : hasText v → hasText w) (h : fillWithValue T w node = .ok (b, node')) : Holds v node' := by
  refine ⟨by rw [(label_of_fill h).2, hv.tag], fun htext => ?_⟩
  have hcs := hv.text htext
  cases w with
  | boolean _ | integer _ | double _ | string _ | tuple _ =>
    simp only [fillWithValue] at h
    exact fillText_keeps (Except.ok.inj h) hcs
  | xml _ | null =>
    simp only [fillWithValue] at h
    cases h
    exact hcs
  | set l | map l | matrix size cells => exact absurd (hw htext) (by simp [hasText])
  | table width height t =>
    simp only [fillWithValue] at h
    split_ifs at h
    · cases h
      exact hcs
    · obtain ⟨text, -, h⟩ := Except.bind_eq_ok.mp h
      exact fillText_keeps (Except.ok.inj h) hcs

theorem hasText_of_tag {v w : Value D} (h : tagName w = tagName v) : hasText v → hasText w := by
  cases v <;> cases w <;> simp_all [tagName, hasText]

variable [Zero D] {buildText : Bool}

/-- A value makes the round trip through a node that holds one of its type exactly when it is kept. -/
theorem roundTrip_iff {v : Value D} (hv : Editable T v) {node : Content} (h : Holds v node) :
    RoundTrip T buildText v node ↔ Kept (toInt (attributeValue node.label "rowstep")) v := by
  induction v using Value.induction generalizing node with
  | boolean b => exact iff_of_true (roundTrip_boolean b h) (.boolean b)
  | integer n =>
    cases hv with
    | integer hint => exact iff_of_true (roundTrip_integer hint h) (.integer n)
  | double d =>
    cases hv with
    | double hd => exact iff_of_true (roundTrip_double hd h) (.double d)
  | string s => exact iff_of_true (roundTrip_string s h) (.string s)
  | xml s => cases hv
  | null => cases hv
  | tuple t =>
    cases hv with
    | tuple ht =>
      rw [roundTrip_tuple_iff ht h]
      refine ⟨.tuple, fun hk => ?_⟩
      cases hk with
      | tuple hne => exact hne
  | table width height t =>
    cases hv with
    | table hlen hne hsmall ht =>
      rw [roundTrip_table_iff hlen hne hsmall ht h]
      refine ⟨fun hk => .table hk.1 hk.2, fun hk => ?_⟩
      cases hk with
      | table hwidth hheight => exact ⟨hwidth, hheight⟩
  | set l ih =>
    cases hv with
    | set hsome hl =>
      rw [roundTrip_set_iff (fun p hp => ?_) h]
      · have hiff : ∀ v, some v ∈ l → (RoundTrip T buildText v (fresh v) ↔ Kept 0 v) := by
          intro v hv
          rw [ih v hv (hl v hv) (holds_fresh (hl v hv).tag), rowstep_fresh]
        refine ⟨fun hall => .set fun v hv => (hiff v hv).1 (hall v hv), fun hk v hv => ?_⟩
        cases hk with
        | set hk => exact (hiff v hv).2 (hk v hv)
      · cases p with
        | none => exact absurd hp hsome
        | some v => exact ⟨v, rfl, (hl v hp).tag⟩
  | map l ih =>
    cases hv with
    | map hkeys hsome hl =>
      rw [roundTrip_map_iff hkeys (fun q hq => ?_) h]
      · have hiff : ∀ k v, (k, some v) ∈ l → (RoundTrip T buildText v (fresh v) ↔ Kept 0 v) := by
          intro k v hv
          rw [ih k v hv (hl k v hv) (holds_fresh (hl k v hv).tag), rowstep_fresh]
        refine ⟨fun hall => .map fun k v hv => (hiff k v hv).1 (hall k v hv), fun hk k v hv => ?_⟩
        cases hk with
        | map hk => exact (hiff k v hv).2 (hk k v hv)
      · obtain ⟨k, p⟩ := q
        cases p with
        | none => exact absurd hq (hsome k)
        | some v => exact ⟨v, rfl, (hl k v hq).tag⟩
  | matrix size cells ih =>
    cases hv with
    | matrix hlen hsmall hcells hl =>
      have hiff : ∀ c r v, c < size.columns → r < size.rows →
          cells[Matrix.position size.columnsMax c r]? = some (some v) →
          (RoundTrip T buildText v (fresh v) ↔ Kept 0 v) := by
        intro c r v hc hr hv
        rw [ih v (List.mem_of_getElem? hv) (hl c r v hc hr hv) (holds_fresh (hl c r v hc hr hv).tag),
          rowstep_fresh]
      rw [roundTrip_matrix_iff hlen hsmall hcells (fun c r v hc hr hv => (hl c r v hc hr hv).tag) h]
      constructor
      · rintro ⟨hfits, hstep, hall⟩
        exact .matrix hfits hstep fun c r v hc hr hv => (hiff c r v hc hr hv).1 (hall c r v hc hr hv)
      · intro hk
        cases hk with
        | matrix hfits hstep hk =>
          exact ⟨hfits, hstep, fun c r v hc hr hv => (hiff c r v hc hr hv).2 (hk c r v hc hr hv)⟩

/-- After any values of its type were written into a node, a value makes the round trip through it exactly
when it is kept by the node that there was at first. -/
theorem fillAll_roundTrip_iff {v : Value D} (hv : Editable T v) {node node' : Content} (h : Holds v node)
    {ws : List (Value D)} (hws : ∀ w ∈ ws, tagName w = tagName v) (hrun : fillAll T ws node = .ok node') :
    RoundTrip T buildText v node' ↔ Kept (toInt (attributeValue node.label "rowstep")) v := by
  induction ws generalizing node with
  | nil =>
    cases hrun
    exact roundTrip_iff hv h
  | cons w ws ih =>
    rw [List.forall_mem_cons] at hws
    rw [fillAll, List.foldlM_cons] at hrun
    obtain ⟨node₁, hturn, hrest⟩ := Except.bind_eq_ok.mp hrun
    obtain ⟨⟨b, node₂⟩, hfill, heq⟩ := Except.bind_eq_ok.mp hturn
    obtain rfl := Except.ok.inj heq
    rw [ih (holds_of_fill h (hasText_of_tag hws.1) hfill) hws.2 hrest, rowstep_of_fill hfill]

/-- The texts of doubles that are integers. -/
def intTexts : DoubleTexts ℤ where
  writeString := toString
  writeCell := toString
  variantString := toString
  toDouble := toInt
  lexicalCast := decimal

/-- A matrix of one cell that grows by rows. -/
def growing : Value ℤ :=
  .matrix { columns := 1, rows := 1, columnsMax := 1, rowsMax := 1, stepColumns := 0, stepRows := 1 }
    [some (.boolean true)]

/-- The row step of a matrix is lost in an element made for it, however often it is written. -/
theorem not_roundTrip_growing : ∃ node', fillAll intTexts [growing] (fresh growing) = .ok node' ∧
    ¬ RoundTrip intTexts true growing node' := by
  have heditable : Editable intTexts growing := by
    refine .matrix rfl (by decide) (fun c r hc hr => ?_) fun c r v hc hr hv => ?_
    · obtain rfl := Nat.lt_one_iff.1 hc
      obtain rfl := Nat.lt_one_iff.1 hr
      exact ⟨.boolean true, rfl⟩
    · obtain rfl := Nat.lt_one_iff.1 hc
      obtain rfl := Nat.lt_one_iff.1 hr
      cases hv
      exact .boolean true
  obtain ⟨node', hrun⟩ : ∃ node', fillAll intTexts [growing] (fresh growing) = .ok node' := ⟨_, rfl⟩
  refine ⟨node', hrun, fun h => ?_⟩
  have htag : ∀ w ∈ [growing], tagName w = tagName growing := by simp
  cases (fillAll_roundTrip_iff heditable (holds_fresh rfl) htag hrun).1 h with
  | matrix _ hstep _ => exact absurd hstep (by decide)

end All

end Vle.Gvle
