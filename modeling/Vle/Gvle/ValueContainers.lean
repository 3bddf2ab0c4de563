import Vle.Gvle.ValueNodes

/-!
# Values in nodes, constructor by constructor

What is written for a value is read again: for the values that are a text from what the text says
(`roundTrip_text`), for a container exactly when it is so for the values in it (`roundTrip_set_iff`,
`roundTrip_map_iff`). The nodes made for the pointers of a container are elements, and what they are read
as is `readBack`, pointer after pointer.
-/

namespace Vle.Gvle

open Lib Lib.Storage

variable {D : Type}

/-! ## Texts and attributes -/

/-- An integer is read from what it is printed as. -/
theorem toInt_toString {n : ℤ} (h : -2 ^ 31 ≤ n ∧ n < 2 ^ 31) : toInt (toString n) = n := by
  obtain ⟨c, l, hcl⟩ := List.exists_cons_of_ne_nil (Nat.toDigits_ne_nil (b := 10) (n := n.natAbs))
  have hdigits : ∀ d ∈ c :: l, d.isDigit = true := fun d hd => isDigit_of_mem (hcl ▸ hd)
  have hc : c.isDigit = true := hdigits c List.mem_cons_self
  have hrest : afterSign ((toString n).toList.dropWhile isSpace) = c :: l := by
    rw [toList_toString, hcl]
    by_cases hneg : n < 0
    · rw [if_pos hneg]
      rfl
    · rw [if_neg hneg, List.nil_append, List.dropWhile_cons_of_neg (by simp [isSpace_digit hc]),
        afterSign_digit hc]
  have hend : (c :: l).dropWhile Char.isDigit = [] := List.dropWhile_eq_nil_iff.2 hdigits
  unfold toInt
  simp only [hrest, hend, decimal_toString, List.all_nil, true_and, if_pos h]

theorem lookup_cons_pair (x y k : String) (l : List (String × String)) :
    ((x, y) :: l).lookup k = if k = x then some y else l.lookup k := by
  rw [List.lookup_cons]
  by_cases h : k = x
  · simp [h]
  · simp [h, beq_eq_false_iff_ne.2 h]

theorem lookup_map_set (l : List (String × String)) (k v k' : String) :
    (l.map fun a => if a.1 = k then (a.1, v) else a).lookup k' =
      if k' = k then (l.lookup k).map fun _ => v else l.lookup k' := by
  induction l with
  | nil => simp
  | cons a l ih =>
    obtain ⟨x, y⟩ := a
    rw [List.map_cons, lookup_cons_pair x y k, lookup_cons_pair x y k']
    by_cases hx : x = k
    · rw [if_pos hx, lookup_cons_pair, ih]
      by_cases hk : k' = k
      · simp [hk, hx]
      · simp [hk, hx]
    · rw [if_neg hx, lookup_cons_pair, ih]
      by_cases hk : k' = k
      · subst hk
        simp [Ne.symm hx]
      · simp [hk]

/-- What an attribute shows after one was set. -/
theorem attributeValue_set (node : NodeData) (attrName val attrName' : String) :
    attributeValue (setAttributeValue node attrName val) attrName' =
      if attrName' = attrName then val else attributeValue node attrName' := by
  unfold attributeValue setAttributeValue
  dsimp only
  split_ifs with h heq heq
  · obtain ⟨w, hw⟩ := Option.isSome_iff_exists.1 h
    rw [lookup_map_set, if_pos heq, hw]
    rfl
  · rw [lookup_map_set, if_neg heq]
  · subst heq
    rw [Bool.not_eq_true, Option.isSome_eq_false_iff, Option.isNone_iff_eq_none] at h
    rw [List.lookup_append, h, Option.none_or, lookup_cons_pair, if_pos rfl]
    rfl
  · rw [List.lookup_append, lookup_cons_pair, if_neg heq]
    simp

@[simp] theorem nodeName_set (node : NodeData) (a v : String) :
    (setAttributeValue node a v).nodeName = node.nodeName := rfl

@[simp] theorem nodeType_set (node : NodeData) (a v : String) :
    (setAttributeValue node a v).nodeType = node.nodeType := rfl

/-! ## What is written -/

section Write

variable (T : DoubleTexts D)

/-- What is written for a pointer of a container. -/
def fillPointer : Option (Value D) → Except Fault (Option Content)
  | none => .error .null
  | some v =>
    match buildEmptyValueFromDoc v with
    | none => .ok none
    | some node => (fillWithValue T v node).map fun r => some r.2

theorem fillEach_eq (l : List (Option (Value D))) : fillEach T l = l.map (fillPointer T) := by
  induction l with
  | nil => simp [fillEach]
  | cons p l ih =>
    cases p with
    | none => simp only [fillEach, fillPointer, List.map_cons, ih]
    | some v =>
      cases hempty : buildEmptyValueFromDoc v with
      | none | some node => simp only [fillEach, fillPointer, List.map_cons, ih, hempty]

/-- The element that a value is written into. -/
def fresh (v : Value D) : Content := createElement ((tagName v).getD "")

variable {T}


@[simp] theorem nodeName_createElement (name : String) : (createElement name).label.nodeName = name := rfl

@[simp] theorem children_createElement (name : String) : (createElement name).children = [] := rfl

theorem fillText_nil {tag text : String} {a : NodeData} (hname : a.nodeName = tag) :
    fillText tag text (.node a []) = (true, .node a [textNode text]) := by
  simp [fillText, hname]

theorem true_of_fillText {tag text : String} {a : NodeData} {b : Bool} {node : Content}
    (hname : a.nodeName = tag) (h : fillText tag text (.node a []) = (b, node)) : b = true := by
  rw [fillText_nil hname] at h
  exact (congrArg Prod.fst h).symm

/-- Writing keeps what kind of node it is. -/
theorem label_of_fillText {tag text : String} {node node' : Content} {b : Bool}
    (h : fillText tag text node = (b, node')) : node'.label = node.label := by
  unfold fillText at h
  split_ifs at h with hname
  · cases h
    rfl
  · split at h
    · cases h
      rfl
    · split_ifs at h
      · cases h
        rfl
      · cases h
        rfl
    · cases h
      rfl

theorem matrixAttributes_type {size : MatrixSize} {node node' : NodeData}
    (h : matrixAttributes size node = .ok node') :
    node'.nodeType = node.nodeType ∧ node'.nodeName = node.nodeName := by
  unfold matrixAttributes at h
  obtain ⟨_, -, h⟩ := Except.bind_eq_ok.mp h
  obtain ⟨_, -, h⟩ := Except.bind_eq_ok.mp h
  obtain ⟨_, -, h⟩ := Except.bind_eq_ok.mp h
  obtain ⟨_, -, h⟩ := Except.bind_eq_ok.mp h
  obtain ⟨_, -, h⟩ := Except.bind_eq_ok.mp h
  obtain ⟨_, -, h⟩ := Except.bind_eq_ok.mp h
  cases h
  exact ⟨rfl, rfl⟩

/-- Writing keeps the type and the name of a node. -/
theorem label_of_fill {v : Value D} {node node' : Content} {b : Bool}
    (h : fillWithValue T v node = .ok (b, node')) :
    node'.label.nodeType = node.label.nodeType ∧ node'.label.nodeName = node.label.nodeName := by
  cases v with
  | boolean _ | integer _ | double _ | string _ | tuple _ =>
    simp only [fillWithValue] at h
    rw [label_of_fillText (Except.ok.inj h)]
    exact ⟨rfl, rfl⟩
  | xml _ | null =>
    simp only [fillWithValue] at h
    cases h
    exact ⟨rfl, rfl⟩
  | set l | map l =>
    simp only [fillWithValue] at h
    split_ifs at h
    · cases h
      exact ⟨rfl, rfl⟩
    · obtain ⟨cs, -, h⟩ := Except.bind_eq_ok.mp h
      cases h
      exact ⟨rfl, rfl⟩
  | table width height t =>
    simp only [fillWithValue] at h
    split_ifs at h
    · cases h
      exact ⟨rfl, rfl⟩
    · obtain ⟨text, -, h⟩ := Except.bind_eq_ok.mp h
      rw [label_of_fillText (Except.ok.inj h)]
      exact ⟨rfl, rfl⟩
  | matrix size cells =>
    simp only [fillWithValue] at h
    split_ifs at h
    · cases h
      exact ⟨rfl, rfl⟩
    · obtain ⟨label, hlabel, h⟩ := Except.bind_eq_ok.mp h
      obtain ⟨cs, -, h⟩ := Except.bind_eq_ok.mp h
      cases h
      exact matrixAttributes_type hlabel

/-- A value is written into an element that was made for it. -/
theorem true_of_fill {v : Value D} {node : Content} {b : Bool} (hv : (tagName v).isSome)
    (h : fillWithValue T v (fresh v) = .ok (b, node)) : b = true := by
  cases v with
  | boolean _ | integer _ | double _ | string _ | tuple _ =>
    simp only [fillWithValue] at h
    exact true_of_fillText rfl (Except.ok.inj h)
  | xml _ | null => cases hv
  | set l | map l =>
    simp only [fillWithValue, fresh, tagName, Option.getD_some, nodeName_createElement, ne_eq,
      not_true_eq_false, if_false] at h
    obtain ⟨cs, -, h⟩ := Except.bind_eq_ok.mp h
    cases h
    rfl
  | table width height t =>
    simp only [fillWithValue, fresh, tagName, Option.getD_some, nodeName_createElement, ne_eq,
      not_true_eq_false, if_false] at h
    obtain ⟨text, -, h⟩ := Except.bind_eq_ok.mp h
    exact true_of_fillText rfl (Except.ok.inj h)
  | matrix size cells =>
    simp only [fillWithValue, fresh, tagName, Option.getD_some, nodeName_createElement, ne_eq,
      not_true_eq_false, if_false] at h
    obtain ⟨label, -, h⟩ := Except.bind_eq_ok.mp h
    obtain ⟨cs, -, h⟩ := Except.bind_eq_ok.mp h
    cases h
    rfl

/-- What is written for a pointer is an element, and it is read as its value exactly when that makes the
round trip. -/
theorem fillPointer_iff {v : Value D} (hv : (tagName v).isSome) {p : Option Content} :
    fillPointer T (some v) = .ok p ↔
      ∃ node, p = some node ∧ fillWithValue T v (fresh v) = .ok (true, node) := by
  obtain ⟨tag, htag⟩ := Option.isSome_iff_exists.1 hv
  have hfresh : fresh v = createElement tag := by rw [fresh, htag]; rfl
  have hempty : buildEmptyValueFromDoc v = some (fresh v) := by
    rw [buildEmptyValueFromDoc, htag, hfresh]
    rfl
  simp only [fillPointer, hempty]
  constructor
  · intro h
    cases hfill : fillWithValue T v (fresh v) with
    | error e =>
      rw [hfill] at h
      cases h
    | ok r =>
      obtain ⟨b, node⟩ := r
      rw [hfill] at h
      cases h
      exact ⟨node, rfl, by rw [true_of_fill hv hfill]⟩
  · rintro ⟨node, rfl, hfill⟩
    rw [hfill]
    rfl

theorem element_of_fill {v : Value D} {node : Content} {b : Bool}
    (h : fillWithValue T v (fresh v) = .ok (b, node)) : node.label.nodeType ≠ .text := by
  rw [(label_of_fill h).1]
  exact (by decide : NodeType.element ≠ NodeType.text)

/-- The label of the node of a key. -/
def keyLabel (k : String) : NodeData := setAttributeValue (createElement "key").label "name" k

@[simp] theorem nodeType_keyLabel (k : String) : (keyLabel k).nodeType = .element := rfl

@[simp] theorem nodeName_keyLabel (k : String) : (keyLabel k).nodeName = "key" := rfl

/-- What is written for a key of a map. -/
def fillKey (T : DoubleTexts D) (q : String × Option (Value D)) : Except Fault Content :=
  match q.2 with
  | none => .error .null
  | some v =>
    match buildEmptyValueFromDoc v with
    | none => .ok (.node (keyLabel q.1) [])
    | some node => (fillWithValue T v node).map fun r => .node (keyLabel q.1) [r.2]

theorem fillKeys_eq (l : List (String × Option (Value D))) : fillKeys T l = l.map (fillKey T) := by
  induction l with
  | nil => simp [fillKeys]
  | cons q l ih =>
    obtain ⟨k, p⟩ := q
    cases p with
    | none => simp only [fillKeys, fillKey, List.map_cons, ih]
    | some v =>
      cases hempty : buildEmptyValueFromDoc v with
      | none | some node => simp only [fillKeys, fillKey, keyLabel, List.map_cons, ih, hempty]

/-- What is written for a key is a node with the element of its value. -/
theorem fillKey_iff {k : String} {v : Value D} (hv : (tagName v).isSome) {c : Content} :
    fillKey T (k, some v) = .ok c ↔
      ∃ node, c = .node (keyLabel k) [node] ∧ fillWithValue T v (fresh v) = .ok (true, node) := by
  have hmap : fillKey T (k, some v) = (fillPointer T (some v)).map fun p =>
      match p with
      | none => .node (keyLabel k) []
      | some node => .node (keyLabel k) [node] := by
    obtain ⟨tag, htag⟩ := Option.isSome_iff_exists.1 hv
    simp only [fillKey, fillPointer, buildEmptyValueFromDoc, htag, Option.map_some]
    cases fillWithValue T v (createElement tag) <;> rfl
  rw [hmap]
  constructor
  · intro h
    cases hp : fillPointer T (some v) with
    | error e =>
      rw [hp] at h
      cases h
    | ok p =>
      rw [hp] at h
      obtain ⟨node, rfl, hnode⟩ := (fillPointer_iff hv).1 hp
      cases h
      exact ⟨node, rfl, hnode⟩
  · rintro ⟨node, rfl, hnode⟩
    rw [(fillPointer_iff hv).2 ⟨node, rfl, hnode⟩]
    rfl

/-- A key after all those of a map is added at the end. -/
theorem mapAdd_last {m : List (String × Option (Value D))} {k : String} (h : ∀ q ∈ m, q.1 < k)
    (p : Option (Value D)) : mapAdd m k p = m ++ [(k, p)] := by
  have htake : m.takeWhile (fun q => q.1 < k) = m :=
    List.takeWhile_eq_self_iff.2 fun q hq => decide_eq_true (h q hq)
  have hdrop : m.dropWhile (fun q => q.1 ≤ k) = [] :=
    List.dropWhile_eq_nil_iff.2 fun q hq => decide_eq_true (h q hq).le
  rw [mapAdd, htake, hdrop]

/-- The keys of a map are added in their order. -/
theorem buildMap_iff {ks : List (String × Except Fault (Option (Value D)))}
    (acc : List (String × Option (Value D))) {r : List (String × Option (Value D))}
    (hks : (ks.map Prod.fst).Pairwise (· < ·)) (hacc : ∀ q ∈ acc, ∀ k ∈ ks.map Prod.fst, q.1 < k) :
    buildMap (ks.map fun q => (keyLabel q.1, [q.2])) acc = .ok r ↔
      ∃ vs : List (String × Option (Value D)), ks = vs.map (fun q => (q.1, .ok q.2)) ∧ r = acc ++ vs := by
  induction ks generalizing acc with
  | nil =>
    constructor
    · intro h
      cases h
      exact ⟨[], rfl, by simp⟩
    · rintro ⟨vs, hvs, rfl⟩
      obtain rfl := List.map_eq_nil_iff.1 hvs.symm
      simp [buildMap]
  | cons q ks ih =>
    obtain ⟨k, e⟩ := q
    rw [List.map_cons, List.pairwise_cons] at hks
    have hk : ∀ q ∈ acc, q.1 < k := fun q hq => hacc q hq k List.mem_cons_self
    have hname : (keyLabel k).attributes.lookup "name" = some k := by
      simp [keyLabel, setAttributeValue, createElement]
    have hstep : buildMap (((k, e) :: ks).map fun q => (keyLabel q.1, [q.2])) acc =
        e >>= fun v => buildMap (ks.map fun q => (keyLabel q.1, [q.2])) (acc ++ [(k, v)]) := by
      rw [List.map_cons, buildMap, if_neg (not_not.2 (nodeName_keyLabel k))]
      simp only [hname, List.headD_cons]
      congr 1
      funext v
      rw [mapAdd_last hk]
    rw [hstep]
    have hacc' : ∀ v, ∀ q ∈ acc ++ [(k, v)], ∀ k' ∈ ks.map Prod.fst, q.1 < k' := by
      intro v q hq k' hk'
      rcases List.mem_append.1 hq with hq | hq
      · exact hacc q hq k' (List.mem_cons_of_mem _ hk')
      · rw [List.mem_singleton.1 hq]
        exact hks.1 k' hk'
    constructor
    · intro h
      obtain ⟨v, rfl, h⟩ := Except.bind_eq_ok.mp h
      obtain ⟨vs, rfl, rfl⟩ := (ih _ hks.2 (hacc' v)).1 h
      exact ⟨(k, v) :: vs, rfl, by rw [List.append_assoc]; rfl⟩
    · rintro ⟨vs, hvs, rfl⟩
      cases vs with
      | nil => cases hvs
      | cons q vs =>
        obtain ⟨hq, rfl⟩ := List.cons.inj hvs
        cases hq
        exact (ih _ hks.2 (hacc' q.2)).2 ⟨vs, rfl, by rw [List.append_assoc]; rfl⟩

/-- The element made for a value holds it. -/
theorem holds_fresh {v : Value D} (hv : (tagName v).isSome) : Holds v (fresh v) := by
  refine ⟨?_, fun _ => ⟨Nat.zero_le _, fun ch hch => absurd hch List.not_mem_nil⟩⟩
  obtain ⟨tag, htag⟩ := Option.isSome_iff_exists.1 hv
  rw [fresh, htag]
  rfl

/-- A text is written into a node that has none or one. -/
theorem fillText_holds {tag : String} (text : String) {node : Content} (hname : node.label.nodeName = tag)
    (hcs : node.children.length ≤ 1 ∧ ∀ ch ∈ node.children, ch.label.nodeType = .text) :
    ∃ t, fillText tag text node = (true, .node node.label [t]) ∧ firstText [t] = text := by
  unfold fillText
  rw [if_neg (not_not.2 hname)]
  cases hchs : node.children with
  | nil => exact ⟨textNode text, rfl, rfl⟩
  | cons ch chs =>
    cases chs with
    | nil =>
      have htext := hcs.2 ch (by rw [hchs]; exact List.mem_cons_self)
      refine ⟨.node { ch.label with nodeValue := text } ch.children, ?_, ?_⟩
      · simp only [htext, if_true]
      · simp [firstText, htext]
    | cons _ _ =>
      rw [hchs] at hcs
      simp at hcs

end Write

/-! ## What is read -/

section Read

variable {T : DoubleTexts D} [Zero D] {buildText : Bool}

theorem buildEach_cons {ch : Content} (hch : ch.label.nodeType ≠ .text) (chs : List Content) :
    buildEach T buildText (ch :: chs) = buildValue T buildText ch :: buildEach T buildText chs := by
  rw [buildEach, if_neg hch]

variable (T buildText) in
/-- What is read from what is written for a pointer. -/
def readBack (p : Option (Value D)) : Except Fault (Option (Value D)) :=
  match p with
  | none => .error .null
  | some v => do
    let r ← fillWithValue T v (fresh v)
    buildValue T buildText r.2

theorem readBack_of_fill {v : Value D} {node : Content} {b : Bool}
    (h : fillWithValue T v (fresh v) = .ok (b, node)) :
    readBack T buildText (some v) = buildValue T buildText node := by
  rw [readBack, h]
  rfl

theorem readBack_iff {v : Value D} (hv : (tagName v).isSome) :
    readBack T buildText (some v) = .ok (some v.seen) ↔ RoundTrip T buildText v (fresh v) := by
  constructor
  · intro h
    obtain ⟨⟨b, node⟩, hfill, hread⟩ := Except.bind_eq_ok.mp h
    exact ⟨node, by rw [hfill, true_of_fill hv hfill], hread⟩
  · rintro ⟨node, hfill, hread⟩
    rw [readBack_of_fill hfill, hread]

/-- What the pointers of a container are written as is read element after element. -/
theorem buildEach_fillEach {l : List (Option (Value D))}
    (hl : ∀ p ∈ l, ∃ v, p = some v ∧ (tagName v).isSome) {cs : List (Option Content)}
    (h : l.map (fillPointer T) = cs.map .ok) :
    buildEach T buildText cs.reduceOption = l.map (readBack T buildText) := by
  induction l generalizing cs with
  | nil =>
    obtain rfl := List.map_eq_nil_iff.1 h.symm
    simp [buildEach]
  | cons p l ih =>
    obtain ⟨v, rfl, hv⟩ := hl p List.mem_cons_self
    rw [List.forall_mem_cons] at hl
    cases cs with
    | nil => cases h
    | cons c cs =>
      obtain ⟨hc, hcs⟩ := List.cons.inj h
      obtain ⟨node, rfl, hnode⟩ := (fillPointer_iff hv).1 hc
      rw [List.reduceOption_cons_of_some, buildEach_cons (element_of_fill hnode), ih hl.2 hcs,
        List.map_cons, readBack_of_fill hnode]

/-- The values that make the round trip can be written into a container. -/
theorem exists_fillEach {l : List (Option (Value D))}
    (hl : ∀ p ∈ l, ∃ v, p = some v ∧ (tagName v).isSome)
    (h : ∀ v, some v ∈ l → RoundTrip T buildText v (fresh v)) :
    ∃ cs : List (Option Content), l.map (fillPointer T) = cs.map .ok := by
  induction l with
  | nil => exact ⟨[], rfl⟩
  | cons p l ih =>
    obtain ⟨v, rfl, hv⟩ := hl p List.mem_cons_self
    rw [List.forall_mem_cons] at hl
    obtain ⟨cs, hcs⟩ := ih hl.2 fun w hw => h w (List.mem_cons_of_mem _ hw)
    obtain ⟨node, hnode, -⟩ := h v List.mem_cons_self
    exact ⟨some node :: cs, by
      rw [List.map_cons, List.map_cons, (fillPointer_iff hv).2 ⟨node, rfl, hnode⟩, hcs]⟩

theorem map_readBack_iff {l : List (Option (Value D))}
    (hl : ∀ p ∈ l, ∃ v, p = some v ∧ (tagName v).isSome) :
    l.map (readBack T buildText) = (Value.seenEach l).map .ok ↔
      ∀ v, some v ∈ l → RoundTrip T buildText v (fresh v) := by
  rw [Value.seenEach_eq, List.map_map, List.map_inj_left]
  constructor
  · intro h v hv
    obtain ⟨w, hw, htag⟩ := hl _ hv
    cases hw
    exact (readBack_iff htag).1 (h _ hv)
  · intro h p hp
    obtain ⟨v, rfl, htag⟩ := hl p hp
    exact (readBack_iff htag).2 (h v hp)

/-- What the keys of a map are written as is read key after key. -/
theorem buildKeys_fillKeys {l : List (String × Option (Value D))}
    (hl : ∀ q ∈ l, ∃ v, q.2 = some v ∧ (tagName v).isSome) {cs : List Content}
    (h : l.map (fillKey T) = cs.map .ok) :
    buildKeys T buildText cs = l.map fun q => (keyLabel q.1, [readBack T buildText q.2]) := by
  induction l generalizing cs with
  | nil =>
    obtain rfl := List.map_eq_nil_iff.1 h.symm
    simp [buildKeys]
  | cons q l ih =>
    obtain ⟨v, hq, hv⟩ := hl q List.mem_cons_self
    obtain ⟨k, p⟩ := q
    dsimp only at hq
    subst hq
    rw [List.forall_mem_cons] at hl
    cases cs with
    | nil => cases h
    | cons c cs =>
      obtain ⟨hc, hcs⟩ := List.cons.inj h
      obtain ⟨node, rfl, hnode⟩ := (fillKey_iff hv).1 hc
      rw [buildKeys, if_neg (by rw [nodeType_keyLabel]; decide), ih hl.2 hcs, List.map_cons, readBack_of_fill hnode,
        buildEach_cons (element_of_fill hnode)]
      simp [buildEach]

/-- The values that make the round trip can be written into a map. -/
theorem exists_fillKeys {l : List (String × Option (Value D))}
    (hl : ∀ q ∈ l, ∃ v, q.2 = some v ∧ (tagName v).isSome)
    (h : ∀ k v, (k, some v) ∈ l → RoundTrip T buildText v (fresh v)) :
    ∃ cs : List Content, l.map (fillKey T) = cs.map .ok := by
  induction l with
  | nil => exact ⟨[], rfl⟩
  | cons q l ih =>
    obtain ⟨v, hq, hv⟩ := hl q List.mem_cons_self
    obtain ⟨k, p⟩ := q
    dsimp only at hq
    subst hq
    rw [List.forall_mem_cons] at hl
    obtain ⟨cs, hcs⟩ := ih hl.2 fun k' w hw => h k' w (List.mem_cons_of_mem _ hw)
    obtain ⟨node, hnode, -⟩ := h k v List.mem_cons_self
    exact ⟨.node (keyLabel k) [node] :: cs, by
      rw [List.map_cons, List.map_cons, (fillKey_iff hv).2 ⟨node, rfl, hnode⟩, hcs]⟩

/-! ## Round trips -/

/-- A value that is written as a text makes the round trip exactly when its text is read so. -/
theorem roundTrip_text {v : Value D} {node : Content} (text : String)
    (hfill : fillWithValue T v node = .ok (fillText node.label.nodeName text node)) (hseen : v.seen = v)
    (hcs : node.children.length ≤ 1 ∧ ∀ ch ∈ node.children, ch.label.nodeType = .text)
    {p : Prop} (hbuild : ∀ t, firstText [t] = text →
      (buildValue T buildText (.node node.label [t]) = .ok (some v) ↔ p)) :
    RoundTrip T buildText v node ↔ p := by
  obtain ⟨t, ht, htext⟩ := fillText_holds text rfl hcs
  rw [ht] at hfill
  rw [RoundTrip, hfill, hseen, ← hbuild t htext]
  constructor
  · rintro ⟨node', hnode', h⟩
    cases hnode'
    exact h
  · intro h
    exact ⟨_, rfl, h⟩

theorem toBool_zero : toBool "0" = false := by decide

theorem toBool_one : toBool "1" = true := by decide

theorem roundTrip_boolean (b : Bool) {node : Content} (h : Holds (.boolean b : Value D) node) :
    RoundTrip T buildText (.boolean b) node := by
  have hname : node.label.nodeName = "boolean" := (Option.some.inj h.tag).symm
  refine (roundTrip_text (p := True) (if b then "1" else "0") ?_ (by simp [Value.seen]) (h.text rfl)
    fun t ht => ?_).2 trivial
  · rw [hname]
    simp [fillWithValue]
  · simp only [buildValue, hname, ht, if_true, List.length_singleton, ne_eq, not_true_eq_false, if_false,
      iff_true]
    cases b
    · exact congrArg (fun b => Except.ok (some (Value.boolean b))) toBool_zero
    · exact congrArg (fun b => Except.ok (some (Value.boolean b))) toBool_one

theorem roundTrip_integer {n : ℤ} (hn : -2 ^ 31 ≤ n ∧ n < 2 ^ 31) {node : Content}
    (h : Holds (.integer n : Value D) node) : RoundTrip T buildText (.integer n) node := by
  have hname : node.label.nodeName = "integer" := (Option.some.inj h.tag).symm
  refine (roundTrip_text (p := True) (toString n) ?_ (by simp [Value.seen]) (h.text rfl)
    fun t ht => ?_).2 trivial
  · rw [hname]
    simp [fillWithValue]
  · simpa [buildValue, hname, ht] using toInt_toString hn

theorem roundTrip_double {d : D} (hd : T.Exact d) {node : Content}
    (h : Holds (.double d : Value D) node) : RoundTrip T buildText (.double d) node := by
  have hname : node.label.nodeName = "double" := (Option.some.inj h.tag).symm
  refine (roundTrip_text (p := True) (T.writeString d) ?_ (by simp [Value.seen]) (h.text rfl)
    fun t ht => ?_).2 trivial
  · rw [hname]
    simp [fillWithValue]
  · simp [buildValue, hname, ht, hd.double]

theorem roundTrip_string (s : String) {node : Content} (h : Holds (.string s : Value D) node) :
    RoundTrip T buildText (.string s) node := by
  have hname : node.label.nodeName = "string" := (Option.some.inj h.tag).symm
  refine (roundTrip_text (p := True) s ?_ (by simp [Value.seen]) (h.text rfl)
    fun t ht => ?_).2 trivial
  · rw [hname]
    simp [fillWithValue]
  · simp [buildValue, hname, ht]

/-- A tuple is read again exactly when it is not empty: an empty text is split into one part. -/
theorem roundTrip_tuple_iff {t : List D} (ht : ∀ d ∈ t, T.Exact d) {node : Content}
    (h : Holds (.tuple t : Value D) node) : RoundTrip T buildText (.tuple t) node ↔ t ≠ [] := by
  have hname : node.label.nodeName = "tuple" := (Option.some.inj h.tag).symm
  refine roundTrip_text (" ".intercalate (t.map T.variantString)) ?_ (by simp [Value.seen])
    (h.text rfl) fun txt htxt => ?_
  · rw [hname]
    simp [fillWithValue]
  · simp only [buildValue, hname, htxt, String.toList_intercalate]
    by_cases hnil : t = []
    · subst hnil
      simp
    · have hsplit := @List.splitOn_intercalate _ ((t.map T.variantString).map String.toList) _ _ ' '
        (by
          intro l hl
          simp only [List.mem_map] at hl
          obtain ⟨_, ⟨d, hd, rfl⟩, rfl⟩ := hl
          exact (ht d hd).word) (by simpa using hnil)
      have hlist : (" " : String).toList = [' '] := rfl
      rw [hlist, hsplit]
      have hdoubles : t.map (fun d => T.toDouble (T.variantString d)) = t :=
        (List.map_congr_left fun d hd => (ht d hd).variant).trans (List.map_id t)
      simpa [Function.comp_def, hnil] using hdoubles

/-- A set is read again exactly when its values are. -/
theorem roundTrip_set_iff {l : List (Option (Value D))}
    (hl : ∀ p ∈ l, ∃ v, p = some v ∧ (tagName v).isSome) {node : Content}
    (h : Holds (.set l : Value D) node) :
    RoundTrip T buildText (.set l) node ↔ ∀ v, some v ∈ l → RoundTrip T buildText v (fresh v) := by
  have hname : node.label.nodeName = "set" := (Option.some.inj h.tag).symm
  rw [← map_readBack_iff hl, RoundTrip]
  simp only [fillWithValue, hname, ne_eq, not_true_eq_false, if_false, Except.bind_eq_ok, fillEach_eq,
    Except.mapM_iff, List.map_id]
  constructor
  · rintro ⟨node', ⟨cs, hcs, hnode'⟩, hread⟩
    cases hnode'
    simp only [buildValue, hname] at hread
    obtain ⟨res, hres, hread⟩ := Except.bind_eq_ok.mp hread
    simp only [Value.seen] at hread
    cases hread
    rwa [Except.mapM_iff, List.map_id, buildEach_fillEach hl hcs] at hres
  · intro h
    obtain ⟨cs, hcs⟩ := exists_fillEach hl ((map_readBack_iff hl).1 h)
    refine ⟨_, ⟨cs, hcs, rfl⟩, ?_⟩
    have hres : (buildEach T buildText cs.reduceOption).mapM id = .ok (Value.seenEach l) := by
      rwa [Except.mapM_iff, List.map_id, buildEach_fillEach hl hcs]
    simp [buildValue, hname, Value.seen, hres]

/-- A map is read again exactly when its values are. -/
theorem roundTrip_map_iff {l : List (String × Option (Value D))}
    (hkeys : (l.map Prod.fst).Pairwise (· < ·))
    (hl : ∀ q ∈ l, ∃ v, q.2 = some v ∧ (tagName v).isSome) {node : Content}
    (h : Holds (.map l : Value D) node) :
    RoundTrip T buildText (.map l) node ↔
      ∀ k v, (k, some v) ∈ l → RoundTrip T buildText v (fresh v) := by
  have hname : node.label.nodeName = "map" := (Option.some.inj h.tag).symm
  have hread : (l.map fun q => (q.1, readBack T buildText q.2)) =
      ((Value.seenKeys l).map fun q => (q.1, .ok q.2)) ↔
      ∀ k v, (k, some v) ∈ l → RoundTrip T buildText v (fresh v) := by
    rw [Value.seenKeys_eq, List.map_map, List.map_inj_left]
    constructor
    · intro hall k v hv
      obtain ⟨w, hw, htag⟩ := hl _ hv
      cases hw
      exact (readBack_iff htag).1 (Prod.mk.inj (hall _ hv)).2
    · rintro hall ⟨k, p⟩ hp
      obtain ⟨v, rfl, htag⟩ := hl _ hp
      exact congrArg (Prod.mk k) ((readBack_iff htag).2 (hall k v hp))
  have hbuild : ∀ cs, l.map (fillKey T) = cs.map .ok → ∀ r,
      (buildMap (buildKeys T buildText cs) [] = .ok r ↔
        (l.map fun q => (q.1, readBack T buildText q.2)) = r.map fun q => (q.1, .ok q.2)) := by
    intro cs hcs r
    have hks : ((l.map fun q => (q.1, readBack T buildText q.2)).map Prod.fst).Pairwise (· < ·) := by
      rwa [List.map_map]
    have hiff := buildMap_iff [] (r := r) hks fun q hq => absurd hq List.not_mem_nil
    rw [List.map_map] at hiff
    rw [buildKeys_fillKeys hl hcs]
    refine hiff.trans ⟨?_, fun hr => ⟨r, hr, (List.nil_append r).symm⟩⟩
    rintro ⟨vs, hvs, rfl⟩
    exact hvs
  rw [RoundTrip, ← hread]
  simp only [fillWithValue, hname, ne_eq, not_true_eq_false, if_false, Except.bind_eq_ok, fillKeys_eq,
    Except.mapM_iff, List.map_id]
  constructor
  · rintro ⟨node', ⟨cs, hcs, hnode'⟩, hres⟩
    cases hnode'
    simp only [buildValue, hname] at hres
    obtain ⟨res, hmap, hres⟩ := Except.bind_eq_ok.mp hres
    simp only [Value.seen] at hres
    cases hres
    exact (hbuild cs hcs _).1 hmap
  · intro hall
    obtain ⟨cs, hcs⟩ := exists_fillKeys hl (hread.1 hall)
    refine ⟨_, ⟨cs, hcs, rfl⟩, ?_⟩
    simp [buildValue, hname, Value.seen, (hbuild cs hcs _).2 hall]

end Read

end Vle.Gvle
