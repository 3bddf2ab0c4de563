import Vle.Gvle.Dom
import Vle.Lib.Decimal
import Vle.Lib.FirstFrom

/-!
# New names

The editor proposes names for new elements: `childNameProvider` appends numbers to a prefix until no child
of a node, with a given element name, has the name. With a set of names to leave out, it is called again
for prefixes that have numbers themselves. Both end (`childNameProvider_spec`,
`childNameProviderExclude_spec`), and what they give is new for the children that they look at. Each caller
chooses the element name, and the one for the observables chooses the name of their container
(`newObsNameToDoc_run`). What is new is said in `newNames_iff`.
-/

namespace Vle.Gvle

open Lib

/-! ## The children of a node -/

/-- `childNodes`, nothing for the null node. -/
def childNodes : Option Content → List Content
  | none => []
  | some node => node.children

/-- `DomFunctions::childNodesWithoutText`. -/
def childNodesWithoutText (node : Option Content) (nodeName : String) : List Content :=
  (childNodes node).filter fun ch =>
    ch.label.nodeType ≠ .text ∧ (nodeName = "" ∨ ch.label.nodeName = nodeName)

/-- `DomFunctions::childNames`. -/
def childNames (node : Option Content) (child_node : String) : List String :=
  (childNodesWithoutText node child_node).map fun ch => attributeValue ch.label "name"

/-! ## The providers -/

/-- The name of a turn: the prefix, then the prefix with a number. -/
def numbered (pfx : String) (id_name : ℕ) : String :=
  if 0 < id_name then pfx ++ "_" ++ toString id_name else pfx

/-- `DomFunctions::childNameProvider`, for a number of turns of its loop. -/
def childNameProvider (node : Option Content) (child_node pfx : String) (fuel : ℕ) : Option String :=
  let children := childNodesWithoutText node child_node
  firstFrom (fun id_name =>
    let new_name := numbered pfx id_name
    some (if children.any fun ch => attributeValue ch.label "name" = new_name then none
      else some new_name)) fuel 0

/-- `DomFunctions::childNameProvider` with names to leave out. -/
def childNameProviderExclude (node : Option Content) (child_node pfx : String) (exclude : Finset String)
    (fuel : ℕ) : Option String :=
  firstFrom (fun id_name =>
    (childNameProvider node child_node (numbered pfx id_name) fuel).map fun name =>
      if name ∈ exclude then none else some name) fuel 0

/-! ## The nodes of a document -/

/-- `elementsByTagName`: the elements below a node. -/
def elementsByTagName (node : Option Content) (tag : String) : List Content :=
  ((childNodes node).flatMap Rose.subtrees).filter fun s =>
    s.label.nodeType = .element ∧ s.label.nodeName = tag

/-- `viewsFromDoc`. -/
def viewsFromDoc (doc : Content) : Option Content :=
  (elementsByTagName (elementsByTagName (some doc) "experiment").head? "views").head?

/-- `condsFromDoc`. -/
def condsFromDoc (doc : Content) : Option Content :=
  (elementsByTagName (elementsByTagName (some doc) "experiment").head? "conditions").head?

/-- `dynamicsFromDoc`. -/
def dynamicsFromDoc (doc : Content) : Option Content := (elementsByTagName (some doc) "dynamics").head?

/-- `obsFromViews`. -/
def obsFromViews (node : Option Content) : Option Content :=
  if (node.map fun n => n.label.nodeName) = some "views" then
    (childNodes node).find? fun child => child.label.nodeName = "observables"
  else none

/-- `obsFromDoc`. -/
def obsFromDoc (doc : Content) : Option Content := obsFromViews (viewsFromDoc doc)

/-- `condFromConds` and `obsFromObss`: the first node of a name in the list of a container, which is empty
when this has another element name. -/
def fromContainer (container tag : String) (node : Option Content) (name : String) : Option Content :=
  if (node.map fun n => n.label.nodeName) = some container then
    (elementsByTagName node tag).find? fun child => child.label.attributes.lookup "name" = some name
  else none

def condFromConds : Option Content → String → Option Content := fromContainer "conditions" "condition"

def obsFromObss : Option Content → String → Option Content := fromContainer "observables" "observable"

/-! ## The names of a document -/

def newDynamicNameToDoc (doc : Content) (pfx : String) : ℕ → Option String :=
  childNameProvider (dynamicsFromDoc doc) "dynamic" pfx

def newViewNameToDoc (doc : Content) (pfx : String) : ℕ → Option String :=
  childNameProvider (viewsFromDoc doc) "view" pfx

def newCondNameToDoc (doc : Content) (pfx : String) : ℕ → Option String :=
  childNameProvider (condsFromDoc doc) "condition" pfx

def newCondPortNameToDoc (doc : Content) (cond pfx : String) : ℕ → Option String :=
  childNameProvider (condFromConds (condsFromDoc doc) cond) "port" pfx

/-- The element name is that of the container. -/
def newObsNameToDoc (doc : Content) (pfx : String) : ℕ → Option String :=
  childNameProvider (obsFromDoc doc) "observables" pfx

def newObsPortNameToDoc (doc : Content) (obsName pfx : String) : ℕ → Option String :=
  childNameProvider (obsFromObss (obsFromDoc doc) obsName) "port" pfx

/-- A document of the editor. The elements in a node `observables` are all of the name `observable`. -/
structure VpzDocument where
  doc : Content
  observables : ∀ node ∈ doc.subtrees, node.label.nodeName = "observables" →
    ∀ ch ∈ node.children, ch.label.nodeName ≠ "observables"

/-! ## Numbers in names -/

theorem toList_numbered (pfx : String) (i : ℕ) :
    (numbered pfx i).toList = pfx.toList ++ if 0 < i then '_' :: Nat.toDigits 10 i else [] := by
  unfold numbered
  split_ifs with hi
  · rw [String.toList_append, String.toList_append]
    change _ ++ _ ++ (Nat.repr i).toList = _
    rw [Nat.toList_repr, List.append_assoc]
    rfl
  · rw [List.append_nil]

theorem numbered_prefix (pfx : String) (i : ℕ) : ∃ s, numbered pfx i = pfx ++ s := by
  unfold numbered
  split_ifs
  · exact ⟨_, String.append_assoc⟩
  · exact ⟨"", by simp⟩

/-- The number in a name, in front of what is no digit. -/
theorem number_eq {i : ℕ} {rest : List Char} (h : ∀ c ∈ rest.head?, c.isDigit = false) :
    (Nat.toDigits 10 i ++ rest).takeWhile Char.isDigit = Nat.toDigits 10 i := by
  rw [List.takeWhile_append_of_pos fun c hc => isDigit_of_mem hc]
  cases rest with
  | nil => simp
  | cons c rest => simp [h c rfl]

theorem toDigits_injective {i j : ℕ} (h : Nat.toDigits 10 i = Nat.toDigits 10 j) : i = j := by
  rw [← Nat.ofDigitChars_ten_toDigits (n := i), h, Nat.ofDigitChars_ten_toDigits]

/-- The names of the turns are different. -/
theorem numbered_injective {pfx : String} {i j : ℕ} (h : numbered pfx i = numbered pfx j) : i = j := by
  have hlist := congrArg String.toList h
  rw [toList_numbered, toList_numbered] at hlist
  have htail := List.append_cancel_left hlist
  split_ifs at htail with hi hj hj
  · exact toDigits_injective (List.cons.inj htail).2
  · omega

/-- The names with two numbers are different when the first numbers are, which are not zero. -/
theorem numbered_numbered_injective {pfx : String} {i j k l : ℕ} (hi : 1 ≤ i) (hj : 1 ≤ j)
    (h : numbered (numbered pfx i) k = numbered (numbered pfx j) l) : i = j := by
  have hlist := congrArg String.toList h
  simp only [toList_numbered, if_pos (show 0 < i by omega), if_pos (show 0 < j by omega),
    List.append_assoc] at hlist
  have htail : Nat.toDigits 10 i ++ _ = Nat.toDigits 10 j ++ _ :=
    (List.cons.inj (List.append_cancel_left hlist)).2
  have hrest : ∀ n : ℕ, ∀ c ∈ (if 0 < n then '_' :: Nat.toDigits 10 n else []).head?,
      c.isDigit = false := by
    intro n c hc
    split_ifs at hc
    · obtain rfl := Option.some.inj hc
      rfl
    · cases hc
  have hdigits := congrArg (List.takeWhile Char.isDigit) htail
  rw [number_eq (hrest k), number_eq (hrest l)] at hdigits
  exact toDigits_injective hdigits

/-! ## What the providers give -/

/-- A provider ends, with a name that begins with the prefix and that is neither among the names nor left
out. -/
def Provides (provider : ℕ → Option String) (pfx : String) (names : List String)
    (exclude : Finset String) : Prop :=
  ∃ name, (∃ n, ∀ fuel, n ≤ fuel → provider fuel = some name) ∧ (∃ s, name = pfx ++ s) ∧
    name ∉ names ∧ name ∉ exclude

section Provider

variable (node : Option Content) (child_node pfx : String) (exclude : Finset String)

/-- The test of a turn: a name that no child has. -/
theorem any_name (name : String) :
    ((childNodesWithoutText node child_node).any fun ch => attributeValue ch.label "name" = name) = true ↔
      name ∈ childNames node child_node := by
  simp only [List.any_eq_true, decide_eq_true_eq, childNames, List.mem_map]

/-- The provider gives a name of one of its turns that no child has. -/
theorem childNameProvider_spec : ∃ k, numbered pfx k ∉ childNames node child_node ∧
    ∀ fuel, (childNames node child_node).length < fuel →
      childNameProvider node child_node pfx fuel = some (numbered pfx k) := by
  obtain ⟨k, -, hk, hnot⟩ := exists_notMem (f := numbered pfx) (i := 0)
    (fun _ _ _ _ h => numbered_injective h) (childNames node child_node)
  obtain ⟨j, a, -, hj, hrun⟩ := exists_firstFrom
    (fun i => if (childNodesWithoutText node child_node).any
      fun ch => attributeValue ch.label "name" = numbered pfx i then none else some (numbered pfx i))
    (Nat.zero_le k) (by rw [if_neg fun h => hnot ((any_name ..).1 h)]; rfl)
  simp only [any_name] at hj
  split_ifs at hj with hmem
  obtain rfl := Option.some.inj hj
  exact ⟨j, hmem, fun fuel hfuel => hrun fuel (by omega)⟩

/-- The provider with names to leave out gives such a name that is not left out. -/
theorem childNameProviderExclude_spec :
    Provides (childNameProviderExclude node child_node pfx exclude) pfx (childNames node child_node)
      exclude := by
  -- What the inner search gives for the prefix of each turn.
  choose k hk hrun using fun i => childNameProvider_spec node child_node (numbered pfx i)
  have hinj : ∀ i j, 1 ≤ i → 1 ≤ j → numbered (numbered pfx i) (k i) = numbered (numbered pfx j) (k j) →
      i = j := fun i j hi hj h => numbered_numbered_injective hi hj h
  obtain ⟨i, -, hi, hnot⟩ := exists_notMem hinj exclude.toList
  rw [Finset.mem_toList] at hnot
  obtain ⟨j, a, -, hj, hfirst⟩ := exists_firstFrom
    (fun i => if numbered (numbered pfx i) (k i) ∈ exclude then none
      else some (numbered (numbered pfx i) (k i))) (Nat.zero_le i) (by rw [if_neg hnot]; rfl)
  split_ifs at hj with hmem
  obtain rfl := Option.some.inj hj
  obtain ⟨s, hs⟩ := numbered_prefix (numbered pfx j) (k j)
  obtain ⟨s', hs'⟩ := numbered_prefix pfx j
  refine ⟨_, ⟨(childNames node child_node).length + 1 + i + 1, fun fuel hfuel => ?_⟩,
    ⟨s' ++ s, by rw [hs, hs', String.append_assoc]⟩, hk j, hmem⟩
  have htest : (fun id_name => (childNameProvider node child_node (numbered pfx id_name) fuel).map
      fun name => if name ∈ exclude then none else some name) =
      fun i => some (if numbered (numbered pfx i) (k i) ∈ exclude then none
        else some (numbered (numbered pfx i) (k i))) := by
    funext id_name
    rw [hrun id_name fuel (by omega), Option.map_some]
  rw [childNameProviderExclude, htest]
  exact hfirst fuel (by omega)

/-- The provider without names to leave out. -/
theorem childNameProvider_provides :
    Provides (childNameProvider node child_node pfx) pfx (childNames node child_node) ∅ := by
  obtain ⟨k, hk, hrun⟩ := childNameProvider_spec node child_node pfx
  exact ⟨_, ⟨_, fun fuel hfuel => hrun fuel hfuel⟩, numbered_prefix pfx k, hk, Finset.notMem_empty _⟩

end Provider

/-! ## What is new -/

section Document

variable (D : VpzDocument) (pfx : String)

/-- A child is in the tree of its node. -/
theorem mem_subtrees_of_child {node ch : Content} (h : ch ∈ node.children) : ch ∈ node.subtrees := by
  cases node with
  | node a cs =>
    rw [Rose.subtrees_node]
    exact List.mem_cons_of_mem _ (List.mem_flatMap.2 ⟨ch, h, ch.self_mem_subtrees⟩)

/-- A node found by its element name is in the tree. -/
theorem mem_of_elementsByTagName {node s : Content} {tag : String}
    (h : s ∈ elementsByTagName (some node) tag) : s ∈ node.subtrees := by
  obtain ⟨ch, hch, hs⟩ := List.mem_flatMap.1 (List.mem_filter.1 h).1
  exact Rose.subtrees_trans hs (mem_subtrees_of_child hch)

theorem mem_of_viewsFromDoc {doc views : Content} (h : viewsFromDoc doc = some views) :
    views ∈ doc.subtrees := by
  unfold viewsFromDoc at h
  cases hexp : (elementsByTagName (some doc) "experiment").head? with
  | none =>
    rw [hexp] at h
    cases h
  | some exp =>
    rw [hexp] at h
    exact Rose.subtrees_trans (mem_of_elementsByTagName (List.mem_of_mem_head? h))
      (mem_of_elementsByTagName (List.mem_of_mem_head? hexp))

/-- No node in that of the observables has the element name of their container. -/
theorem childNames_observables : childNames (obsFromDoc D.doc) "observables" = [] := by
  cases hobs : obsFromDoc D.doc with
  | none => rfl
  | some obss =>
    unfold obsFromDoc obsFromViews at hobs
    split_ifs at hobs with hviews
    cases hv : viewsFromDoc D.doc with
    | none =>
      rw [hv] at hviews
      cases hviews
    | some views =>
      rw [hv] at hobs
      have hname : obss.label.nodeName = "observables" := by simpa using List.find?_some hobs
      have hmem : obss ∈ D.doc.subtrees :=
        Rose.subtrees_trans (mem_subtrees_of_child (List.mem_of_find?_eq_some hobs))
          (mem_of_viewsFromDoc hv)
      rw [childNames, List.map_eq_nil_iff, childNodesWithoutText, List.filter_eq_nil_iff]
      intro ch hch
      have hne := D.observables obss hmem hname ch hch
      simp [hne]

/-- The name for a new observable is the prefix. -/
theorem newObsNameToDoc_run {fuel : ℕ} (hfuel : 0 < fuel) :
    newObsNameToDoc D.doc pfx fuel = some pfx := by
  obtain ⟨fuel, rfl⟩ : ∃ n, fuel = n + 1 := ⟨fuel - 1, by omega⟩
  have hnone : ¬ ((childNodesWithoutText (obsFromDoc D.doc) "observables").any
      fun ch => attributeValue ch.label "name" = numbered pfx 0) = true := by
    rw [any_name, childNames_observables]
    exact List.not_mem_nil
  simp only [newObsNameToDoc, childNameProvider, firstFrom, if_neg hnone]
  rfl

/-- The names that the editor proposes are new, those of observables exactly for a prefix that is none. -/
theorem newNames_iff :
    Provides (newDynamicNameToDoc D.doc pfx) pfx (childNames (dynamicsFromDoc D.doc) "dynamic") ∅ ∧
    Provides (newViewNameToDoc D.doc pfx) pfx (childNames (viewsFromDoc D.doc) "view") ∅ ∧
    Provides (newCondNameToDoc D.doc pfx) pfx (childNames (condsFromDoc D.doc) "condition") ∅ ∧
    (∀ cond, Provides (newCondPortNameToDoc D.doc cond pfx) pfx
      (childNames (condFromConds (condsFromDoc D.doc) cond) "port") ∅) ∧
    (Provides (newObsNameToDoc D.doc pfx) pfx (childNames (obsFromDoc D.doc) "observable") ∅ ↔
      pfx ∉ childNames (obsFromDoc D.doc) "observable") ∧
    (∀ obsName, Provides (newObsPortNameToDoc D.doc obsName pfx) pfx
      (childNames (obsFromObss (obsFromDoc D.doc) obsName) "port") ∅) ∧
    (∀ node child_node, Provides (childNameProvider node child_node pfx) pfx
      (childNames node child_node) ∅) ∧
    ∀ node child_node exclude, Provides (childNameProviderExclude node child_node pfx exclude) pfx
      (childNames node child_node) exclude := by
  refine ⟨childNameProvider_provides _ _ _, childNameProvider_provides _ _ _,
    childNameProvider_provides _ _ _, fun _ => childNameProvider_provides _ _ _, ?_,
    fun _ => childNameProvider_provides _ _ _, fun _ _ => childNameProvider_provides _ _ _,
    fun _ _ _ => childNameProviderExclude_spec _ _ _ _⟩
  constructor
  · rintro ⟨name, ⟨n, hrun⟩, -, hnot, -⟩
    have hname := hrun (n + 1) (by omega)
    rw [newObsNameToDoc_run D pfx (by omega)] at hname
    rwa [Option.some.inj hname]
  · intro hnot
    exact ⟨pfx, ⟨1, fun fuel hfuel => newObsNameToDoc_run D pfx hfuel⟩, ⟨"", by simp⟩, hnot,
      Finset.notMem_empty _⟩

/-- An element with a name. -/
def named (nodeName name : String) : Content :=
  .node { nodeType := .element, nodeName, attributes := [("name", name)] } []

/-- An element with children. -/
def element (nodeName : String) (children : List Content) : Content :=
  .node { nodeType := .element, nodeName } children

/-- A document with the observable `obs`. -/
def withObs : VpzDocument where
  doc := .node { nodeType := .document, nodeName := "#document" } [element "vle_project"
    [element "experiment" [element "views" [element "observables" [named "observable" "obs"]]]]]
  observables := by decide

/-- The name of the observable is proposed again. -/
theorem not_newObs_again : ¬ Provides (newObsNameToDoc withObs.doc "obs") "obs"
    (childNames (obsFromDoc withObs.doc) "observable") ∅ := by
  rintro ⟨name, ⟨n, hrun⟩, -, hnot, -⟩
  have hname := hrun (n + 1) (by omega)
  rw [newObsNameToDoc_run withObs "obs" (by omega)] at hname
  obtain rfl := Option.some.inj hname
  exact absurd hnot (by decide)

end Document

end Vle.Gvle
