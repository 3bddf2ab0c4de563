import Vle.Lib.Rose

/-!
# Documents

The part of the DOM library that the undo stack of the editor uses. A node is a reference, and the nodes
make disjoint ordered trees: that of the document, and those that are not in it, such as clones and nodes
that were replaced. To change a node changes it for whoever refers to it.

The editor finds a node again by a textual query, which names the nodes from the root on. The queries of
the two kinds of documents only differ in the names of the elements (`DomObject`).
-/

namespace Vle.Gvle

open Vle.Lib

inductive NodeType where
  | document
  | element
  | text
  | other
  deriving DecidableEq

/-- What a node shows, apart from its children. -/
structure NodeData where
  nodeType : NodeType
  nodeName : String
  nodeValue : String := ""
  attributes : List (String × String) := []
  deriving DecidableEq

/-- The value of an attribute, or nothing. -/
def attributeValue (node : NodeData) (attrName : String) : String :=
  (node.attributes.lookup attrName).getD ""

/-- What a tree of nodes shows. -/
abbrev Content := Rose NodeData

/-- A reference to a node. -/
abbrev QDomNode := ℕ

/-- A tree of nodes. -/
abbrev NodeTree := Rose (QDomNode × NodeData)

/-- What the nodes of a tree show. -/
def content (t : NodeTree) : Content := t.map Prod.snd

/-- The test for a node. -/
def isNode (n : QDomNode) (a : QDomNode × NodeData) : Bool := a.1 = n

/-- The nodes that there are. The root of the document is no element of it. -/
structure Dom where
  document : NodeTree
  detached : List NodeTree
  nextId : ℕ

namespace Dom

def trees (dom : Dom) : List NodeTree := dom.document :: dom.detached

/-- The tree of a node, wherever it is. -/
def tree? (dom : Dom) (n : QDomNode) : Option NodeTree :=
  (dom.trees.flatMap Rose.subtrees).find? fun s => isNode n s.label

/-- `cloneNode`: a copy of a node with all that is below it, of new nodes. -/
def cloneNode (dom : Dom) (n : QDomNode) : Option QDomNode × Dom :=
  match dom.tree? n with
  | none => (none, dom)
  | some s =>
    (some (dom.nextId + n), {
      document := dom.document
      detached := dom.detached ++ [s.map fun a => (dom.nextId + a.1, a.2)]
      nextId := dom.nextId + dom.nextId })

/-- The trees without the node `n`, which a node takes that it is put below. -/
def takeOut (dom : Dom) (n : QDomNode) : Dom :=
  { dom with
    document := dom.document.erase (isNode n)
    detached := Rose.eraseForest (isNode n) dom.detached }

/-- `replaceChild`, of the parent of the old child. It does nothing when this has no parent or is in the
new child. -/
def replaceChild (dom : Dom) (newChild oldChild : QDomNode) : Dom :=
  match dom.tree? newChild with
  | none => dom
  | some new =>
    let rest := dom.takeOut newChild
    if new.labels.any (isNode oldChild) ∨ dom.trees.any (isNode oldChild ·.label) then dom
    else
      match rest.tree? oldChild with
      | none => dom
      | some old =>
        { rest with
          document := rest.document.modify (isNode oldChild) fun _ => new
          detached := rest.detached.map (·.modify (isNode oldChild) fun _ => new) ++ [old] }

/-- A new element as the last child of a node. -/
def appendElement (dom : Dom) (d : QDomNode) (nodeName : String) : QDomNode × Dom :=
  let new : NodeTree := .node (dom.nextId, { nodeType := .element, nodeName }) []
  let append := Rose.modify (isNode d) fun t => .node t.label (t.children ++ [new])
  (dom.nextId, {
    document := append dom.document
    detached := dom.detached.map append
    nextId := dom.nextId + 1 })

end Dom

mutual

/-- What a node and the nodes above it show, from the node on. -/
def ancestors (n : QDomNode) : NodeTree → Option (List NodeData)
  | .node a cs => if isNode n a then some [a.2] else (ancestorsIn n cs).map (· ++ [a.2])

def ancestorsIn (n : QDomNode) : List NodeTree → Option (List NodeData)
  | [] => none
  | c :: cs => (ancestors n c).orElse fun _ => ancestorsIn n cs

end

/-! ## Queries -/

abbrev Query := List Char

/-- The elements of a kind of document: those that are the only one of their name below a node, those
that are told apart by their attribute `name`, and the root. -/
structure DomObject where
  uniq : List String
  nodeByNames : List String
  root : String

def vleDomVpz : DomObject where
  uniq := ["structures", "submodels", "in", "out", "connections", "classes", "dynamics", "conditions",
    "experiment", "views", "observables"]
  nodeByNames := ["model", "port", "class", "dynamic", "condition", "observable"]
  root := "vle_project"

def vleDomVpm : DomObject where
  uniq := ["condPlugins", "outputGUIplugins"]
  nodeByNames := ["condPlugin", "outputGUIplugin"]
  root := "vle_project_metadata"

namespace DomObject

variable (v : DomObject)

/-- The query of a node, from what it and the nodes above it show. -/
def queryOf : List NodeData → Query
  | [] => []
  | node :: parents =>
    if node.nodeName ∈ v.uniq then
      queryOf parents ++ '/' :: node.nodeName.toList
    else if node.nodeName ∈ v.nodeByNames then
      queryOf parents ++ '/' :: (node.nodeName.toList ++ "[@name=\"".toList ++
        (attributeValue node "name").toList ++ "\"]".toList)
    else if node.nodeName = v.root then
      "./".toList ++ v.root.toList
    else
      []

def getXQuery (dom : Dom) (n : QDomNode) : Query :=
  v.queryOf ((dom.trees.findSome? (ancestors n)).getD [])

/-- The names of a query one after the other, each with whether a dot comes before it. -/
def names : List Query → List (Bool × Query)
  | [] => []
  | [curr] => if curr = [] then [] else [(false, curr)]
  | curr :: next :: rest =>
    if curr = ['.'] then (true, next) :: names rest else (false, curr) :: names (next :: rest)

/-- What a name of a query selects: the root, the only child of its name, or the child with an attribute
`name`. -/
inductive Selector where
  | root
  | uniq (nodeName : Query)
  | byName (nodeName : String) (nameValue : Query)

/-- Whether a child is selected. -/
def Selector.test : Selector → NodeData → Bool
  | root, node => node.nodeType = .element
  | uniq nodeName, node => node.nodeName.toList = nodeName
  | byName nodeName nameValue, node =>
    node.nodeType ≠ .text ∧ node.nodeName = nodeName ∧ (attributeValue node "name").toList = nameValue

/-- What a name selects, with or without a node that it is looked for below. -/
def selector (start : Bool) (name : Bool × Query) : Option Selector :=
  let (dot, curr) := name
  if start then
    if dot ∧ curr = v.root.toList then some .root else none
  else if v.uniq.any fun u => curr = u.toList then
    some (.uniq curr)
  else
    match (v.nodeByNames.filter fun n => n.toList.isPrefixOf curr).getLast? with
    | some n => (curr.splitOn '"')[1]?.map (.byName n)
    | none => none

end DomObject

namespace Dom

/-- The node that is selected below a node. An only child that is missing is added. -/
def select (dom : Dom) (d : QDomNode) (sel : DomObject.Selector) : Option QDomNode × Dom :=
  let children := ((dom.tree? d).map Rose.children).getD []
  match children.find? (sel.test ·.label.2), sel with
  | some c, _ => (some c.label.1, dom)
  | none, .uniq nodeName =>
    let (n, dom) := dom.appendElement d (String.ofList nodeName)
    (some n, dom)
  | none, _ => (none, dom)

end Dom

namespace DomObject

variable (v : DomObject)

/-- `getNodeFromXQuery` from a node on, or from the document. -/
def getNode : List (Bool × Query) → Option QDomNode → Dom → Option QDomNode × Dom
  | [], d, dom => (d, dom)
  | name :: names, d, dom =>
    match v.selector d.isNone name with
    | none => (none, dom)
    | some sel =>
      let (d, dom) := dom.select (d.getD dom.document.label.1) sel
      getNode names d dom

def getNodeFromXQuery (dom : Dom) (query : Query) : Option QDomNode × Dom :=
  v.getNode (names (query.splitOn '/')) none dom

/-- The place that a query leads to, when each of its names selects a node that is there. -/
def place (doc : Content) : List (Bool × Query) → Option (List ℕ) → Option (List ℕ)
  | [], p => p
  | name :: names, p => do
    let sel ← v.selector p.isNone name
    let t ← doc.get? (p.getD [])
    let i ← t.children.findIdx? (sel.test ·.label)
    place doc names (some (p.getD [] ++ [i]))

/-- The place in a document that a query leads to. -/
def placeOf (doc : Content) (query : Query) : Option (List ℕ) :=
  v.place doc (names (query.splitOn '/')) none

end DomObject

/-! ## Nodes and places -/

/-- The nodes of a tree. -/
def ids (t : NodeTree) : List QDomNode := t.labels.map Prod.fst

theorem ids_eq (t : NodeTree) : ids t = t.subtrees.map (·.label.1) := List.map_map

theorem label_mem_ids (t : NodeTree) : t.label.1 ∈ ids t := List.mem_map_of_mem t.label_mem_labels

theorem ids_sublist {s t : NodeTree} (h : s ∈ t.subtrees) : (ids s).Sublist (ids t) :=
  (Rose.labels_sublist h).map _

theorem ids_forest (ts : List NodeTree) : ts.flatMap ids = (ts.flatMap Rose.labels).map Prod.fst :=
  List.map_flatMap.symm

theorem isNode_eq_false {n : QDomNode} {a : QDomNode × NodeData} (h : a.1 ≠ n) : isNode n a = false :=
  decide_eq_false h

/-- A node that is not in a tree is no label of it. -/
theorem isNode_of_not_mem {n : QDomNode} {t : NodeTree} (h : n ∉ ids t) :
    ∀ a ∈ t.labels, isNode n a = false :=
  fun _ ha => isNode_eq_false fun heq => h (heq ▸ List.mem_map_of_mem ha)

theorem countP_isNode {l : List (QDomNode × NodeData)} (h : (l.map Prod.fst).Nodup) (n : QDomNode) :
    l.countP (isNode n) ≤ 1 := by
  have hcount := List.nodup_iff_count_le_one.mp h n
  rw [List.count, List.countP_map] at hcount
  refine le_trans (le_of_eq ?_) hcount
  exact List.countP_congr fun a _ => by simp [isNode]

namespace Dom

/-- No node is twice in the trees, and the next ones are new. -/
structure WellFormed (dom : Dom) : Prop where
  unique : (dom.trees.flatMap ids).Nodup
  fresh : ∀ n ∈ dom.trees.flatMap ids, n < dom.nextId

variable {dom : Dom} {s t : NodeTree} {n : QDomNode} {p : List ℕ}

theorem mem_subtrees_of_document (h : dom.document.get? p = some s) :
    s ∈ dom.trees.flatMap Rose.subtrees :=
  List.mem_flatMap.mpr ⟨_, List.mem_cons_self, Rose.mem_subtrees_of_get? h⟩

theorem mem_subtrees_of_detached (h : s ∈ dom.detached.flatMap Rose.subtrees) :
    s ∈ dom.trees.flatMap Rose.subtrees := by
  rw [trees, List.flatMap_cons]
  exact List.mem_append_right _ h

/-- The tree of a node is found. -/
theorem find?_isNode {l : List NodeTree} (hl : (l.map (·.label.1)).Nodup) (hs : s ∈ l) :
    l.find? (fun t => isNode s.label.1 t.label) = some s := by
  have hsome : (l.find? fun t => isNode s.label.1 t.label).isSome :=
    List.find?_isSome.mpr ⟨s, hs, decide_eq_true rfl⟩
  obtain ⟨t, ht⟩ := Option.isSome_iff_exists.mp hsome
  have hlabel := List.find?_some (p := fun u : NodeTree => isNode s.label.1 u.label) ht
  rw [ht, List.inj_on_of_nodup_map hl (List.mem_of_find?_eq_some ht) hs (of_decide_eq_true hlabel)]

/-- The tree of a node of the document is found in it. -/
theorem tree?_of_document (hdoc : (ids dom.document).Nodup) (hs : dom.document.get? p = some s) :
    dom.tree? s.label.1 = some s := by
  have hmem := Rose.mem_subtrees_of_get? hs
  rw [ids_eq] at hdoc
  rw [tree?, trees, List.flatMap_cons, List.find?_append, find?_isNode hdoc hmem, Option.some_or]

/-- A node of the tree at a place is at this place or below it. -/
theorem prefix_of_mem_ids {q r : List ℕ} {u : NodeTree} (hdoc : (ids dom.document).Nodup)
    (hs : dom.document.get? q = some s) (hu : dom.document.get? r = some u) (hmem : u.label.1 ∈ ids s) :
    q <+: r := by
  rw [ids_eq] at hmem
  obtain ⟨t, ht, hlabel⟩ := List.mem_map.mp hmem
  obtain ⟨r', hr'⟩ := Rose.exists_get? ht
  have hbelow : dom.document.get? (q ++ r') = some t := by rw [Rose.get?_append, hs]; exact hr'
  exact ⟨r', Rose.place_unique Prod.fst hdoc hbelow hu hlabel⟩

namespace WellFormed

/-- Trees of one node are one tree. -/
theorem eq_of_label (h : dom.WellFormed) (hs : s ∈ dom.trees.flatMap Rose.subtrees)
    (ht : t ∈ dom.trees.flatMap Rose.subtrees) (hlabel : s.label.1 = t.label.1) : s = t := by
  have hunique := h.unique
  simp only [funext ids_eq, ← List.map_flatMap] at hunique
  exact List.inj_on_of_nodup_map hunique hs ht hlabel

theorem tree?_eq (h : dom.WellFormed) (hs : s ∈ dom.trees.flatMap Rose.subtrees) :
    dom.tree? s.label.1 = some s := by
  have hunique := h.unique
  simp only [funext ids_eq, ← List.map_flatMap] at hunique
  exact find?_isNode hunique hs

theorem document_nodup (h : dom.WellFormed) : (ids dom.document).Nodup := by
  have := h.unique
  rw [trees, List.flatMap_cons] at this
  exact (List.nodup_append.mp this).1

theorem detached_nodup (h : dom.WellFormed) : (dom.detached.flatMap ids).Nodup := by
  have := h.unique
  rw [trees, List.flatMap_cons] at this
  exact (List.nodup_append.mp this).2.1

/-- A node of the document is in no other tree. -/
theorem disjoint (h : dom.WellFormed) (hn : n ∈ ids dom.document) : n ∉ dom.detached.flatMap ids := by
  have := h.unique
  rw [trees, List.flatMap_cons] at this
  exact fun hd => (List.nodup_append.mp this).2.2 n hn n hd rfl

end WellFormed

end Dom

/-! ## Clones and replaced nodes -/

namespace Dom

variable {dom : Dom} {s new old : NodeTree} {p : List ℕ}

theorem content_eq (f : QDomNode → QDomNode) (s : NodeTree) :
    content (s.map fun a => (f a.1, a.2)) = content s :=
  Rose.map_map _ _ s

theorem ids_map (f : QDomNode → QDomNode) (s : NodeTree) :
    ids (s.map fun a => (f a.1, a.2)) = (ids s).map f := by
  simp only [ids, Rose.labels_map, List.map_map]
  rfl

/-- A clone shows what its node shows, and is made of new nodes. -/
theorem WellFormed.cloneNode (h : dom.WellFormed) (hs : s ∈ dom.trees.flatMap Rose.subtrees) :
    ∃ clone next, dom.cloneNode s.label.1 = (some clone.label.1,
        { dom with detached := dom.detached ++ [clone], nextId := next }) ∧
      content clone = content s ∧ (∀ n ∈ ids clone, dom.nextId ≤ n) ∧
      WellFormed { dom with detached := dom.detached ++ [clone], nextId := next } := by
  have hids : ∀ n ∈ ids s, n < dom.nextId := by
    intro n hn
    obtain ⟨t, ht, hst⟩ := List.mem_flatMap.mp hs
    exact h.fresh n (List.mem_flatMap.mpr ⟨t, ht, (ids_sublist hst).subset hn⟩)
  have hclone := ids_map (dom.nextId + ·) s
  have hnew : ∀ n ∈ ids (s.map fun a => (dom.nextId + a.1, a.2)),
      dom.nextId ≤ n ∧ n < dom.nextId + dom.nextId := by
    intro n hn
    rw [hclone] at hn
    obtain ⟨m, hm, rfl⟩ := List.mem_map.mp hn
    exact ⟨Nat.le_add_right _ _, Nat.add_lt_add_left (hids m hm) _⟩
  refine ⟨s.map fun a => (dom.nextId + a.1, a.2), dom.nextId + dom.nextId, ?_, content_eq _ s,
    fun n hn => (hnew n hn).1, ?_, ?_⟩
  · rw [Dom.cloneNode, h.tree?_eq hs, Rose.label_map]
  · have hunique := h.unique
    rw [trees, List.flatMap_cons] at hunique ⊢
    rw [List.flatMap_append, List.flatMap_singleton, ← List.append_assoc]
    refine List.nodup_append.mpr ⟨hunique, ?_, fun a ha b hb hab => ?_⟩
    · rw [hclone]
      refine List.Nodup.map (fun a b hab => Nat.add_left_cancel hab) ?_
      obtain ⟨t, ht, hst⟩ := List.mem_flatMap.mp hs
      have hsub : (ids t).Sublist (dom.trees.flatMap ids) := List.sublist_flatten_of_mem (List.mem_map_of_mem ht)
      exact ((ids_sublist hst).trans hsub).nodup h.unique
    · have hlt := h.fresh a (by rw [trees, List.flatMap_cons]; exact ha)
      exact (hlt.trans_le (hnew b hb).1).ne hab
  · intro n hn
    rw [trees, List.flatMap_cons, List.flatMap_append, List.flatMap_singleton, ← List.append_assoc] at hn
    rcases List.mem_append.mp hn with hn | hn
    · exact Nat.lt_add_right _ (h.fresh n (by rw [trees, List.flatMap_cons]; exact hn))
    · exact (hnew n hn).2

/-- A tree out of the document takes the place of a node of it, whose tree is then out of it. -/
theorem WellFormed.replaceChild (h : dom.WellFormed) (hnew : new ∈ dom.detached.flatMap Rose.subtrees)
    (hold : dom.document.get? p = some old) (hp : p ≠ []) :
    dom.replaceChild new.label.1 old.label.1 = { dom with
        document := dom.document.set p new
        detached := Rose.eraseForest (isNode new.label.1) dom.detached ++ [old] } ∧
      WellFormed { dom with
        document := dom.document.set p new
        detached := Rose.eraseForest (isNode new.label.1) dom.detached ++ [old] } := by
  have hnewtrees := mem_subtrees_of_detached hnew
  have holdtrees := mem_subtrees_of_document hold
  obtain ⟨tnew, htnew, hnewsub⟩ := List.mem_flatMap.mp hnew
  have hnewids : ∀ n ∈ ids new, n ∈ dom.detached.flatMap ids := fun n hn =>
    List.mem_flatMap.mpr ⟨tnew, htnew, (ids_sublist hnewsub).subset hn⟩
  have holdids : ∀ n ∈ ids old, n ∈ ids dom.document := fun n hn =>
    (ids_sublist (Rose.mem_subtrees_of_get? hold)).subset hn
  have holdnew : old.label.1 ∉ ids new := fun hn =>
    h.disjoint (holdids _ (label_mem_ids old)) (hnewids _ hn)
  have hnewdoc : new.label.1 ∉ ids dom.document := fun hn =>
    h.disjoint hn (hnewids _ (label_mem_ids new))
  have herase : dom.document.erase (isNode new.label.1) = dom.document :=
    Rose.erase_of_not (isNode_of_not_mem hnewdoc)
  -- The old node has a parent.
  have hroot : ¬ dom.trees.any (isNode old.label.1 ·.label) = true := by
    rw [List.any_eq_true]
    rintro ⟨t, ht, hlabel⟩
    have heq := h.eq_of_label (List.mem_flatMap.mpr ⟨t, ht, t.self_mem_subtrees⟩) holdtrees
      (of_decide_eq_true hlabel)
    rcases List.mem_cons.mp ht with rfl | ht
    · have := Rose.length_labels_lt hold hp
      rw [heq] at this
      exact absurd this (lt_irrefl _)
    · refine h.disjoint (holdids _ (label_mem_ids old)) (List.mem_flatMap.mpr ⟨t, ht, ?_⟩)
      exact heq ▸ label_mem_ids t
  have herased := Rose.labels_eraseForest hnew (f := isNode new.label.1) (decide_eq_true rfl)
    (countP_isNode (by rw [← ids_forest]; exact h.detached_nodup) _)
  have hreplaced : dom.replaceChild new.label.1 old.label.1 = { dom with
      document := dom.document.set p new
      detached := Rose.eraseForest (isNode new.label.1) dom.detached ++ [old] } := by
    have hin : ¬ (new.labels.any (isNode old.label.1) = true) := by
      rw [List.any_eq_true]
      rintro ⟨a, ha, hlabel⟩
      exact holdnew (of_decide_eq_true hlabel ▸ List.mem_map_of_mem ha)
    have hdocument : dom.document.modify (isNode old.label.1) (fun _ => new) = dom.document.set p new :=
      Rose.modify_eq_set hold (decide_eq_true rfl) (countP_isNode h.document_nodup _)
    have hdetached : (Rose.eraseForest (isNode new.label.1) dom.detached).map
        (·.modify (isNode old.label.1) fun _ => new) =
          Rose.eraseForest (isNode new.label.1) dom.detached := by
      refine (List.map_congr_left fun t ht => Rose.modify_of_not fun a ha => ?_).trans (List.map_id _)
      refine isNode_eq_false fun heq => h.disjoint (holdids _ (label_mem_ids old)) ?_
      rw [ids_forest, ← heq]
      exact List.mem_map_of_mem (herased.subset (List.mem_append_left _ (List.mem_flatMap.mpr ⟨t, ht, ha⟩)))
    have htree : (dom.takeOut new.label.1).tree? old.label.1 = some old := by
      refine tree?_of_document (p := p) ?_ ?_
      · rw [takeOut, herase]
        exact h.document_nodup
      · rw [takeOut, herase]
        exact hold
    rw [Dom.replaceChild, h.tree?_eq hnewtrees]
    simp only [hin, hroot, Bool.false_eq_true, or_self, ↓reduceIte, htree]
    simp only [takeOut, herase, hdocument, hdetached]
  refine ⟨hreplaced, ?_⟩
  obtain ⟨rest, hdoc, hset⟩ := Rose.labels_set hold
  have hperm : (trees { dom with
      document := dom.document.set p new
      detached := Rose.eraseForest (isNode new.label.1) dom.detached ++ [old] }).flatMap ids
        |>.Perm (dom.trees.flatMap ids) := by
    rw [ids_forest, ids_forest, trees, trees, List.flatMap_cons, List.flatMap_cons, List.flatMap_append,
      List.flatMap_singleton]
    refine List.Perm.map _ (((hset new).append_right _).trans ?_)
    refine List.Perm.trans ?_ (hdoc.symm.append herased)
    rw [← Multiset.coe_eq_coe]
    simp only [← Multiset.coe_add]
    abel
  exact ⟨hperm.nodup_iff.mpr h.unique, fun n hn => h.fresh n (hperm.subset hn)⟩

/-- A tree out of the document stays where it is when another one is taken from there, neither of which
is in the other. -/
theorem WellFormed.mem_eraseForest (h : dom.WellFormed) (hnew : new ∈ dom.detached.flatMap Rose.subtrees)
    (hs : s ∈ dom.detached.flatMap Rose.subtrees) (hin : new.label.1 ∉ ids s)
    (haround : s.label.1 ∉ ids new) :
    s ∈ (Rose.eraseForest (isNode new.label.1) dom.detached).flatMap Rose.subtrees := by
  refine Rose.mem_eraseForest hs (isNode_of_not_mem hin) fun u hu hlabel hsu => haround ?_
  have heq := h.eq_of_label (mem_subtrees_of_detached hu) (mem_subtrees_of_detached hnew)
    (of_decide_eq_true hlabel)
  rw [← heq, ids_eq]
  exact List.mem_map_of_mem hsu

end Dom

/-- A change of the document below a node: the new tree of the node, and the trees that are taken out
of it. -/
structure Change where
  tree : NodeTree
  removed : List NodeTree
  nextId : ℕ

/-- The nodes are those that were in the tree of the node, and new ones. -/
structure Change.Below (dom : Dom) (s : NodeTree) (c : Change) : Prop where
  label : c.tree.label.1 = s.label.1
  unique : (ids c.tree ++ c.removed.flatMap ids).Nodup
  nodes : ∀ n ∈ ids c.tree ++ c.removed.flatMap ids, n ∈ ids s ∨ dom.nextId ≤ n ∧ n < c.nextId
  next : dom.nextId ≤ c.nextId

/-- The trees after a change below a node. -/
def Dom.change (dom : Dom) (n : QDomNode) (c : Change) : Dom where
  document := dom.document.modify (isNode n) fun _ => c.tree
  detached := dom.detached ++ c.removed
  nextId := c.nextId

theorem Dom.WellFormed.change {dom : Dom} {s : NodeTree} {p : List ℕ} {c : Change} (h : dom.WellFormed)
    (hs : dom.document.get? p = some s) (hc : c.Below dom s) :
    (dom.change s.label.1 c).document = dom.document.set p c.tree ∧
      (dom.change s.label.1 c).WellFormed := by
  have hdocument : (dom.change s.label.1 c).document = dom.document.set p c.tree :=
    Rose.modify_eq_set hs (decide_eq_true rfl) (countP_isNode h.document_nodup _)
  obtain ⟨rest, hdoc, hset⟩ := Rose.labels_set hs
  have hbefore : (dom.trees.flatMap ids).Perm
      (ids s ++ (rest.map Prod.fst ++ dom.detached.flatMap ids)) := by
    rw [trees, List.flatMap_cons]
    refine ((hdoc.map Prod.fst).append_right _).trans ?_
    rw [List.map_append, ← List.append_assoc]
    exact List.perm_append_comm.append_right _
  have hafter : ((dom.change s.label.1 c).trees.flatMap ids).Perm
      ((ids c.tree ++ c.removed.flatMap ids) ++ (rest.map Prod.fst ++ dom.detached.flatMap ids)) := by
    rw [trees, List.flatMap_cons, hdocument, Dom.change, List.flatMap_append]
    refine (((hset c.tree).map Prod.fst).append_right _).trans ?_
    rw [List.map_append, ← Multiset.coe_eq_coe]
    simp only [← Multiset.coe_add, ids]
    abel
  obtain ⟨hs', hrest, hdisjoint⟩ := List.nodup_append.mp (hbefore.nodup_iff.mp h.unique)
  have hold : ∀ n ∈ dom.trees.flatMap ids, n < c.nextId := fun n hn => (h.fresh n hn).trans_le hc.next
  refine ⟨hdocument, hafter.nodup_iff.mpr (List.nodup_append.mpr ⟨hc.unique, hrest, ?_⟩), fun n hn => ?_⟩
  · intro a ha b hb hab
    rcases hc.nodes a ha with ha | ⟨ha, -⟩
    · exact hdisjoint a ha b hb hab
    · have := h.fresh b (hbefore.symm.subset (List.mem_append_right _ hb))
      exact (this.trans_le ha).ne hab.symm
  · rcases List.mem_append.mp (hafter.subset hn) with hn | hn
    · rcases hc.nodes n hn with hn | ⟨-, hn⟩
      · exact hold n (hbefore.symm.subset (List.mem_append_left _ hn))
      · exact hn
    · exact hold n (hbefore.symm.subset (List.mem_append_right _ hn))

/-- What a selector selects below a node of the document. -/
theorem select_eq {dom : Dom} (h : dom.WellFormed) {p : List ℕ} {t : NodeTree} {i : ℕ}
    (ht : dom.document.get? p = some t) (sel : DomObject.Selector)
    (hi : (content t).children.findIdx? (sel.test ·.label) = some i) :
    ∃ c, dom.document.get? (p ++ [i]) = some c ∧
      dom.select t.label.1 sel = (some c.label.1, dom) := by
  obtain ⟨hlt, htest, hbefore⟩ := List.findIdx?_eq_some_iff_getElem.mp hi
  simp only [content, Rose.children_map, List.length_map, List.getElem_map, Rose.label_map] at hlt htest hbefore
  refine ⟨t.children[i], ?_, ?_⟩
  · rw [Rose.get?_append, ht]
    simp [Rose.get?, hlt]
  · have hfind : t.children.find? (sel.test ·.label.2) = some t.children[i] :=
      List.find?_eq_some_iff_getElem.mpr ⟨htest, i, hlt, rfl, fun j hj => by simpa using hbefore j hj⟩
    have htree := h.tree?_eq (Dom.mem_subtrees_of_document ht)
    simp only [Dom.select, htree, Option.map_some, Option.getD_some, hfind]

namespace DomObject

variable (v : DomObject) {dom : Dom}

/-- A query whose names all select a node leads to the node at its place, and changes nothing. -/
theorem getNode_eq (h : dom.WellFormed) (names : List (Bool × Query)) {p q : List ℕ} {t : NodeTree}
    (ht : dom.document.get? p = some t) (hplace : v.place (content dom.document) names (some p) = some q) :
    ∃ s, dom.document.get? q = some s ∧ v.getNode names (some t.label.1) dom = (some s.label.1, dom) := by
  induction names generalizing p t with
  | nil =>
    obtain rfl := Option.some.inj hplace
    exact ⟨t, ht, rfl⟩
  | cons name names ih =>
    obtain ⟨sel, hsel, hbelow⟩ := Option.bind_eq_some_iff.mp hplace
    obtain ⟨t', ht', hchild⟩ := Option.bind_eq_some_iff.mp hbelow
    obtain ⟨i, hi, hrest⟩ := Option.bind_eq_some_iff.mp hchild
    have hcontent : content t = t' := by
      rw [content, Option.getD_some, Rose.get?_map, ht] at ht'
      exact Option.some.inj ht'
    subst hcontent
    obtain ⟨c, hc, hselect⟩ := select_eq h ht sel hi
    obtain ⟨s, hs, hget⟩ := ih hc hrest
    refine ⟨s, hs, ?_⟩
    have hsel : v.selector false name = some sel := hsel
    rw [getNode]
    simp only [Option.isNone_some, hsel, Option.getD_some, hselect]
    exact hget

theorem getNodeFromXQuery_eq (h : dom.WellFormed) {query : Query} {q : List ℕ}
    (hplace : v.placeOf (content dom.document) query = some q) :
    ∃ s, dom.document.get? q = some s ∧ v.getNodeFromXQuery dom query = (some s.label.1, dom) := by
  rw [placeOf] at hplace
  rw [getNodeFromXQuery]
  generalize names (query.splitOn '/') = l at hplace
  cases l with
  | nil => cases hplace
  | cons name names =>
    obtain ⟨sel, hsel, hbelow⟩ := Option.bind_eq_some_iff.mp hplace
    obtain ⟨t', ht', hchild⟩ := Option.bind_eq_some_iff.mp hbelow
    obtain ⟨i, hi, hrest⟩ := Option.bind_eq_some_iff.mp hchild
    obtain rfl : content dom.document = t' := Option.some.inj ht'
    obtain ⟨c, hc, hselect⟩ := select_eq h (p := []) rfl sel hi
    obtain ⟨s, hs, hget⟩ := getNode_eq v h names hc hrest
    refine ⟨s, hs, ?_⟩
    have hsel : v.selector true name = some sel := hsel
    rw [getNode]
    simp only [Option.isNone_none, hsel, Option.getD_none, hselect]
    exact hget

/-- A query leads to a place of the document. -/
theorem isSome_of_placeOf {doc : Content} {query : Query} {q : List ℕ} (h : v.placeOf doc query = some q) :
    (doc.get? q).isSome := by
  have hplace : ∀ (names : List (Bool × Query)) (p : Option (List ℕ)), (∀ p' ∈ p, (doc.get? p').isSome) →
      v.place doc names p = some q → (doc.get? q).isSome := by
    intro names
    induction names with
    | nil => exact fun p hp h => hp q h
    | cons name names ih =>
      intro p _ h
      obtain ⟨sel, -, hbelow⟩ := Option.bind_eq_some_iff.mp h
      obtain ⟨t, ht, hchild⟩ := Option.bind_eq_some_iff.mp hbelow
      obtain ⟨i, hi, hrest⟩ := Option.bind_eq_some_iff.mp hchild
      obtain ⟨hlt, -⟩ := List.findIdx?_eq_some_iff_getElem.mp hi
      refine ih _ (fun p' hp' => ?_) hrest
      obtain rfl := Option.some.inj hp'
      rw [Rose.get?_append, ht]
      simp [Rose.get?, hlt]
  exact hplace _ none (fun p' hp' => by cases hp') h

theorem placeOf_nil (doc : Content) : v.placeOf doc [] = none := rfl

/-- No query leads to the document itself. -/
theorem placeOf_ne_nil {doc : Content} {query : Query} : v.placeOf doc query ≠ some [] := by
  have hlength : ∀ (names : List (Bool × Query)) (p q : List ℕ),
      v.place doc names (some p) = some q → p.length ≤ q.length := by
    intro names
    induction names with
    | nil =>
      intro p q h
      rw [Option.some.inj h]
    | cons name names ih =>
      intro p q h
      obtain ⟨sel, -, h⟩ := Option.bind_eq_some_iff.mp h
      obtain ⟨t, -, h⟩ := Option.bind_eq_some_iff.mp h
      obtain ⟨i, -, h⟩ := Option.bind_eq_some_iff.mp h
      have := ih _ _ h
      simp only [Option.getD_some, List.length_append, List.length_singleton] at this
      omega
  rw [placeOf]
  generalize names (query.splitOn '/') = l
  intro h
  cases l with
  | nil => cases h
  | cons name names =>
    obtain ⟨sel, -, h⟩ := Option.bind_eq_some_iff.mp h
    obtain ⟨t, -, h⟩ := Option.bind_eq_some_iff.mp h
    obtain ⟨i, -, h⟩ := Option.bind_eq_some_iff.mp h
    exact absurd (hlength _ _ _ h) (by simp)

end DomObject

end Vle.Gvle
