import Vle.Gvle.Dom
import Vle.Lib.Runs

/-!
# Undo and redo

A `DomDiffStack` keeps, for each edit of a document, an image of the node from before the edit, and at an
undo one from after it. An image is a node: an undo puts it into the document itself and not a copy, where
later undos change it.

What the user sees is a `History`: the documents one after the other, and the one that is shown. The stack
goes along it (`follows_history`) as long as no snapshot is merged while something can be redone, the
stack has room, and no undo takes an image out of the document that another undo has changed since it is
there.
-/

namespace Vle.Gvle

open Vle.Lib

/-- What tells whether two snapshots of a type can be merged. -/
structure MergeArgs where
  query : Option String := none
  queries : Option (List String) := none

/-- An entry of the stack. -/
structure DomDiff where
  nodeBefore : Option QDomNode := none
  nodeAfter : Option QDomNode := none
  query : Query := []
  mergeType : String := "null"
  mergeArgs : Option MergeArgs := none
  source : String := ""
  isDefined : Bool := false

structure DomDiffStack where
  diffs : List DomDiff := []
  prevCurr : ℕ := 0
  curr : ℕ := 0
  saved : ℕ := 0
  currentSource : String := ""
  snapshotEnabled : Bool := true

/-- A document with its stack. The places in the document of the nodes of the entries, from the first
one on, are no part of the code. -/
structure Editor where
  dom : Dom
  stack : DomDiffStack
  places : List (List ℕ) := []

namespace DomDiffStack

/-- An entry that is not in the vector has no value. -/
def modify (stack : DomDiffStack) (i : ℕ) (f : DomDiff → DomDiff) : DomDiffStack :=
  { stack with diffs := stack.diffs.modify i f }

/-- Go to the next entry, which is set, and forget what comes after it. Without room, only the number
changes. -/
def push (stack : DomDiffStack) (f : DomDiff → DomDiff) : DomDiffStack :=
  let curr := stack.curr + 1
  { stack with
    prevCurr := stack.curr
    curr
    diffs := if curr ≥ stack.diffs.length then stack.diffs
      else (stack.diffs.modify curr f).zipIdx.map fun (d, i) => if curr < i then {} else d }

/-- Whether the arguments of two snapshots are the same. There is no answer when those of the entry do
not have what the others have. -/
def sameArgs (stored args : MergeArgs) : Option Bool :=
  match args.query, args.queries with
  | some q2, _ => stored.query.map (· = q2)
  | none, some q2 => stored.queries.map fun q1 =>
      q1.length = q2.length ∧ 0 < q1.length ∧ q1.all fun q1i => q2.any (q1i = ·)
  | none, none => some false

end DomDiffStack

namespace Editor

variable (v : DomObject)

/-- `init` for the root of the document. -/
def init (dom : Dom) (node : QDomNode) (source : String) : Editor :=
  let (before, dom) := dom.cloneNode node
  { dom, stack := {
      diffs := (List.replicate 300 {}).modify 0 fun d => { d with nodeBefore := before }
      currentSource := source } }

/-- Whether a snapshot is merged into the last entry, when that can be told. -/
def isMerged (e : Editor) (node : QDomNode) (mergeType : String) (mergeArgs : Option MergeArgs) :
    Option Bool :=
  if 0 < e.stack.curr ∧ mergeType ≠ "null" ∧ e.stack.curr ≠ e.stack.saved then do
    let d ← e.stack.diffs[e.stack.curr]?
    if d.mergeType = mergeType ∧ d.query = v.getXQuery e.dom node then
      DomDiffStack.sameArgs (← d.mergeArgs) (← mergeArgs)
    else
      some false
  else
    some false

/-- `snapshot`, unless an exception leaves it or an entry outside the stack is read. -/
def snapshot (e : Editor) (node : Option QDomNode) (mergeType : String) (mergeArgs : Option MergeArgs) :
    Option Editor :=
  if ¬ e.stack.snapshotEnabled then some e
  else
    match node with
    | none => some { e with
        places := e.places.take e.stack.curr ++ [[]]
        stack := e.stack.push fun d => { d with
          query := [], nodeBefore := none, mergeType := "null", mergeArgs := none
          source := e.stack.currentSource, isDefined := true } }
    | some node => do
      if ← e.isMerged v node mergeType mergeArgs then return e
      let query := v.getXQuery e.dom node
      let (nodeBefore, dom) :=
        if e.stack.curr + 1 ≥ e.stack.diffs.length then (none, e.dom) else e.dom.cloneNode node
      return {
        dom
        places := e.places.take e.stack.curr ++ [(v.placeOf (content e.dom.document) query).getD []]
        stack := e.stack.push fun d => { d with
          query, nodeBefore, mergeType, mergeArgs, source := e.stack.currentSource, isDefined := true } }

/-- Put a node at the place of what a query leads to. -/
def replaceNode (dom : Dom) (query : Query) (node : Option QDomNode) : Dom :=
  let (currN, dom) := v.getNodeFromXQuery dom query
  match node, currN with
  | some node, some currN => dom.replaceChild node currN
  | _, _ => dom

/-- `undo`, unless an entry outside the stack is read. -/
def undo (e : Editor) : Option Editor :=
  if e.stack.curr = 0 then some e
  else do
    let d ← e.stack.diffs[e.stack.curr]?
    if d.source = e.stack.currentSource ∧ d.isDefined then
      let back := { e.stack with prevCurr := e.stack.curr, curr := e.stack.curr - 1 }
      if d.query = [] then
        return { e with stack := back }
      else
        let (node, dom) := v.getNodeFromXQuery e.dom d.query
        let (nodeAfter, dom) := match node with
          | some node => dom.cloneNode node
          | none => (none, dom)
        return { e with
          dom := replaceNode v dom d.query d.nodeBefore
          stack := back.modify e.stack.curr fun d => { d with nodeAfter } }
    else
      return e

/-- `redo`, unless an entry outside the stack is read. -/
def redo (e : Editor) : Option Editor := do
  let d ← e.stack.diffs[e.stack.curr + 1]?
  if d.isDefined ∧ (d.source = e.stack.currentSource ∨ d.source = "") then
    return { e with
      dom := replaceNode v e.dom d.query d.nodeAfter
      stack := { e.stack with prevCurr := e.stack.curr, curr := e.stack.curr + 1 } }
  else
    return e

/-- `registerSaveState`. -/
def registerSaveState (e : Editor) : Editor :=
  { e with stack := { e.stack with saved := e.stack.curr } }

/-- What the user does. An edit is a snapshot of a node, with the type and the arguments of a mergeable
one, and a change below the node. -/
inductive Action where
  | edit (node : QDomNode) (mergeType : String) (mergeArgs : Option MergeArgs) (change : Change)
  | save
  | undo
  | redo

/-- The editor after an action. -/
def run (e : Editor) : Action → Option Editor
  | .edit node mergeType mergeArgs c => do
    let e ← e.snapshot v (some node) mergeType mergeArgs
    return { e with dom := e.dom.change node c }
  | .save => some e.registerSaveState
  | .undo => e.undo v
  | .redo => e.redo v

/-- A query leads to a node of the document. -/
def Reaches (dom : Dom) (query : Query) (node : QDomNode) (s : NodeTree) (p : List ℕ) : Prop :=
  v.placeOf (content dom.document) query = some p ∧ dom.document.get? p = some s ∧ s.label.1 = node

instance (dom : Dom) (query : Query) (node : QDomNode) (s : NodeTree) (p : List ℕ) :
    Decidable (Reaches v dom query node s p) :=
  inferInstanceAs (Decidable (_ ∧ _ ∧ _))

/-- An edit is of a node that its query leads to, before and after it. -/
def Enabled (e : Editor) : Action → Prop
  | .edit node mergeType mergeArgs c => ∃ s p, Reaches v e.dom (v.getXQuery e.dom node) node s p ∧
      ∀ e', e.snapshot v (some node) mergeType mergeArgs = some e' → c.Below e'.dom s ∧
        Reaches v (e'.dom.change node c) (v.getXQuery e.dom node) node c.tree p
  | _ => True

/-- The place of the node of an entry. -/
def place (e : Editor) (k : ℕ) : List ℕ := e.places.getD (k - 1) []

/-- Whether the entry after the last one that is not undone can be redone. -/
def Redoable (e : Editor) : Prop := ∃ d, e.stack.diffs[e.stack.curr + 1]? = some d ∧ d.isDefined = true

/-- An edit is merged only when there is nothing to redo, and otherwise it and a redo have room. An undo
of an entry takes no image out of the document that was changed there: that of a later entry at or below
its node, such that no entry in between is of this later node or one above it, but one is of a node below. -/
def Meets (e : Editor) : Action → Prop
  | .edit node mergeType mergeArgs _ =>
    (e.isMerged v node mergeType mergeArgs = some true ∧ ¬ e.Redoable) ∨
      (e.isMerged v node mergeType mergeArgs = some false ∧ e.stack.curr + 1 < e.stack.diffs.length)
  | .save => True
  | .undo => ∀ k, e.stack.curr < k → k ≤ e.places.length → e.place e.stack.curr <+: e.place k →
      (∀ i, e.stack.curr < i → i < k → ¬ e.place i <+: e.place k) →
      ∀ i, e.stack.curr < i → i < k → ¬ e.place k <+: e.place i
  | .redo => e.stack.curr + 1 < e.stack.diffs.length

end Editor

/-- What the user sees: the documents one after the other, and which of them is there. -/
structure History where
  docs : List Content
  curr : ℕ

namespace History

/-- An edit opens an entry, after which there is nothing left to redo, or is merged into the last one. An
undo and a redo go to the document before and after, unless there is none. -/
inductive Step : History → Editor.Action → History → Prop
  | opened {docs curr node mergeType mergeArgs c} (doc : Content) :
      Step ⟨docs, curr⟩ (.edit node mergeType mergeArgs c) ⟨docs.take (curr + 1) ++ [doc], curr + 1⟩
  | merged {docs curr node mergeType mergeArgs c} (doc : Content) (hcurr : 0 < curr)
      (hlast : docs.length = curr + 1) :
      Step ⟨docs, curr⟩ (.edit node mergeType mergeArgs c) ⟨docs.set curr doc, curr⟩
  | save {h} : Step h .save h
  | undo {docs curr} : Step ⟨docs, curr⟩ .undo ⟨docs, curr - 1⟩
  | redo {docs curr} : Step ⟨docs, curr⟩ .redo ⟨docs, if curr + 1 < docs.length then curr + 1 else curr⟩

end History

/-- An editor shows a history: the document is there, and what can be undone and redone are its entries. -/
structure Editor.Shows (e : Editor) (h : History) : Prop where
  document : h.docs[h.curr]? = some (content e.dom.document)
  curr : e.stack.curr = h.curr
  defined : ∀ k, (∃ d, e.stack.diffs[k]? = some d ∧ d.isDefined = true) ↔ 0 < k ∧ k < h.docs.length

/-! ## Images -/

/-- The image of an entry from before its edit, or the one from after it. -/
inductive Image where
  | before (k : ℕ)
  | after (k : ℕ)

namespace Image

variable (e : Editor) (h : History)

def node : Image → Option QDomNode
  | before k => e.stack.diffs[k]?.bind (·.nodeBefore)
  | after k => e.stack.diffs[k]?.bind (·.nodeAfter)

/-- The images that the stack can still use as they are. -/
def Live : Image → Prop
  | before k => 0 < k ∧ k < h.docs.length
  | after k => h.curr < k ∧ k < h.docs.length

/-- An image is out of the document and shows this, and no other image is below it. -/
def Stored (x : Image) (c : Content) : Prop :=
  ∃ s ∈ e.dom.detached.flatMap Rose.subtrees, x.node e = some s.label.1 ∧ content s = c ∧
    ∀ y : Image, y.Live h → y ≠ x → ∀ n, y.node e = some n → n ∉ ids s

/-- An image from before an edit is in the document, at the place of its entry, and no entry between it
and the present one is of a node at or above this place. -/
def Attached (k : ℕ) : Prop :=
  ∃ s, e.dom.document.get? (e.place k) = some s ∧ (before k).node e = some s.label.1 ∧
    ∀ i, h.curr < i → i < k → ¬ e.place i <+: e.place k

variable {e h} {e' : Editor} {h' : History} {x : Image} {c : Content}

/-- An image stays when its tree does and the images that are used are the same, or are new nodes. -/
theorem Stored.of (hx : Stored e h x c) (hwell : e.dom.WellFormed) (hnode : x.node e' = x.node e)
    (hsub : ∀ s ∈ e.dom.detached.flatMap Rose.subtrees, x.node e = some s.label.1 →
      (∀ y : Image, y.Live h → y ≠ x → ∀ n, y.node e = some n → n ∉ ids s) →
      s ∈ e'.dom.detached.flatMap Rose.subtrees)
    (hlive : ∀ y : Image, y.Live h' → y ≠ x → ∀ n, y.node e' = some n →
      y.Live h ∧ y.node e = some n ∨ e.dom.nextId ≤ n) : Stored e' h' x c := by
  obtain ⟨s, hs, hlabel, hc, halone⟩ := hx
  refine ⟨s, hsub s hs hlabel halone, hnode.trans hlabel, hc, fun y hy hyx n hn hmem => ?_⟩
  rcases hlive y hy hyx n hn with ⟨hold, hn⟩ | hnew
  · exact halone y hold hyx n hn hmem
  · obtain ⟨t, ht, hst⟩ := List.mem_flatMap.mp hs
    have := hwell.fresh n (List.mem_flatMap.mpr
      ⟨t, List.mem_cons_of_mem _ ht, (ids_sublist hst).subset hmem⟩)
    exact absurd hnew (not_le.mpr this)

end Image

namespace Editor

open Image

variable (v : DomObject)

/-- The documents before and after an entry, which only differ at its place. -/
structure Link (query : Query) (p : List ℕ) (old new : Content) : Prop where
  before : v.placeOf old query = some p
  after : v.placeOf new query = some p
  same : ∃ c, new = old.set p c

/-- What holds of an editor and its history. The images from before the edits that are not undone are
stored. For those that are undone, the images from after them are stored, and the ones from before them are
stored or in the document. -/
structure Inv (e : Editor) (h : History) : Prop where
  wellFormed : e.dom.WellFormed
  enabled : e.stack.snapshotEnabled = true
  shown : e.Shows h
  size : h.docs.length ≤ e.stack.diffs.length
  length : e.places.length + 1 = h.docs.length
  source : ∀ k d, 0 < k → k < h.docs.length → e.stack.diffs[k]? = some d →
    d.source = e.stack.currentSource
  link : ∀ k d old new, 0 < k → e.stack.diffs[k]? = some d → h.docs[k - 1]? = some old →
    h.docs[k]? = some new → Link v d.query (e.place k) old new
  past : ∀ k old b, 0 < k → k ≤ h.curr → h.docs[k - 1]? = some old → old.get? (e.place k) = some b →
    Stored e h (before k) b
  ahead : ∀ k new a, h.curr < k → h.docs[k]? = some new → new.get? (e.place k) = some a →
    Stored e h (after k) a
  back : ∀ k old b, h.curr < k → k < h.docs.length → h.docs[k - 1]? = some old →
    old.get? (e.place k) = some b → Stored e h (before k) b ∨ Attached e h k

variable {v} {e : Editor} {h : History}

theorem Inv.curr_lt (hinv : Inv v e h) : h.curr < h.docs.length :=
  (List.getElem?_eq_some_iff.mp hinv.shown.document).1

/-- What is known of an entry. -/
theorem Inv.entry (hinv : Inv v e h) {k : ℕ} (hk : 0 < k) (hlt : k < h.docs.length) :
    ∃ d old new, e.stack.diffs[k]? = some d ∧ d.isDefined = true ∧ d.source = e.stack.currentSource ∧
      h.docs[k - 1]? = some old ∧ h.docs[k]? = some new ∧ Link v d.query (e.place k) old new := by
  obtain ⟨d, hd, hdefined⟩ := (hinv.shown.defined k).mpr ⟨hk, hlt⟩
  have hold := List.getElem?_eq_getElem (show k - 1 < h.docs.length by omega)
  have hnew := List.getElem?_eq_getElem hlt
  exact ⟨d, _, _, hd, hdefined, hinv.source k d hk hlt hd, hold, hnew, hinv.link k d _ _ hk hd hold hnew⟩

/-- An image that is used is stored, or one from before an undone edit that is in the document. -/
theorem Inv.stored_or_attached (hinv : Inv v e h) {x : Image} (hx : x.Live h) :
    (∃ c, Stored e h x c) ∨ ∃ k, x = before k ∧ h.curr < k ∧ Attached e h k := by
  cases x with
  | before k =>
    obtain ⟨d, old, new, -, -, -, hold, -, hlink⟩ := hinv.entry hx.1 hx.2
    obtain ⟨b, hb⟩ := Option.isSome_iff_exists.mp (v.isSome_of_placeOf hlink.before)
    by_cases hk : k ≤ h.curr
    · exact .inl ⟨b, hinv.past k old b hx.1 hk hold hb⟩
    · rcases hinv.back k old b (by omega) hx.2 hold hb with hstored | hattached
      · exact .inl ⟨b, hstored⟩
      · exact .inr ⟨k, rfl, by omega, hattached⟩
  | after k =>
    obtain ⟨d, old, new, -, -, -, -, hnew, hlink⟩ := hinv.entry (Nat.zero_lt_of_lt hx.1) hx.2
    obtain ⟨a, ha⟩ := Option.isSome_iff_exists.mp (v.isSome_of_placeOf hlink.after)
    exact .inl ⟨a, hinv.ahead k new a hx.1 hnew ha⟩

/-- An image that is stored is not in the document. -/
theorem not_mem_of_stored (hwell : e.dom.WellFormed) {x : Image} {c : Content} (hx : Stored e h x c)
    {n : QDomNode} (hn : x.node e = some n) : n ∉ ids e.dom.document := by
  obtain ⟨s, hs, hlabel, -⟩ := hx
  obtain rfl := Option.some.inj (hlabel.symm.trans hn)
  obtain ⟨t, ht, hst⟩ := List.mem_flatMap.mp hs
  intro hdoc
  exact hwell.disjoint hdoc (List.mem_flatMap.mpr ⟨t, ht, (ids_sublist hst).subset (label_mem_ids s)⟩)

/-- An image is a node that there is. -/
theorem Inv.lt_nextId (hinv : Inv v e h) {x : Image} (hx : x.Live h) {n : QDomNode}
    (hn : x.node e = some n) : n < e.dom.nextId := by
  have hlt : ∀ s ∈ e.dom.trees.flatMap Rose.subtrees, s.label.1 < e.dom.nextId := by
    intro s hs
    obtain ⟨t, ht, hst⟩ := List.mem_flatMap.mp hs
    exact hinv.wellFormed.fresh _ (List.mem_flatMap.mpr ⟨t, ht, (ids_sublist hst).subset (label_mem_ids s)⟩)
  rcases hinv.stored_or_attached hx with ⟨c, s, hs, hlabel, -⟩ | ⟨k, rfl, -, s, hs, hlabel, -⟩
  · obtain rfl := Option.some.inj (hlabel.symm.trans hn)
    exact hlt s (Dom.mem_subtrees_of_detached hs)
  · obtain rfl := Option.some.inj (hlabel.symm.trans hn)
    exact hlt s (Dom.mem_subtrees_of_document hs)

/-- Where an image in a tree of the document is: it is from before an undone edit, at or below the
tree. -/
theorem Inv.attached_of_mem (hinv : Inv v e h) {x : Image} (hx : x.Live h) {n : QDomNode}
    (hn : x.node e = some n) {q : List ℕ} {s : NodeTree} (hs : e.dom.document.get? q = some s)
    (hmem : n ∈ ids s) : ∃ k, x = before k ∧ h.curr < k ∧ q <+: e.place k ∧
      ∀ i, h.curr < i → i < k → ¬ e.place i <+: e.place k := by
  rcases hinv.stored_or_attached hx with ⟨c, hstored⟩ | ⟨k, rfl, hk, u, hu, hlabel, hnone⟩
  · exact absurd ((ids_sublist (Rose.mem_subtrees_of_get? hs)).subset hmem)
      (not_mem_of_stored hinv.wellFormed hstored hn)
  · obtain rfl := Option.some.inj (hlabel.symm.trans hn)
    exact ⟨k, rfl, hk, Dom.prefix_of_mem_ids hinv.wellFormed.document_nodup hs hu hmem, hnone⟩

/-- A place keeps what it shows from one document to a later one when the entries between them are of
nodes that are neither above nor below it. -/
theorem Inv.get?_eq (hinv : Inv v e h) {j m : ℕ} {p : List ℕ} {old new : Content} (hjm : j ≤ m)
    (hold : h.docs[j]? = some old) (hnew : h.docs[m]? = some new)
    (hp : ∀ i, j < i → i ≤ m → ¬ e.place i <+: p ∧ ¬ p <+: e.place i) : new.get? p = old.get? p := by
  induction m, hjm using Nat.le_induction generalizing new with
  | base => rw [Option.some.inj (hold.symm.trans hnew)]
  | succ m hjm ih =>
    obtain ⟨hlt, -⟩ := List.getElem?_eq_some_iff.mp hnew
    obtain ⟨d, mid, new', -, -, -, hmid, hnew', hlink⟩ := hinv.entry (Nat.succ_pos m) hlt
    obtain rfl := Option.some.inj (hnew'.symm.trans hnew)
    have hmid : h.docs[m]? = some mid := hmid
    obtain ⟨c, rfl⟩ := hlink.same
    obtain ⟨habove, hbelow⟩ := hp (m + 1) (by omega) le_rfl
    rw [Rose.get?_set_apart habove hbelow]
    exact ih hmid fun i hi him => hp i hi (by omega)

/-- Saving only changes the number of the saved entry. -/
theorem Inv.save (hinv : Inv v e h) : Inv v e.registerSaveState h := by
  obtain ⟨hwell, henabled, ⟨hdoc, hcurr, hdefined⟩, hsize, hlength, hsource, hlink, hpast, hahead, hback⟩ :=
    hinv
  exact ⟨hwell, henabled, ⟨hdoc, hcurr, hdefined⟩, hsize, hlength, hsource, hlink, hpast, hahead, hback⟩

/-- A tree out of the document takes the place that a query leads to. -/
theorem replaceNode_eq {dom : Dom} (hwell : dom.WellFormed) {query : Query} {p : List ℕ}
    (hplace : v.placeOf (content dom.document) query = some p) {img : NodeTree}
    (himg : img ∈ dom.detached.flatMap Rose.subtrees) : ∃ s, dom.document.get? p = some s ∧
      replaceNode v dom query (some img.label.1) = { dom with
        document := dom.document.set p img
        detached := Rose.eraseForest (isNode img.label.1) dom.detached ++ [s] } ∧
      Dom.WellFormed { dom with
        document := dom.document.set p img
        detached := Rose.eraseForest (isNode img.label.1) dom.detached ++ [s] } := by
  obtain ⟨s, hs, hget⟩ := v.getNodeFromXQuery_eq hwell hplace
  have hp : p ≠ [] := fun hp => v.placeOf_ne_nil (hp ▸ hplace)
  obtain ⟨hreplace, hwell'⟩ := hwell.replaceChild himg hs hp
  refine ⟨s, hs, ?_, hwell'⟩
  rw [replaceNode, hget]
  exact hreplace

/-- An image that is stored stays when another one is put into the document. -/
theorem mem_detached_of_replace {dom : Dom} (hwell : dom.WellFormed) {img s old : NodeTree}
    (himg : img ∈ dom.detached.flatMap Rose.subtrees) (hs : s ∈ dom.detached.flatMap Rose.subtrees)
    (hin : img.label.1 ∉ ids s) (haround : s.label.1 ∉ ids img) :
    s ∈ (Rose.eraseForest (isNode img.label.1) dom.detached ++ [old]).flatMap Rose.subtrees := by
  rw [List.flatMap_append]
  exact List.mem_append_left _ (hwell.mem_eraseForest himg hs hin haround)

/-- What was in the document below a node that is replaced is then out of it. -/
theorem mem_detached_of_below {l : List NodeTree} {old s : NodeTree} (hs : s ∈ old.subtrees) :
    s ∈ (l ++ [old]).flatMap Rose.subtrees := by
  rw [List.flatMap_append, List.flatMap_singleton]
  exact List.mem_append_right _ hs

/-- The images of a stack in which one entry has another image from after its edit. -/
theorem node_modify_after {stack : DomDiffStack} {dom dom' : Dom} {places places' : List (List ℕ)} {j : ℕ}
    {n : Option QDomNode} {x : Image} (hx : x ≠ after j) {stack' : DomDiffStack}
    (hstack : stack'.diffs = stack.diffs.modify j fun d => { d with nodeAfter := n }) :
    x.node { dom := dom', stack := stack', places := places' } = x.node { dom, stack, places } := by
  cases x with
  | before k =>
    simp only [Image.node, hstack, List.getElem?_modify]
    by_cases hjk : j = k
    · cases stack.diffs[k]? <;> simp [hjk]
    · simp [hjk]
  | after k =>
    have hjk : j ≠ k := fun hjk => hx (hjk ▸ rfl)
    simp only [Image.node, hstack, List.getElem?_modify, hjk]
    simp

/-- What an entry has apart from its images. -/
def DomDiff.key (d : DomDiff) : String × Query × Bool := (d.source, d.query, d.isDefined)

/-- An undo and a redo keep the entries apart from their images. -/
theorem Inv.of_entries (hinv : Inv v e h) {e' : Editor} {curr : ℕ} {doc : Content}
    (hwell : e'.dom.WellFormed) (hplaces : e'.places = e.places)
    (henabled : e'.stack.snapshotEnabled = e.stack.snapshotEnabled)
    (hsource : e'.stack.currentSource = e.stack.currentSource)
    (hdiffs : e'.stack.diffs.map DomDiff.key = e.stack.diffs.map DomDiff.key)
    (hcurr : e'.stack.curr = curr) (hdoc : h.docs[curr]? = some doc)
    (hcontent : content e'.dom.document = doc)
    (hpast : ∀ k old b, 0 < k → k ≤ curr → h.docs[k - 1]? = some old → old.get? (e.place k) = some b →
      Stored e' ⟨h.docs, curr⟩ (before k) b)
    (hahead : ∀ k new a, curr < k → h.docs[k]? = some new → new.get? (e.place k) = some a →
      Stored e' ⟨h.docs, curr⟩ (after k) a)
    (hback : ∀ k old b, curr < k → k < h.docs.length → h.docs[k - 1]? = some old →
      old.get? (e.place k) = some b →
      Stored e' ⟨h.docs, curr⟩ (before k) b ∨ Attached e' ⟨h.docs, curr⟩ k) :
    Inv v e' ⟨h.docs, curr⟩ := by
  have hkey : ∀ (k : ℕ) (d' : DomDiff), e'.stack.diffs[k]? = some d' →
      ∃ d : DomDiff, e.stack.diffs[k]? = some d ∧ DomDiff.key d' = DomDiff.key d := by
    intro k d' hd'
    have := congrArg (fun l => l[k]?) hdiffs
    simp only [List.getElem?_map, hd', Option.map_some] at this
    obtain ⟨d, hd, hkey⟩ := Option.map_eq_some_iff.mp this.symm
    exact ⟨d, hd, hkey.symm⟩
  have hplace : ∀ k, e'.place k = e.place k := fun k => by rw [place, place, hplaces]
  refine ⟨hwell, henabled.trans hinv.enabled, ⟨hcontent ▸ hdoc, hcurr, fun k => ?_⟩, ?_,
    hplaces ▸ hinv.length, ?_, ?_, ?_, ?_, ?_⟩
  · refine Iff.trans ?_ (hinv.shown.defined k)
    have := congrArg (fun l => l[k]?.map (·.2.2)) hdiffs
    simp only [List.getElem?_map, Option.map_map] at this
    constructor
    · rintro ⟨d', hd', hdefined⟩
      obtain ⟨d, hd, hkey⟩ := hkey k d' hd'
      exact ⟨d, hd, (congrArg (·.2.2) hkey).symm.trans hdefined⟩
    · rintro ⟨d, hd, hdefined⟩
      rw [hd] at this
      obtain ⟨d', hd', hkey⟩ := Option.map_eq_some_iff.mp this
      exact ⟨d', hd', hkey.trans hdefined⟩
  · have := congrArg List.length hdiffs
    rw [List.length_map, List.length_map] at this
    rw [this]
    exact hinv.size
  · intro k d' hk hlt hd'
    obtain ⟨d, hd, hkey⟩ := hkey k d' hd'
    rw [hsource, show d'.source = d.source from congrArg (·.1) hkey]
    exact hinv.source k d hk hlt hd
  · intro k d' old new hk hd' hold hnew
    obtain ⟨d, hd, hkey⟩ := hkey k d' hd'
    rw [hplace, show d'.query = d.query from congrArg (·.2.1) hkey]
    exact hinv.link k d old new hk hd hold hnew
  · exact fun k old b hk hle hold hb => hpast k old b hk hle hold (hplace k ▸ hb)
  · exact fun k new a hk hnew ha => hahead k new a hk hnew (hplace k ▸ ha)
  · exact fun k old b hk hlt hold hb => hback k old b hk hlt hold (hplace k ▸ hb)

/-- A stored image comes into the document of `e`, at a place from which a tree goes out. -/
structure Put (e e' : Editor) (h h' : History) (p : List ℕ) (x₀ : Image) (img s : NodeTree) : Prop where
  wellFormed : e'.dom.WellFormed
  document : e'.dom.document = e.dom.document.set p img
  places : e'.places = e.places
  docs : h'.docs = h.docs
  out : e.dom.document.get? p = some s
  image : x₀.node e = some img.label.1
  live : x₀.Live h
  alone : ∀ y : Image, y.Live h → y ≠ x₀ → ∀ n, y.node e = some n → n ∉ ids img
  node : ∀ y : Image, y.Live h' →
    y.Live h ∧ y.node e' = y.node e ∨ ¬ y.Live h ∧ ∀ n, y.node e' = some n → e.dom.nextId ≤ n
  stays : ∀ u ∈ e.dom.detached.flatMap Rose.subtrees, img.label.1 ∉ ids u → u.label.1 ∉ ids img →
    u ∈ e'.dom.detached.flatMap Rose.subtrees
  below : ∀ u ∈ s.subtrees, u ∈ e'.dom.detached.flatMap Rose.subtrees

namespace Put

variable {e' : Editor} {h' : History} {p : List ℕ} {x₀ : Image} {img s : NodeTree}

/-- The other images that are stored stay. -/
theorem stored (hput : Put e e' h h' p x₀ img s) (hinv : Inv v e h) {x : Image} {c : Content}
    (hx : x.Live h) (hx' : x.Live h') (hne : x ≠ x₀) (hstored : Stored e h x c) : Stored e' h' x c := by
  have hnode : x.node e' = x.node e := by
    rcases hput.node x hx' with ⟨-, hnode⟩ | ⟨hnot, -⟩
    · exact hnode
    · exact absurd hx hnot
  refine hstored.of hinv.wellFormed hnode (fun u hu hlabel halone => ?_) fun y hy hyx n hn => ?_
  · exact hput.stays u hu (halone x₀ hput.live hne.symm _ hput.image) (hput.alone x hx hne _ hlabel)
  · rcases hput.node y hy with ⟨hlive, hnode⟩ | ⟨-, hfresh⟩
    · exact .inl ⟨hlive, hnode ▸ hn⟩
    · exact .inr (hfresh n hn)

/-- An image in the document that is not at or below the place is still there. -/
theorem attached (hput : Put e e' h h' p x₀ img s) {k : ℕ} (hk : (before k).Live h) (hk' : (before k).Live h')
    (hp : ¬ p <+: e.place k) (hattached : Attached e h k)
    (hnone : ∀ i, h'.curr < i → i < k → h.curr < i ∨ e.place i = p) : Attached e' h' k := by
  obtain ⟨u, hu, hlabel, hbefore⟩ := hattached
  obtain ⟨u', hu', hlabel'⟩ := Rose.exists_get?_set hp hu img
  have hplace : ∀ i, e'.place i = e.place i := fun i => by rw [place, place, hput.places]
  have hnode : (before k).node e' = (before k).node e := by
    rcases hput.node _ hk' with ⟨-, hnode⟩ | ⟨hnot, -⟩
    · exact hnode
    · exact absurd hk hnot
  refine ⟨u', by rw [hplace, hput.document, hu'], by rw [hnode, hlabel, hlabel'], fun i hi hik => ?_⟩
  rw [hplace, hplace]
  rcases hnone i hi hik with hi | hi
  · exact hbefore i hi hik
  · rwa [hi]

/-- An image in the document at or below the place is stored when no other one is below it. -/
theorem takenOut (hput : Put e e' h h' p x₀ img s) (hinv : Inv v e h) {k : ℕ} {b : Content}
    (hk : (before k).Live h) (hk' : (before k).Live h') (hp : p <+: e.place k) (hattached : Attached e h k)
    (hb : (content e.dom.document).get? (e.place k) = some b)
    (hnone : ∀ m, h.curr < m → m ≠ k → (∀ i, h.curr < i → i < m → ¬ e.place i <+: e.place m) →
      ¬ e.place k <+: e.place m) : Stored e' h' (before k) b := by
  obtain ⟨u, hu, hlabel, -⟩ := hattached
  obtain ⟨r, hr⟩ := hp
  have hnode : (before k).node e' = (before k).node e := by
    rcases hput.node _ hk' with ⟨-, hnode⟩ | ⟨hnot, -⟩
    · exact hnode
    · exact absurd hk hnot
  have hus : u ∈ s.subtrees := by
    rw [← hr, Rose.get?_append, hput.out] at hu
    exact Rose.mem_subtrees_of_get? hu
  refine ⟨u, hput.below u hus, by rw [hnode, hlabel], ?_, fun y hy hyk n hn hmem => ?_⟩
  · rw [content, Rose.get?_map, hu] at hb
    exact Option.some.inj hb
  · rcases hput.node y hy with ⟨hlive, hnode⟩ | ⟨-, hfresh⟩
    · obtain ⟨m, rfl, hm, hprefix, hbefore⟩ := hinv.attached_of_mem hlive (hnode ▸ hn) hu hmem
      exact hnone m hm (fun hmk => hyk (by rw [hmk])) hbefore hprefix
    · have hlt := hinv.wellFormed.fresh n (List.mem_flatMap.mpr
        ⟨_, List.mem_cons_self, (ids_sublist (Rose.mem_subtrees_of_get? hu)).subset hmem⟩)
      exact absurd (hfresh n hn) (not_le.mpr hlt)

end Put

/-- An undo gives back the document from before the last entry that is not undone. -/
theorem Inv.undo (hinv : Inv v e h) (hmeets : Meets v e .undo) :
    ∃ e', e.undo v = some e' ∧ Inv v e' ⟨h.docs, h.curr - 1⟩ := by
  have hwell := hinv.wellFormed
  by_cases hzero : h.curr = 0
  · refine ⟨e, ?_, ?_⟩
    · rw [Editor.undo, if_pos (hinv.shown.curr.trans hzero)]
    · obtain ⟨docs, curr⟩ := h
      obtain rfl : curr = 0 := hzero
      exact hinv
  obtain ⟨d, old, new, hd, hdefined, hsource, hold, hnew, hlink⟩ :=
    hinv.entry (Nat.pos_of_ne_zero hzero) hinv.curr_lt
  obtain ⟨c, hc⟩ := hlink.same
  have hcontent : content e.dom.document = new := Option.some.inj (hinv.shown.document.symm.trans hnew)
  obtain ⟨b, hb⟩ := Option.isSome_iff_exists.mp (v.isSome_of_placeOf hlink.before)
  obtain ⟨img, himg, himglabel, hcontentimg, halone⟩ :=
    hinv.past h.curr old b (Nat.pos_of_ne_zero hzero) le_rfl hold hb
  have hnodeBefore : d.nodeBefore = some img.label.1 := by
    rw [Image.node, hd] at himglabel
    exact himglabel
  have hquery : d.query ≠ [] := by
    intro hnil
    have := hlink.after
    rw [hnil, v.placeOf_nil] at this
    cases this
  -- The clone of the node.
  obtain ⟨s, hs, hget⟩ := v.getNodeFromXQuery_eq hwell (hcontent ▸ hlink.after)
  obtain ⟨clone, next, hclone, hcontentclone, hfresh, hwellclone⟩ :=
    hwell.cloneNode (Dom.mem_subtrees_of_document hs)
  have himg' : img ∈ (e.dom.detached ++ [clone]).flatMap Rose.subtrees := by
    rw [List.flatMap_append]
    exact List.mem_append_left _ himg
  obtain ⟨s', hs', hreplace, hwell'⟩ := replaceNode_eq (v := v) hwellclone (hcontent ▸ hlink.after) himg'
  obtain rfl : s = s' := Option.some.inj (hs.symm.trans hs')
  refine ⟨{ e with
    dom := { e.dom with
      document := e.dom.document.set (e.place h.curr) img
      detached := Rose.eraseForest (isNode img.label.1) (e.dom.detached ++ [clone]) ++ [s]
      nextId := next }
    stack := { e.stack with
      prevCurr := e.stack.curr
      curr := h.curr - 1
      diffs := e.stack.diffs.modify h.curr fun d => { d with nodeAfter := some clone.label.1 } } },
    ?_, ?_⟩
  · rw [Editor.undo, if_neg (by rw [hinv.shown.curr]; exact hzero), hinv.shown.curr, hd]
    simp only [Option.bind_eq_bind, Option.bind_some, hsource, hdefined, and_self, if_true, if_neg hquery,
      hget, hclone, hnodeBefore, hreplace]
    rfl
  set e' : Editor := { e with
    dom := { e.dom with
      document := e.dom.document.set (e.place h.curr) img
      detached := Rose.eraseForest (isNode img.label.1) (e.dom.detached ++ [clone]) ++ [s]
      nextId := next }
    stack := { e.stack with
      prevCurr := e.stack.curr
      curr := h.curr - 1
      diffs := e.stack.diffs.modify h.curr fun d => { d with nodeAfter := some clone.label.1 } } } with he'
  -- The images that are used are the ones that were, and the clone.
  have hnode : ∀ x : Image, x ≠ after h.curr → x.node e' = x.node e := fun x hx => node_modify_after hx rfl
  have hafter : (after h.curr).node e' = some clone.label.1 := by
    simp [Image.node, he', hd]
  have hcloneout : clone ∈ e'.dom.detached.flatMap Rose.subtrees := by
    have hlt : img.label.1 < e.dom.nextId := hinv.lt_nextId (x := before h.curr)
      ⟨Nat.pos_of_ne_zero hzero, hinv.curr_lt⟩ himglabel
    have himglt : ∀ n ∈ ids img, n < e.dom.nextId := by
      intro n hn
      obtain ⟨t, ht, hst⟩ := List.mem_flatMap.mp himg
      exact hwell.fresh n (List.mem_flatMap.mpr ⟨t, List.mem_cons_of_mem _ ht, (ids_sublist hst).subset hn⟩)
    refine mem_detached_of_replace hwellclone himg' ?_ (fun hin => not_le.mpr hlt (hfresh _ hin))
      fun hin => not_le.mpr (himglt _ hin) (hfresh _ (label_mem_ids clone))
    rw [List.flatMap_append, List.flatMap_singleton]
    exact List.mem_append_right _ clone.self_mem_subtrees
  have hput : Put e e' h ⟨h.docs, h.curr - 1⟩ (e.place h.curr) (before h.curr) img s := by
    refine ⟨hwell', rfl, rfl, rfl, hs, himglabel, ⟨Nat.pos_of_ne_zero hzero, hinv.curr_lt⟩, halone,
      fun y hy => ?_, fun u hu hin haround => ?_, fun u hu => mem_detached_of_below hu⟩
    · cases y with
      | before k => exact .inl ⟨hy, hnode _ (by simp)⟩
      | after k =>
        by_cases hk : h.curr < k
        · exact .inl ⟨⟨hk, hy.2⟩, hnode _ fun heq => hk.ne' (Image.after.inj heq)⟩
        · obtain rfl : k = h.curr := by
            have : h.curr - 1 < k := hy.1
            omega
          refine .inr ⟨fun hlive => hk hlive.1, fun n hn => ?_⟩
          obtain rfl := Option.some.inj (hafter.symm.trans hn)
          exact hfresh _ (label_mem_ids clone)
    · refine mem_detached_of_replace hwellclone himg' ?_ hin haround
      rw [List.flatMap_append]
      exact List.mem_append_left _ hu
  have hcontent' : content e'.dom.document = old := by
    rw [hput.document, content, Rose.map_set]
    change (content e.dom.document).set (e.place h.curr) (content img) = old
    rw [hcontent, hcontentimg, hc, Rose.set_set, Rose.set_get? hb]
  refine hinv.of_entries hwell' rfl rfl rfl ?_ rfl hold hcontent' ?_ ?_ ?_
  · refine List.ext_getElem? fun k => ?_
    simp only [he', List.getElem?_map, List.getElem?_modify]
    by_cases hk : h.curr = k
    · cases e.stack.diffs[k]? <;> simp [hk, DomDiff.key]
    · simp [hk]
  · intro k old' b' hk hle hold' hb'
    refine hput.stored hinv ⟨hk, ?_⟩ ⟨hk, ?_⟩ ?_ (hinv.past k old' b' hk (by omega) hold' hb')
    · exact lt_of_le_of_lt (by omega) hinv.curr_lt
    · exact lt_of_le_of_lt (by omega) hinv.curr_lt
    · simp only [ne_eq, Image.before.injEq]
      omega
  · intro k new' a hk hnew' ha
    have hlt := (List.getElem?_eq_some_iff.mp hnew').1
    by_cases hkcurr : h.curr < k
    · exact hput.stored hinv ⟨hkcurr, hlt⟩ ⟨hk, hlt⟩ (by simp) (hinv.ahead k new' a hkcurr hnew' ha)
    · obtain rfl : k = h.curr := by omega
      obtain rfl := Option.some.inj (hnew.symm.trans hnew')
      refine ⟨clone, hcloneout, hafter, ?_, fun y hy hne n hn hmem => ?_⟩
      · rw [hcontentclone]
        rw [← hcontent, content, Rose.get?_map, hs] at ha
        exact Option.some.inj ha
      · rcases hput.node y hy with ⟨hlive, hsame⟩ | ⟨hnot, -⟩
        · exact absurd (hfresh n hmem) (not_le.mpr (hinv.lt_nextId hlive (hsame ▸ hn)))
        · cases y with
          | before m => exact hnot hy
          | after m =>
            refine hne (congrArg Image.after ?_)
            have hm : ¬ (h.curr < m ∧ m < h.docs.length) := hnot
            have hm' : h.curr - 1 < m ∧ m < h.docs.length := hy
            omega
  · intro k old' b' hk hlt hold' hb'
    by_cases hkcurr : h.curr < k
    · rcases hinv.back k old' b' hkcurr hlt hold' hb' with hstored | hattached
      · exact .inl (hput.stored hinv ⟨by omega, hlt⟩ ⟨by omega, hlt⟩
          (by simp only [ne_eq, Image.before.injEq]; omega) hstored)
      · have hnone := hattached.choose_spec.2.2
        by_cases hp : e.place h.curr <+: e.place k
        · -- The image goes out of the document, and by the condition nothing was changed below it.
          have hbelow : ∀ i, h.curr < i → i < k → ¬ e.place k <+: e.place i := by
            intro i hi hik
            have hlength := hinv.length
            refine hmeets k ?_ (by omega) ?_ ?_ i ?_ hik
            all_goals rw [hinv.shown.curr]
            · exact hkcurr
            · exact hp
            · exact hnone
            · exact hi
          refine .inl (hput.takenOut hinv ⟨by omega, hlt⟩ ⟨by omega, hlt⟩ hp hattached ?_ ?_)
          · rw [hcontent, ← hb']
            exact (hinv.get?_eq (by omega) hnew hold' fun i hi hik =>
              ⟨hnone i hi (by omega), hbelow i hi (by omega)⟩).symm
          · intro m hm hmk hbefore hkm
            rcases Nat.lt_or_gt_of_ne hmk with hlt' | hgt
            · exact hbelow m hm hlt' hkm
            · exact hbefore k hkcurr hgt hkm
        · refine .inr (hput.attached ⟨by omega, hlt⟩ ⟨by omega, hlt⟩ hp hattached fun i hi hik => ?_)
          by_cases hi' : h.curr < i
          · exact .inl hi'
          · have hi : h.curr - 1 < i := hi
            obtain rfl : i = h.curr := by omega
            exact .inr rfl
    · obtain rfl : k = h.curr := by omega
      refine .inr ⟨img, ?_, ?_, fun i hi hik => ?_⟩
      · change (e'.dom.document).get? (e.place h.curr) = some img
        rw [hput.document]
        exact Rose.get?_set_self (by rw [hs]; rfl) img
      · rw [hnode _ (by simp)]
        exact himglabel
      · have hi : h.curr - 1 < i := hi
        omega

/-- A redo gives back the document after the first entry that is undone. -/
theorem Inv.redo (hinv : Inv v e h) (hroom : e.stack.curr + 1 < e.stack.diffs.length) :
    ∃ e', e.redo v = some e' ∧
      Inv v e' ⟨h.docs, if h.curr + 1 < h.docs.length then h.curr + 1 else h.curr⟩ := by
  have hwell := hinv.wellFormed
  have hcurr := hinv.shown.curr
  by_cases hlast : h.curr + 1 < h.docs.length
  swap
  · -- Nothing can be redone.
    rw [if_neg hlast]
    have hd := List.getElem?_eq_getElem hroom
    refine ⟨e, ?_, hinv⟩
    have hnot : ¬ e.stack.diffs[e.stack.curr + 1].isDefined = true := fun hdefined =>
      hlast (hcurr ▸ ((hinv.shown.defined _).mp ⟨_, hd, hdefined⟩).2)
    rw [Editor.redo, hd]
    simp [hnot]
  rw [if_pos hlast]
  obtain ⟨d, old, new, hd, hdefined, hsource, hold, hnew, hlink⟩ := hinv.entry (Nat.succ_pos h.curr) hlast
  obtain ⟨c, hc⟩ := hlink.same
  have hcontent : content e.dom.document = old := Option.some.inj (hinv.shown.document.symm.trans hold)
  obtain ⟨a, ha⟩ := Option.isSome_iff_exists.mp (v.isSome_of_placeOf hlink.after)
  obtain ⟨img, himg, himglabel, hcontentimg, halone⟩ :=
    hinv.ahead (h.curr + 1) new a (Nat.lt_succ_self _) hnew ha
  have hnodeAfter : d.nodeAfter = some img.label.1 := by
    rw [Image.node, hd] at himglabel
    exact himglabel
  obtain ⟨s, hs, hreplace, hwell'⟩ := replaceNode_eq (v := v) hwell (hcontent ▸ hlink.before) himg
  set e' : Editor := { e with
    dom := { e.dom with
      document := e.dom.document.set (e.place (h.curr + 1)) img
      detached := Rose.eraseForest (isNode img.label.1) e.dom.detached ++ [s] }
    stack := { e.stack with prevCurr := h.curr, curr := h.curr + 1 } } with he'
  have hput : Put e e' h ⟨h.docs, h.curr + 1⟩ (e.place (h.curr + 1)) (after (h.curr + 1)) img s := by
    refine ⟨hwell', rfl, rfl, rfl, hs, himglabel, ⟨Nat.lt_succ_self _, hlast⟩, halone, fun y hy => ?_,
      fun u hu hin haround => mem_detached_of_replace hwell himg hu hin haround,
      fun u hu => mem_detached_of_below hu⟩
    cases y with
    | before k => exact .inl ⟨hy, rfl⟩
    | after k => exact .inl ⟨⟨Nat.lt_of_succ_lt hy.1, hy.2⟩, rfl⟩
  have hcontent' : content e'.dom.document = new := by
    have hac : a = c := by
      rw [hc, Rose.get?_set_self (v.isSome_of_placeOf hlink.before)] at ha
      exact (Option.some.inj ha).symm
    rw [hput.document, content, Rose.map_set]
    change (content e.dom.document).set (e.place (h.curr + 1)) (content img) = new
    rw [hcontent, hcontentimg, hac, hc]
  refine ⟨e', ?_, hinv.of_entries hwell' rfl rfl rfl rfl rfl hnew hcontent' ?_ ?_ ?_⟩
  · rw [Editor.redo, hcurr, hd]
    simp only [Option.bind_eq_bind, Option.bind_some, hsource, hdefined, true_or, and_self, if_true,
      hnodeAfter, hreplace]
    rw [he']
    rfl
  · intro k old' b' hk hle hold' hb'
    have hlt : k < h.docs.length := by omega
    by_cases hkcurr : k ≤ h.curr
    · exact hput.stored hinv ⟨hk, hlt⟩ ⟨hk, hlt⟩ (by simp) (hinv.past k old' b' hk hkcurr hold' hb')
    · obtain rfl : k = h.curr + 1 := by omega
      rcases hinv.back _ old' b' (Nat.lt_succ_self _) hlt hold' hb' with hstored | hattached
      · exact hput.stored hinv ⟨hk, hlt⟩ ⟨hk, hlt⟩ (by simp) hstored
      · refine hput.takenOut hinv ⟨hk, hlt⟩ ⟨hk, hlt⟩ List.prefix_rfl hattached ?_ ?_
        · rw [hcontent, ← hb']
          rw [Option.some.inj (hold.symm.trans hold')]
        · intro m hm hmk hbefore
          exact hbefore (h.curr + 1) (Nat.lt_succ_self _) (by omega)
  · intro k new' a' hk hnew' ha'
    have hlt := (List.getElem?_eq_some_iff.mp hnew').1
    refine hput.stored hinv ⟨by omega, hlt⟩ ⟨hk, hlt⟩ ?_ (hinv.ahead k new' a' (by omega) hnew' ha')
    simp only [ne_eq, Image.after.injEq]
    omega
  · intro k old' b' hk hlt hold' hb'
    rcases hinv.back k old' b' (by omega) hlt hold' hb' with hstored | hattached
    · exact .inl (hput.stored hinv ⟨by omega, hlt⟩ ⟨by omega, hlt⟩ (by simp) hstored)
    · have hp := hattached.choose_spec.2.2 (h.curr + 1) (Nat.lt_succ_self _) hk
      refine .inr (hput.attached ⟨by omega, hlt⟩ ⟨by omega, hlt⟩ hp hattached fun i hi _ => .inl ?_)
      have hi : h.curr + 1 < i := hi
      omega

/-- A merged edit changes the last document, when nothing can be redone. -/
theorem Inv.editMerged (hinv : Inv v e h) {node : QDomNode} {mergeType : String}
    {mergeArgs : Option MergeArgs} {c : Change} (henabled : Enabled v e (.edit node mergeType mergeArgs c))
    (hmerged : e.isMerged v node mergeType mergeArgs = some true) (hredo : ¬ e.Redoable) :
    ∃ e' h', e.run v (.edit node mergeType mergeArgs c) = some e' ∧
      History.Step h (.edit node mergeType mergeArgs c) h' ∧ Inv v e' h' := by
  have hcurr := hinv.shown.curr
  have hlast : h.docs.length = h.curr + 1 := by
    by_contra hne
    have := hinv.curr_lt
    exact hredo ((hinv.shown.defined _).mpr ⟨Nat.succ_pos _, by omega⟩)
  obtain ⟨hpos, dd, hdd, hquery⟩ : 0 < h.curr ∧ ∃ d, e.stack.diffs[h.curr]? = some d ∧
      d.query = v.getXQuery e.dom node := by
    rw [isMerged, hcurr] at hmerged
    split_ifs at hmerged with hcond
    obtain ⟨d, hd, hrest⟩ := Option.bind_eq_some_iff.mp hmerged
    split_ifs at hrest with hsame
    · exact ⟨hcond.1, d, hd, hsame.2⟩
    · cases hrest
    · cases hmerged
  obtain ⟨s, p, ⟨hplace, hs, rfl⟩, hchange⟩ := henabled
  have hsnapshot : e.snapshot v (some s.label.1) mergeType mergeArgs = some e := by
    simp [snapshot, hinv.enabled, hmerged]
  obtain ⟨hbelow, hplace', hs', -⟩ := hchange e hsnapshot
  obtain ⟨hdocument, hwell'⟩ := hinv.wellFormed.change hs hbelow
  obtain ⟨d, old, new, hd, -, -, hold, hnew, hlink⟩ := hinv.entry hpos hinv.curr_lt
  obtain rfl := Option.some.inj (hdd.symm.trans hd)
  have hcontent : content e.dom.document = new := Option.some.inj (hinv.shown.document.symm.trans hnew)
  have hp : e.place h.curr = p := by
    have := hlink.after
    rw [← hcontent, hquery, hplace] at this
    exact (Option.some.inj this).symm
  set e' : Editor := { e with dom := e.dom.change s.label.1 c } with he'
  have hcontent' : content e'.dom.document = new.set p (content c.tree) := by
    rw [← hcontent, he']
    dsimp only
    rw [hdocument, content, Rose.map_set]
    rfl
  refine ⟨e', ⟨h.docs.set h.curr (content e'.dom.document), h.curr⟩, ?_, .merged _ hpos hlast, ?_⟩
  · rw [run, hsnapshot]
    rfl
  have hlen : (h.docs.set h.curr (content e'.dom.document)).length = h.docs.length := List.length_set
  have hdocs : ∀ k, k < h.curr → (h.docs.set h.curr (content e'.dom.document))[k]? = h.docs[k]? :=
    fun k hk => List.getElem?_set_ne (Nat.ne_of_gt hk)
  refine ⟨hwell', hinv.enabled, ⟨List.getElem?_set_self hinv.curr_lt, hcurr, fun k => ?_⟩, ?_, ?_,
    ?_, ?_, ?_, ?_, ?_⟩
  · rw [hlen]
    exact hinv.shown.defined k
  · rw [hlen]
    exact hinv.size
  · rw [hlen]
    exact hinv.length
  · rw [hlen]
    exact hinv.source
  · intro k d' old' new' hk hd' hold' hnew'
    have hklt : k < (h.docs.set h.curr (content e'.dom.document)).length :=
      (List.getElem?_eq_some_iff.mp hnew').1
    rw [hdocs (k - 1) (by omega)] at hold'
    by_cases hkcurr : k = h.curr
    · subst hkcurr
      rw [List.getElem?_set_self hinv.curr_lt] at hnew'
      obtain rfl := Option.some.inj hnew'
      obtain rfl := Option.some.inj (hold.symm.trans hold')
      obtain rfl := Option.some.inj (hd.symm.trans hd')
      obtain ⟨b, hb⟩ := hlink.same
      refine ⟨hlink.before, ?_, content c.tree, ?_⟩
      · rw [hquery]
        exact hp ▸ hplace'
      · rw [hcontent', hb, ← hp, Rose.set_set]
        rfl
    · rw [hdocs k (by omega)] at hnew'
      exact hinv.link k d' old' new' hk hd' hold' hnew'
  · intro k old' b hk hle hold' hb
    rw [hdocs (k - 1) (by have : k ≤ h.curr := hle; omega)] at hold'
    refine (hinv.past k old' b hk hle hold' hb).of hinv.wellFormed rfl (fun u hu _ _ => ?_)
      fun y hy _ n hn => .inl ⟨?_, hn⟩
    · exact List.mem_flatMap.mpr (by
        obtain ⟨t, ht, hut⟩ := List.mem_flatMap.mp hu
        exact ⟨t, List.mem_append_left _ ht, hut⟩)
    · cases y with
      | before m => exact ⟨hy.1, hlen ▸ hy.2⟩
      | after m => exact ⟨hy.1, hlen ▸ hy.2⟩
  · intro k new' a hk hnew'
    have hlt : k < (h.docs.set h.curr (content e'.dom.document)).length :=
      (List.getElem?_eq_some_iff.mp hnew').1
    have hk : h.curr < k := hk
    omega
  · intro k old' b hk hlt
    have hk : h.curr < k := hk
    have hlt : k < (h.docs.set h.curr (content e'.dom.document)).length := hlt
    omega

theorem push_lt {stack : DomDiffStack} {f : DomDiff → DomDiff} {k : ℕ} (hk : k < stack.curr + 1) :
    (stack.push f).diffs[k]? = stack.diffs[k]? := by
  simp only [DomDiffStack.push]
  split_ifs
  · rfl
  · rw [List.getElem?_map, List.getElem?_zipIdx, List.getElem?_modify]
    have hne : stack.curr + 1 ≠ k := by omega
    have hle : ¬ stack.curr + 1 < k := by omega
    cases stack.diffs[k]? <;> simp [hne, hle]

theorem push_curr {stack : DomDiffStack} (hroom : stack.curr + 1 < stack.diffs.length)
    (f : DomDiff → DomDiff) :
    (stack.push f).diffs[stack.curr + 1]? = stack.diffs[stack.curr + 1]?.map f := by
  simp only [DomDiffStack.push, if_neg (show ¬ stack.curr + 1 ≥ stack.diffs.length by omega)]
  rw [List.getElem?_map, List.getElem?_zipIdx, List.getElem?_modify]
  cases stack.diffs[stack.curr + 1]? <;> simp

theorem push_gt {stack : DomDiffStack} (hroom : stack.curr + 1 < stack.diffs.length)
    {f : DomDiff → DomDiff} {k : ℕ} {d : DomDiff} (hk : stack.curr + 1 < k)
    (hd : (stack.push f).diffs[k]? = some d) : d = {} := by
  simp only [DomDiffStack.push, if_neg (show ¬ stack.curr + 1 ≥ stack.diffs.length by omega)] at hd
  rw [List.getElem?_map, List.getElem?_zipIdx, Option.map_map] at hd
  obtain ⟨d', -, rfl⟩ := Option.map_eq_some_iff.mp hd
  rw [Function.comp_apply, Nat.zero_add, if_pos hk]

theorem length_push (stack : DomDiffStack) (f : DomDiff → DomDiff) :
    (stack.push f).diffs.length = stack.diffs.length := by
  simp only [DomDiffStack.push]
  split_ifs <;> simp

/-- An edit that is not merged opens an entry, when there is room for it. -/
theorem Inv.editOpened (hinv : Inv v e h) {node : QDomNode} {mergeType : String}
    {mergeArgs : Option MergeArgs} {c : Change} (henabled : Enabled v e (.edit node mergeType mergeArgs c))
    (hmerged : e.isMerged v node mergeType mergeArgs = some false)
    (hroom : e.stack.curr + 1 < e.stack.diffs.length) :
    ∃ e' h', e.run v (.edit node mergeType mergeArgs c) = some e' ∧
      History.Step h (.edit node mergeType mergeArgs c) h' ∧ Inv v e' h' := by
  have hcurr := hinv.shown.curr
  obtain ⟨s, p, ⟨hplace, hs, rfl⟩, hchange⟩ := henabled
  obtain ⟨clone, next, hclone, hcontentclone, hfresh, hwellclone⟩ :=
    hinv.wellFormed.cloneNode (Dom.mem_subtrees_of_document hs)
  set entry : DomDiff → DomDiff := fun d => { d with
    query := v.getXQuery e.dom s.label.1, nodeBefore := some clone.label.1, mergeType, mergeArgs
    source := e.stack.currentSource, isDefined := true } with hentry
  set e₁ : Editor := {
    dom := { e.dom with detached := e.dom.detached ++ [clone], nextId := next }
    places := e.places.take e.stack.curr ++ [p]
    stack := e.stack.push entry } with he₁
  have hsnapshot : e.snapshot v (some s.label.1) mergeType mergeArgs = some e₁ := by
    rw [snapshot, if_neg (by rw [hinv.enabled]; exact not_not.mpr rfl)]
    simp only [hmerged, Option.bind_eq_bind, Option.bind_some, Bool.false_eq_true, if_false,
      if_neg (show ¬ e.stack.curr + 1 ≥ e.stack.diffs.length by omega), hclone, hplace, Option.getD_some]
    rfl
  obtain ⟨hbelow, hplace', -, -⟩ := hchange e₁ hsnapshot
  have hs₁ : e₁.dom.document.get? p = some s := hs
  obtain ⟨hdocument, hwell'⟩ := hwellclone.change hs₁ hbelow
  set e' : Editor := { e₁ with dom := e₁.dom.change s.label.1 c } with he'
  set doc := content e'.dom.document with hdoc
  have hdoc' : doc = (content e.dom.document).set p (content c.tree) := by
    rw [hdoc, he']
    dsimp only
    rw [hdocument, content, Rose.map_set]
    rfl
  refine ⟨e', ⟨h.docs.take (h.curr + 1) ++ [doc], h.curr + 1⟩, ?_, .opened doc, ?_⟩
  · rw [run, hsnapshot]
    rfl
  have hlt := hinv.curr_lt
  have hlen : (h.docs.take (h.curr + 1) ++ [doc]).length = h.curr + 2 := by
    rw [List.length_append, List.length_take, List.length_singleton]
    omega
  have hdocs : ∀ k, k < h.curr + 1 → (h.docs.take (h.curr + 1) ++ [doc])[k]? = h.docs[k]? := by
    intro k hk
    rw [List.getElem?_append_left (by rw [List.length_take]; omega), List.getElem?_take_of_lt hk]
  have hdocslast : (h.docs.take (h.curr + 1) ++ [doc])[h.curr + 1]? = some doc := by
    rw [List.getElem?_append_right (by rw [List.length_take]; omega), List.length_take]
    simp [show h.curr + 1 - min (h.curr + 1) h.docs.length = 0 by omega]
  have hplaces : h.curr ≤ e.places.length := by
    have := hinv.length
    omega
  have hplaceold : ∀ k, 0 < k → k < h.curr + 1 → e'.place k = e.place k := by
    intro k hk hkcurr
    change (e.places.take e.stack.curr ++ [p]).getD (k - 1) [] = e.places.getD (k - 1) []
    rw [List.getD_eq_getElem?_getD, List.getD_eq_getElem?_getD,
      List.getElem?_append_left (by rw [List.length_take, hcurr]; omega),
      List.getElem?_take_of_lt (by omega)]
  have hplacelast : e'.place (h.curr + 1) = p := by
    change (e.places.take e.stack.curr ++ [p]).getD (h.curr + 1 - 1) [] = p
    rw [List.getD_eq_getElem?_getD,
      List.getElem?_append_right (by rw [List.length_take, hcurr]; omega), List.length_take, hcurr]
    simp [show h.curr - min h.curr e.places.length = 0 by omega]
  have hdiffold : ∀ k, k < h.curr + 1 → e'.stack.diffs[k]? = e.stack.diffs[k]? :=
    fun k hk => push_lt (by omega)
  obtain ⟨d₀, hd₀⟩ : ∃ d, e.stack.diffs[h.curr + 1]? = some d :=
    ⟨_, List.getElem?_eq_getElem (by omega)⟩
  have hdifflast : e'.stack.diffs[h.curr + 1]? = some (entry d₀) := by
    have := push_curr hroom entry
    rw [hcurr, hd₀] at this
    exact this
  have hnodeold : ∀ k, k < h.curr + 1 → (before k).node e' = (before k).node e :=
    fun k hk => by rw [Image.node, Image.node, hdiffold k hk]
  have hnodelast : (before (h.curr + 1)).node e' = some clone.label.1 := by
    rw [Image.node, hdifflast]
    rfl
  have hnone : ∀ k, ¬ (after k).Live ⟨h.docs.take (h.curr + 1) ++ [doc], h.curr + 1⟩ := by
    rintro k ⟨hk, hk'⟩
    have hk' : k < (h.docs.take (h.curr + 1) ++ [doc]).length := hk'
    have hk : h.curr + 1 < k := hk
    omega
  refine ⟨hwell', hinv.enabled, ⟨hdocslast, congrArg (· + 1) hcurr, fun k => ?_⟩, ?_, ?_, ?_, ?_, ?_, ?_, ?_⟩
  · rw [hlen]
    rcases Nat.lt_trichotomy k (h.curr + 1) with hk | rfl | hk
    · rw [hdiffold k hk, hinv.shown.defined k]
      omega
    · exact ⟨fun _ => ⟨by omega, by omega⟩, fun _ => ⟨_, hdifflast, rfl⟩⟩
    · refine ⟨fun hdk => ?_, fun hk' => absurd hk'.2 (by omega)⟩
      obtain ⟨d, hd, hdefined⟩ := hdk
      rw [push_gt hroom (by omega) hd] at hdefined
      cases hdefined
  · have := length_push e.stack entry
    rw [hlen]
    change h.curr + 2 ≤ (e.stack.push entry).diffs.length
    omega
  · change (e.places.take e.stack.curr ++ [p]).length + 1 = _
    rw [hlen, List.length_append, List.length_take, List.length_singleton]
    omega
  · intro k d hk hk' hd
    rw [hlen] at hk'
    by_cases hklast : k = h.curr + 1
    · subst hklast
      obtain rfl := Option.some.inj (hdifflast.symm.trans hd)
      rfl
    · rw [hdiffold k (by omega)] at hd
      exact hinv.source k d hk (by omega) hd
  · intro k d old new hk hd hold hnew
    have hk' := (List.getElem?_eq_some_iff.mp hnew).1
    rw [hlen] at hk'
    rw [hdocs (k - 1) (by omega)] at hold
    by_cases hklast : k = h.curr + 1
    · subst hklast
      obtain rfl := Option.some.inj (hdifflast.symm.trans hd)
      obtain rfl := Option.some.inj (hdocslast.symm.trans hnew)
      obtain rfl : content e.dom.document = old := Option.some.inj (hinv.shown.document.symm.trans hold)
      rw [hplacelast]
      exact ⟨hplace, hplace', content c.tree, hdoc'⟩
    · rw [hdiffold k (by omega)] at hd
      rw [hdocs k (by omega)] at hnew
      rw [hplaceold k hk (by omega)]
      exact hinv.link k d old new hk hd hold hnew
  · intro k old b hk hle hold hb
    have hle : k ≤ h.curr + 1 := hle
    rw [hdocs (k - 1) (by omega)] at hold
    by_cases hklast : k = h.curr + 1
    · subst hklast
      obtain rfl : content e.dom.document = old := Option.some.inj (hinv.shown.document.symm.trans hold)
      refine ⟨clone, ?_, hnodelast, ?_, fun y hy hne n hn hmem => ?_⟩
      · exact List.mem_flatMap.mpr ⟨clone, List.mem_append_left _ (List.mem_append_right _ (List.mem_singleton_self _)),
          clone.self_mem_subtrees⟩
      · rw [hcontentclone]
        rw [hplacelast, content, Rose.get?_map, hs] at hb
        exact Option.some.inj hb
      · cases y with
        | after m => exact hnone m hy
        | before m =>
          have hm : 0 < m ∧ m < (h.docs.take (h.curr + 1) ++ [doc]).length := hy
          have hmne : m ≠ h.curr + 1 := fun heq => hne (congrArg Image.before heq)
          rw [hnodeold m (by omega)] at hn
          have hlive : (before m).Live h := ⟨hm.1, by omega⟩
          exact absurd (hfresh n hmem) (not_le.mpr (hinv.lt_nextId hlive hn))
    · rw [hplaceold k hk (by omega)] at hb
      refine (hinv.past k old b hk (by omega) hold hb).of hinv.wellFormed (hnodeold k (by omega))
        (fun u hu _ _ => ?_) fun y hy _ n hn => ?_
      · obtain ⟨t, ht, hut⟩ := List.mem_flatMap.mp hu
        exact List.mem_flatMap.mpr ⟨t, List.mem_append_left _ (List.mem_append_left _ ht), hut⟩
      · cases y with
        | after m => exact absurd hy (hnone m)
        | before m =>
          have hm : 0 < m ∧ m < (h.docs.take (h.curr + 1) ++ [doc]).length := hy
          by_cases hmlast : m = h.curr + 1
          · subst hmlast
            obtain rfl := Option.some.inj (hnodelast.symm.trans hn)
            exact .inr (hfresh _ (label_mem_ids clone))
          · rw [hnodeold m (by omega)] at hn
            exact .inl ⟨⟨hm.1, by omega⟩, hn⟩
  · intro k new a hk hnew
    have hk' := (List.getElem?_eq_some_iff.mp hnew).1
    exact absurd ⟨hk, hk'⟩ (hnone k)
  · intro k old b hk hk'
    exact absurd ⟨hk, hk'⟩ (hnone k)

/-- Every action that meets its condition goes along the history. -/
theorem Inv.run (hinv : Inv v e h) {a : Action} (henabled : Enabled v e a) (hmeets : Meets v e a) :
    ∃ e' h', e.run v a = some e' ∧ History.Step h a h' ∧ Inv v e' h' := by
  obtain ⟨docs, curr⟩ := h
  cases a with
  | edit node mergeType mergeArgs c =>
    rcases hmeets with ⟨hmerged, hredo⟩ | ⟨hmerged, hroom⟩
    · exact hinv.editMerged henabled hmerged hredo
    · exact hinv.editOpened henabled hmerged hroom
  | save => exact ⟨_, _, rfl, .save, hinv.save⟩
  | undo =>
    obtain ⟨e', hrun, hinv'⟩ := hinv.undo hmeets
    exact ⟨e', _, hrun, .undo, hinv'⟩
  | redo =>
    obtain ⟨e', hrun, hinv'⟩ := hinv.redo hmeets
    exact ⟨e', _, hrun, .redo, hinv'⟩

/-- A new stack has nothing to undo and nothing to redo. -/
theorem init_inv {dom : Dom} (hwell : dom.WellFormed) (node : QDomNode) (source : String) :
    Inv v (init dom node source) ⟨[content dom.document], 0⟩ := by
  have hdom : (init dom node source).dom.document = dom.document ∧
      (init dom node source).dom.WellFormed := by
    rw [init]
    cases htree : dom.tree? node with
    | none => simpa [Dom.cloneNode, htree] using hwell
    | some s =>
      rw [Dom.tree?] at htree
      have hlabel := List.find?_some (p := fun u : NodeTree => isNode node u.label) htree
      obtain rfl : s.label.1 = node := of_decide_eq_true hlabel
      obtain ⟨clone, next, hclone, -, -, hwell'⟩ := hwell.cloneNode (List.mem_of_find?_eq_some htree)
      rw [hclone]
      exact ⟨rfl, hwell'⟩
  have hdiffs : ∀ (k : ℕ) (d : DomDiff), (init dom node source).stack.diffs[k]? = some d →
      d.isDefined = false := by
    intro k d hd
    rw [init] at hd
    simp only [List.getElem?_modify, List.getElem?_replicate] at hd
    split_ifs at hd <;> simp at hd <;> simp [← hd]
  have hlen : (init dom node source).stack.diffs.length = 300 := by
    rw [init]
    dsimp only
    rw [List.length_modify, List.length_replicate]
  refine ⟨hdom.2, rfl, ⟨?_, rfl, fun k => ⟨fun hdk => ?_, fun hk => ?_⟩⟩, ?_, rfl, ?_, ?_, ?_,
    ?_, ?_⟩
  · rw [hdom.1]
    rfl
  · obtain ⟨d, hd, hdefined⟩ := hdk
    rw [hdiffs k d hd] at hdefined
    cases hdefined
  · have hk' : k < 1 := hk.2
    omega
  · rw [hlen]
    exact (by decide : 1 ≤ 300)
  · intro k d hk hk'
    have hk' : k < 1 := hk'
    omega
  · intro k d old new hk _ _ hnew
    have hk' : k < 1 := (List.getElem?_eq_some_iff.mp hnew).1
    omega
  · intro k old b hk hle
    have hle : k ≤ 0 := hle
    omega
  · intro k new a hk hnew
    have hk' : k < 1 := (List.getElem?_eq_some_iff.mp hnew).1
    have hk : 0 < k := hk
    omega
  · intro k old b hk hk'
    have hk' : k < 1 := hk'
    have hk : 0 < k := hk
    omega

/-- For every document, the undo stack goes along a history in every run whose steps meet their
conditions. -/
theorem follows_history (v : DomObject) {dom : Dom} (hwell : dom.WellFormed) (node : QDomNode)
    (source : String) {actions : List Action}
    (henabled : Along (Editor.run v) (Enabled v) (init dom node source) actions)
    (hmeets : Along (Editor.run v) (Meets v) (init dom node source) actions) :
    Follows (Editor.run v) History.Step Shows (init dom node source) ⟨[content dom.document], 0⟩ actions :=
  follows_of_inv (fun _ _ hinv => hinv.shown) (fun _ _ _ hinv hen hme => hinv.run hen hme)
    (init_inv hwell node source) henabled hmeets

/-- A document with an empty project. -/
def sample : Dom where
  document := .node (0, { nodeType := .document, nodeName := "#document" })
    [.node (1, { nodeType := .element, nodeName := "vle_project" }) []]
  detached := []
  nextId := 2

/-- The project with a date. -/
def sampleChange (node : QDomNode) (date : String) (nextId : ℕ) : Change where
  tree := .node (node, { nodeType := .element, nodeName := "vle_project", attributes := [("date", date)] }) []
  removed := []
  nextId

/-- An edit of the date of the project. -/
def sampleEdit (node : QDomNode) (mergeType date : String) (nextId : ℕ) : Action :=
  .edit node mergeType (some { query := some "./vle_project" }) (sampleChange node date nextId)

theorem sample_wellFormed : sample.WellFormed :=
  ⟨by decide +kernel, by decide +kernel⟩

/-- Whether the query of the project leads to it before and after an edit of the date. -/
def dateReached (node : QDomNode) (mergeType date : String) (nextId : ℕ) (e : Editor) : Bool :=
  (e.dom.document.get? [0]).any fun s =>
    decide (Reaches vleDomVpz e.dom (vleDomVpz.getXQuery e.dom node) node s [0]) &&
      (e.snapshot vleDomVpz (some node) mergeType (some { query := some "./vle_project" })).all fun e' =>
        decide (e'.dom.nextId ≤ nextId) &&
          decide (Reaches vleDomVpz (e'.dom.change node (sampleChange node date nextId))
            (vleDomVpz.getXQuery e.dom node) node (sampleChange node date nextId).tree [0])

theorem enabled_sampleEdit {e : Editor} {node : QDomNode} {mergeType date : String} {nextId : ℕ}
    (h : dateReached node mergeType date nextId e = true) :
    Enabled vleDomVpz e (sampleEdit node mergeType date nextId) := by
  obtain ⟨s, -, hs⟩ := (Option.any_eq_true _ _).mp h
  obtain ⟨hreaches, hsnapshot⟩ := Bool.and_eq_true_iff.mp hs
  have hreaches := of_decide_eq_true hreaches
  refine ⟨s, [0], hreaches, fun e' he' => ?_⟩
  rw [he', Option.all_some] at hsnapshot
  obtain ⟨hnext, hafter⟩ := Bool.and_eq_true_iff.mp hsnapshot
  refine ⟨⟨hreaches.2.2.symm, List.nodup_singleton _, fun n hn => .inl ?_, of_decide_eq_true hnext⟩,
    of_decide_eq_true hafter⟩
  have hn : n ∈ [node] := hn
  rw [List.mem_singleton.mp hn, ← hreaches.2.2]
  exact label_mem_ids s

/-- The editor after some actions. -/
def runAll (v : DomObject) : Editor → List Action → Option Editor
  | e, [] => some e
  | e, a :: as => (e.run v a).bind fun e => runAll v e as

/-- An edit, an undo and a redo. -/
theorem follows_history_sample : Follows (Editor.run vleDomVpz) History.Step Shows (init sample 1 "gvle")
    ⟨[content sample.document], 0⟩ [sampleEdit 1 "null" "1" 10, .undo, .redo] := by
  have hroom : ∀ e : Editor, (e.stack.curr, e.stack.diffs.length) = (0, 300) →
      e.stack.curr + 1 < e.stack.diffs.length := by
    intro e he
    rw [(Prod.mk.inj he).1, (Prod.mk.inj he).2]
    decide
  refine follows_history vleDomVpz sample_wellFormed 1 "gvle" ?_ ?_
  · exact ⟨enabled_sampleEdit (by decide +kernel),
      fun _ _ => ⟨trivial, fun _ _ => ⟨trivial, fun _ _ => trivial⟩⟩⟩
  · refine ⟨.inr ⟨by decide +kernel, hroom _ (by decide +kernel)⟩,
      fun e₁ he₁ => ⟨fun k hk hle => ?_, fun e₂ he₂ => ⟨hroom e₂ ?_, fun _ _ => trivial⟩⟩⟩
    · have hstate : ((init sample 1 "gvle").run vleDomVpz (sampleEdit 1 "null" "1" 10)).map
          (fun e => (e.stack.curr, e.places.length)) = some (1, 1) := by decide +kernel
      rw [he₁] at hstate
      obtain ⟨hcurr, hplaces⟩ := Prod.mk.inj (Option.some.inj hstate)
      omega
    · have hstate : (runAll vleDomVpz (init sample 1 "gvle") [sampleEdit 1 "null" "1" 10, .undo]).map
          (fun e => (e.stack.curr, e.stack.diffs.length)) = some (0, 300) := by decide +kernel
      rw [runAll, he₁, Option.bind_some, runAll, he₂] at hstate
      exact Option.some.inj hstate

/-- A date is set, another edit is made and undone, and the date is set again: the snapshot is merged, and
the other edit can still be redone. -/
theorem not_follows_history : ¬ ∀ (v : DomObject) (dom : Dom) (node : QDomNode) (source : String)
    (actions : List Action), dom.WellFormed →
    Along (Editor.run v) (Enabled v) (init dom node source) actions →
    Follows (Editor.run v) History.Step Shows (init dom node source) ⟨[content dom.document], 0⟩
      actions := by
  intro h
  have hfollows := h vleDomVpz sample 1 "gvle"
    [sampleEdit 1 "date" "1" 10, sampleEdit 1 "null" "2" 100, .undo, sampleEdit 11 "date" "3" 1000] sample_wellFormed ?_
  · obtain ⟨-, e₁, h₁, hrun₁, -, -, e₂, h₂, hrun₂, -, -, e₃, h₃, hrun₃, -, hshows₃, e₄, h₄, hrun₄, hstep₄,
      hshows₄⟩ := hfollows
    have hstate₃ : (runAll vleDomVpz (init sample 1 "gvle")
        [sampleEdit 1 "date" "1" 10, sampleEdit 1 "null" "2" 100, .undo]).map
        (fun e => (e.stack.curr, e.stack.diffs[2]?.map (·.isDefined))) = some (1, some true) := by
      decide +kernel
    have hstate₄ : (runAll vleDomVpz (init sample 1 "gvle")
        [sampleEdit 1 "date" "1" 10, sampleEdit 1 "null" "2" 100, .undo, sampleEdit 11 "date" "3" 1000]).map
        (·.stack.curr) = some 1 := by
      decide +kernel
    simp only [runAll, hrun₁, hrun₂, hrun₃, hrun₄, Option.bind_some, Option.map_some, Option.some.injEq,
      Prod.mk.injEq] at hstate₃ hstate₄
    obtain ⟨hcurr₃, hdefined⟩ := hstate₃
    obtain ⟨d, hd, hdefined⟩ := Option.map_eq_some_iff.mp hdefined
    obtain ⟨docs, curr⟩ := h₃
    have hlength : 2 < docs.length := ((hshows₃.defined 2).mp ⟨d, hd, hdefined⟩).2
    have hcurr : curr = 1 := hshows₃.curr.symm.trans hcurr₃
    have hcurr₄ := hshows₄.curr
    cases hstep₄ with
    | opened doc =>
      have hcurr₄ : e₄.stack.curr = curr + 1 := hcurr₄
      omega
    | merged doc hpos hlast => omega
  · refine ⟨enabled_sampleEdit (by decide +kernel), fun e₁ he₁ => ⟨enabled_sampleEdit ?_, fun e₂ he₂ =>
      ⟨trivial, fun e₃ he₃ => ⟨enabled_sampleEdit ?_, fun _ _ => trivial⟩⟩⟩⟩
    · have hreached : (runAll vleDomVpz (init sample 1 "gvle") [sampleEdit 1 "date" "1" 10]).all
          (dateReached 1 "null" "2" 100) = true := by decide +kernel
      rw [runAll, he₁] at hreached
      exact hreached
    · have hreached : (runAll vleDomVpz (init sample 1 "gvle")
          [sampleEdit 1 "date" "1" 10, sampleEdit 1 "null" "2" 100, .undo]).all (dateReached 11 "date" "3" 1000) = true := by
        decide +kernel
      simp only [runAll, he₁, he₂, he₃, Option.bind_some, Option.all_some] at hreached
      exact hreached

end Editor

end Vle.Gvle
