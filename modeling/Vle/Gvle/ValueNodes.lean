import Vle.Gvle.Dom
import Vle.Lib.Decimal
import Vle.Value.Seen
import Vle.Value.Table
import Mathlib.Data.List.ReduceOption
import Mathlib.Data.String.Basic

/-!
# Values in nodes

The editor keeps the value of a port in nodes of its document. `fillWithValue` writes a value into a node
of its tag, and `buildValue` reads the value of a node. Both are defined on what the nodes show. A null
node is nothing; to append it does nothing.

The texts of doubles are those of the platform (`DoubleTexts`). The sizes of tables and matrices go
through `int`: a product that overflows is `Fault.outOfRange`.
-/

namespace Vle.Gvle

open Lib Lib.Storage

/-! ## Texts -/

/-- The texts of doubles: what a `Double`, a `Table` and a `QVariant` write, and what a `QVariant` and
`Table::fill` read. -/
structure DoubleTexts (D : Type) where
  writeString : D → String
  writeCell : D → String
  variantString : D → String
  toDouble : String → D
  lexicalCast : List Char → Option D

/-- `QVariant::toInt` of a text: zero for a text that is no `int`. -/
def toInt (str : String) : ℤ :=
  let digits := afterSign (str.toList.dropWhile isSpace)
  match decimal str.toList with
  | none => 0
  | some n => if (digits.dropWhile Char.isDigit).all isSpace ∧ -2 ^ 31 ≤ n ∧ n < 2 ^ 31 then n else 0

/-- `QVariant::toBool` of a text. -/
def toBool (str : String) : Bool :=
  str.toList.map Char.toLower ∉ ["", "0", "false"].map String.toList

/-- `utils::numeric_cast<int>` of a size. -/
def numericCast (n : ℕ) : Except Fault ℤ :=
  if n < 2 ^ 31 then .ok n
  else .error (.thrown "numeric cast error: loss of range in numeric_cast")

/-- An `int` as a `size_t`. -/
def toSize (n : ℤ) : ℕ := (n % 2 ^ 64).toNat

/-- A product of two `int`. -/
def intMul (m n : ℤ) : Except Fault ℤ :=
  if -2 ^ 31 ≤ m * n ∧ m * n < 2 ^ 31 then .ok (m * n) else .error .outOfRange

/-! ## Nodes -/

/-- `createTextNode`. -/
def textNode (text : String) : Content :=
  .node { nodeType := .text, nodeName := "#text", nodeValue := text } []

/-- `createElement`. -/
def createElement (nodeName : String) : Content := .node { nodeType := .element, nodeName } []

/-- `DomFunctions::setAttributeValue`. -/
def setAttributeValue (node : NodeData) (attrName val : String) : NodeData :=
  { node with
    attributes :=
      if (node.attributes.lookup attrName).isSome then
        node.attributes.map fun a => if a.1 = attrName then (a.1, val) else a
      else node.attributes ++ [(attrName, val)] }

/-- `item(0).toText().nodeValue()` of a list of nodes. -/
def firstText : List Content → String
  | [] => ""
  | ch :: _ => if ch.label.nodeType = .text then ch.label.nodeValue else ""

variable {D : Type}

/-- The tag of a value that the editor has nodes for. -/
def tagName : Value D → Option String
  | .boolean _ => some "boolean"
  | .integer _ => some "integer"
  | .double _ => some "double"
  | .string _ => some "string"
  | .set _ => some "set"
  | .map _ => some "map"
  | .tuple _ => some "tuple"
  | .table .. => some "table"
  | .matrix .. => some "matrix"
  | _ => none

/-- `vleDomStatic::buildEmptyValueFromDoc`, of the type of a value. -/
def buildEmptyValueFromDoc (v : Value D) : Option Content := (tagName v).map createElement

/-! ## Writing -/

/-- The branches of `fillWithValue` that write a text: into a node of a tag that has no child, or a
text. -/
def fillText (tag text : String) (node : Content) : Bool × Content :=
  if node.label.nodeName ≠ tag then (false, node)
  else
    match node.children with
    | [] => (true, .node node.label [textNode text])
    | [ch] =>
      if ch.label.nodeType = .text then
        (true, .node node.label [.node { ch.label with nodeValue := text } ch.children])
      else (false, node)
    | _ => (false, node)

/-- The attributes that the sizes of a matrix are written to. -/
def matrixAttributes (size : MatrixSize) (node : NodeData) : Except Fault NodeData := do
  let columns ← numericCast size.columns
  let rows ← numericCast size.rows
  let columns_max ← numericCast size.columnsMax
  let rows_max ← numericCast size.rowsMax
  let columnstep ← numericCast size.stepColumns
  let rowstep ← numericCast size.stepRows
  return [("columns", columns), ("rows", rows), ("columnmax", columns_max), ("rowmax", rows_max),
    ("columnstep", columnstep), ("rowsstep", rowstep)].foldl
      (fun node a => setAttributeValue node a.1 (toString a.2)) node

/-- The text of a table: that of `Table::writeString`, without brackets, and blanks for commas. -/
def tableText (T : DoubleTexts D) (t : Table D) : Except Fault (List Char) := do
  let lines ← (List.range t.height).mapM fun j => (List.range t.width).mapM fun i => t.get i j
  let line := fun l : List D => "(" ++ ",".intercalate (l.map T.writeCell) ++ ")"
  let strRepr := "(" ++ ",".intercalate (lines.map line) ++ ")"
  return (strRepr.toList.filter (· ∉ ['(', ')'])).map fun c => if c = ',' then ' ' else c

section Write

variable (T : DoubleTexts D)

mutual

/-- `vleDomStatic::fillWithValue`: what it returns, and the node after it. -/
def fillWithValue : Value D → Content → Except Fault (Bool × Content)
  | .boolean b, node => .ok (fillText "boolean" (if b then "1" else "0") node)
  | .integer n, node => .ok (fillText "integer" (toString n) node)
  | .double d, node => .ok (fillText "double" (T.writeString d) node)
  | .string s, node => .ok (fillText "string" s node)
  | .set l, node =>
    if node.label.nodeName ≠ "set" then .ok (false, node)
    else do
      let cs ← (fillEach l).mapM id
      return (true, .node node.label cs.reduceOption)
  | .map l, node =>
    if node.label.nodeName ≠ "map" then .ok (false, node)
    else do
      let cs ← (fillKeys l).mapM id
      return (true, .node node.label cs)
  | .tuple t, node => .ok (fillText "tuple" (" ".intercalate (t.map T.variantString)) node)
  | .table width height t, node =>
    if node.label.nodeName ≠ "table" then .ok (false, node)
    else do
      -- The sizes are cast to `int`, which wraps around.
      let label := setAttributeValue node.label "width" (toString (Int.bmod width (2 ^ 32)))
      let label := setAttributeValue label "height" (toString (Int.bmod height (2 ^ 32)))
      let strRepr ← tableText T ⟨t, width, height⟩
      return fillText "table" (String.ofList strRepr) (.node label node.children)
  | .matrix size cells, node =>
    if node.label.nodeName ≠ "matrix" then .ok (false, node)
    else do
      let label ← matrixAttributes size node.label
      let each := fillEach cells
      let cs ← (Matrix.cells (List.range size.rows) (List.range size.columns)).mapM fun p => do
        let c ← read .outOfRange each (Matrix.position size.columnsMax p.1 p.2)
        c
      return (true, .node label cs.reduceOption)
  | _, node => .ok (false, node)

/-- The nodes made for the pointers of a container, each when it is reached. -/
def fillEach : List (Option (Value D)) → List (Except Fault (Option Content))
  | [] => []
  | none :: l => .error .null :: fillEach l
  | some v :: l =>
    (match buildEmptyValueFromDoc v with
      | none => .ok none
      | some node => (fillWithValue v node).map fun r => some r.2) :: fillEach l

/-- The nodes made for the keys of a map. -/
def fillKeys : List (String × Option (Value D)) → List (Except Fault Content)
  | [] => []
  | (_, none) :: l => .error .null :: fillKeys l
  | (k, some v) :: l =>
    let elem := setAttributeValue (createElement "key").label "name" k
    (match buildEmptyValueFromDoc v with
      | none => .ok (.node elem [])
      | some node => (fillWithValue v node).map fun r => .node elem [r.2]) :: fillKeys l

end

end Write

/-! ## Reading -/

/-- What `buildValue` throws for a node of another tag. -/
def unknownValue (nodeName : String) : Fault := .thrown s!"Unknown value: {nodeName}"

/-- `Map::add`. -/
def mapAdd (m : List (String × Option (Value D))) (name : String) (v : Option (Value D)) :
    List (String × Option (Value D)) :=
  m.takeWhile (·.1 < name) ++ (name, v) :: m.dropWhile (·.1 ≤ name)

/-- The loop over the keys of a map. A key has a label, and what its children without text are read
as. -/
def buildMap : List (NodeData × List (Except Fault (Option (Value D)))) →
    List (String × Option (Value D)) → Except Fault (List (String × Option (Value D)))
  | [], res => .ok res
  | (child, items) :: chs, res =>
    if child.nodeName ≠ "key" then .ok res
    else
      match child.attributes.lookup "name" with
      | none => .ok res
      | some name => do
        -- Without an item the node is null, which has no name.
        let v ← items.headD (.error (unknownValue ""))
        buildMap chs (mapAdd res name v)

/-- A matrix as a value. -/
def toValue (m : Matrix (Value D)) : Value D :=
  .matrix ⟨m.nbcol, m.nbrow, m.nbcolmax, m.nbrowmax, m.stepcol, m.steprow⟩ m.matrix

/-- The branch of `buildValue` for a matrix, over what the children without text are read as. -/
def buildMatrix (node : NodeData) (chs : List (Except Fault (Option (Value D)))) :
    Except Fault (Option (Value D)) := do
  let int := fun attrName => toInt (attributeValue node attrName)
  let columns := int "columns"
  let rows := int "rows"
  let res ← Matrix.ofCapacities maxSize (toSize columns) (toSize rows) (toSize (int "columnmax"))
    (toSize (int "rowmax")) (toSize (int "columnstep")) (toSize (int "rowstep"))
  let size ← intMul columns rows
  if (chs.length : ℤ) ≠ size then return none
  else do
    let mat ← (Matrix.cells (List.range rows.toNat) (List.range columns.toNat)).foldlM (fun mat p => do
      let child ← read .outOfRange chs (p.1 + p.2 * columns.toNat)
      let v ← child
      mat.set p.1 p.2 v) res
    return some (toValue mat)

section Read

variable [Zero D] (T : DoubleTexts D)

/-- The branch of `buildValue` for a table. -/
def buildTable (node : NodeData) (cs : List Content) : Except Fault (Option (Value D)) :=
  if cs.length ≠ 1 then .ok none
  else do
    let width := toInt (attributeValue node "width")
    let height := toInt (attributeValue node "height")
    let t ← Table.ofSize maxSize (toSize width) (toSize height)
    match t.fill T.lexicalCast (firstText cs).toList with
    | .ok _ t => return some (.table t.width t.height t.value)
    | .error e _ => .error e

variable (buildText : Bool)

mutual

/-- `vleDomStatic::buildValue`. -/
def buildValue : Content → Except Fault (Option (Value D))
  | .node a cs =>
    if a.nodeName = "boolean" then
      if cs.length ≠ 1 then .ok none else .ok (some (.boolean (toBool (firstText cs))))
    else if a.nodeName = "integer" then
      if cs.length ≠ 1 then .ok none else .ok (some (.integer (toInt (firstText cs))))
    else if a.nodeName = "double" then
      if cs.length ≠ 1 then .ok none else .ok (some (.double (T.toDouble (firstText cs))))
    else if a.nodeName = "string" then
      if 1 < cs.length then .ok none else .ok (some (.string (firstText cs)))
    else if a.nodeName = "tuple" then
      if 1 < cs.length then .ok none
      else if cs.length = 0 then .ok (some (.tuple []))
      else
        let vals := (firstText cs).toList.splitOn ' '
        .ok (some (.tuple (vals.map fun val => T.toDouble (String.ofList val))))
    else if a.nodeName = "table" then buildTable T a cs
    else if a.nodeName = "#text" then
      .ok (if buildText then some (.string a.nodeValue) else none)
    else if a.nodeName = "set" then do
      let res ← (buildEach cs).mapM id
      return some (.set res)
    else if a.nodeName = "map" then do
      let res ← buildMap (buildKeys cs) []
      return some (.map res)
    else if a.nodeName = "matrix" then buildMatrix a (buildEach cs)
    else .error (unknownValue a.nodeName)

/-- What the nodes of a list that are no text are read as. -/
def buildEach : List Content → List (Except Fault (Option (Value D)))
  | [] => []
  | ch :: chs =>
    if ch.label.nodeType = .text then buildEach chs else buildValue ch :: buildEach chs

/-- The nodes of a list that are no text, and what their children are read as. -/
def buildKeys : List Content → List (NodeData × List (Except Fault (Option (Value D))))
  | [] => []
  | .node a items :: chs =>
    if a.nodeType = .text then buildKeys chs else (a, buildEach items) :: buildKeys chs

end

end Read

/-! ## The values of the editor -/

/-- A double that is printed exactly by all that write doubles. -/
structure DoubleTexts.Exact (T : DoubleTexts D) (d : D) : Prop where
  double : T.toDouble (T.writeString d) = d
  variant : T.toDouble (T.variantString d) = d
  word : ' ' ∉ (T.variantString d).toList
  cell : T.lexicalCast (T.writeCell d).toList = some d
  nonempty : (T.writeCell d).toList ≠ []
  plain : ∀ c ∈ (T.writeCell d).toList, isBlank c = false ∧ c ∉ ['(', ')', ',']

/-- The values that the editor has nodes for, with their doubles printed exactly. A string ends at no
character, the keys of a map are in order, a table has all its cells, and the cells that a matrix shows
are not null. -/
inductive Editable (T : DoubleTexts D) : Value D → Prop
  | boolean (b : Bool) : Editable T (.boolean b)
  | integer {n : ℤ} (hint : -2 ^ 31 ≤ n ∧ n < 2 ^ 31) : Editable T (.integer n)
  | double {d : D} (hd : T.Exact d) : Editable T (.double d)
  | string {s : String} (hs : '\x00' ∉ s.toList) : Editable T (.string s)
  | set {l : List (Option (Value D))} (hsome : none ∉ l)
      (hl : ∀ v, some v ∈ l → Editable T v) : Editable T (.set l)
  | map {l : List (String × Option (Value D))} (hkeys : (l.map Prod.fst).Pairwise (· < ·))
      (hsome : ∀ k, (k, none) ∉ l) (hl : ∀ k v, (k, some v) ∈ l → Editable T v) : Editable T (.map l)
  | tuple {t : List D} (ht : ∀ d ∈ t, T.Exact d) : Editable T (.tuple t)
  | table {width height : ℕ} {t : List D} (hlen : t.length = width * height) (hne : t ≠ [])
      (hsmall : t.length ≤ maxSize) (ht : ∀ d ∈ t, T.Exact d) : Editable T (.table width height t)
  | matrix {size : MatrixSize} {cells : List (Option (Value D))}
      (hlen : cells.length = size.columnsMax * size.rowsMax % sizeT) (hsmall : cells.length ≤ maxSize)
      (hcells : ∀ c r, c < size.columns → r < size.rows →
        ∃ v, cells[Matrix.position size.columnsMax c r]? = some (some v))
      (hl : ∀ c r v, c < size.columns → r < size.rows →
        cells[Matrix.position size.columnsMax c r]? = some (some v) → Editable T v) :
      Editable T (.matrix size cells)

/-- Whether a value is written as a text. -/
def hasText : Value D → Bool
  | .set _ | .map _ | .matrix .. => false
  | _ => true

/-- A node of the tag of a value. When the value is written as a text, the node has no child or a
text. -/
structure Holds (v : Value D) (node : Content) : Prop where
  tag : tagName v = some node.label.nodeName
  text : hasText v → node.children.length ≤ 1 ∧ ∀ ch ∈ node.children, ch.label.nodeType = .text

/-- A value that is written into a node is read again, as far as it is seen. -/
def RoundTrip [Zero D] (T : DoubleTexts D) (buildText : Bool) (v : Value D) (node : Content) : Prop :=
  ∃ node', fillWithValue T v node = .ok (true, node') ∧
    buildValue T buildText node' = .ok (some v.seen)

/-- The sizes of a matrix fit into the attributes, and in each other. -/
structure Fits (size : MatrixSize) : Prop where
  columns : size.columns ≤ size.columnsMax
  rows : size.rows ≤ size.rowsMax
  room : 0 < size.columnsMax * size.rowsMax
  columnsMax : size.columnsMax < 2 ^ 31
  rowsMax : size.rowsMax < 2 ^ 31
  stepColumns : size.stepColumns < 2 ^ 31
  stepRows : size.stepRows < 2 ^ 31
  cells : size.columns * size.rows < 2 ^ 31

/-- The values that are kept by a node whose attribute `rowstep` is a number: no tuple is empty, the
sizes are those of `int`, and the row step of a matrix is what its node had, which for an element that
was made for it is nothing. -/
inductive Kept : ℤ → Value D → Prop
  | boolean {step : ℤ} (b : Bool) : Kept step (.boolean b)
  | integer {step : ℤ} (n : ℤ) : Kept step (.integer n)
  | double {step : ℤ} (d : D) : Kept step (.double d)
  | string {step : ℤ} (s : String) : Kept step (.string s)
  | set {step : ℤ} {l : List (Option (Value D))} (hl : ∀ v, some v ∈ l → Kept 0 v) : Kept step (.set l)
  | map {step : ℤ} {l : List (String × Option (Value D))} (hl : ∀ k v, (k, some v) ∈ l → Kept 0 v) :
      Kept step (.map l)
  | tuple {step : ℤ} {t : List D} (hne : t ≠ []) : Kept step (.tuple t)
  | table {step : ℤ} {width height : ℕ} {t : List D} (hwidth : width < 2 ^ 31)
      (hheight : height < 2 ^ 31) : Kept step (.table width height t)
  | matrix {step : ℤ} {size : MatrixSize} {cells : List (Option (Value D))} (hsize : Fits size)
      (hstep : (size.stepRows : ℤ) = step)
      (hl : ∀ c r v, c < size.columns → r < size.rows →
        cells[Matrix.position size.columnsMax c r]? = some (some v) → Kept 0 v) :
      Kept step (.matrix size cells)

end Vle.Gvle
