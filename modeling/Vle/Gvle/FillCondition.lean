import Vle.Gvle.NameProvider
import Vle.Gvle.ValueCodec
import Vle.Lib.Places
import Mathlib.Data.List.Perm.Basic

/-!
# Filling a condition

`fillConditionWithMapToDoc` writes the values of a map into the ports of a condition, and makes the ports
that there are not. With `rm` it is to remove the other ports first; its loop counts over a list that
follows the document, so it leaves out every second port (`removePorts_eq`).

A node of a document is known by its place. The other places are as they were before.
-/

namespace Vle.Gvle

open Lib Lib.Storage

variable {D : Type}

/-! ## Nodes and their places -/

/-- `elementsByTagName`, with the places below the node. -/
def elementPlaces (node : Content) (tag : String) : List (List ℕ × Content) :=
  (Rose.placedForest 0 node.children).filter fun q =>
    q.2.label.nodeType = .element ∧ q.2.label.nodeName = tag

/-- `condFromConds` in the conditions of a document, with the place of the condition. -/
def condPlace (doc : Content) (condName : String) : Option (List ℕ × Content) := do
  let exp ← (elementPlaces doc "experiment").head?
  let conds ← (elementPlaces exp.2 "conditions").head?
  let cond ← (elementPlaces conds.2 "condition").find? fun q =>
    q.2.label.attributes.lookup "name" = some condName
  return (exp.1 ++ conds.1 ++ cond.1, cond.2)

/-- The elements are those that `elementsByTagName` gives. -/
theorem map_snd_elementPlaces (node : Content) (tag : String) :
    (elementPlaces node tag).map Prod.snd = elementsByTagName (some node) tag := by
  rw [elementPlaces, elementsByTagName, childNodes, ← Rose.map_snd_placedForest 0, List.filter_map]
  rfl

theorem get?_of_elementPlaces {node s : Content} {tag : String} {p : List ℕ}
    (h : (p, s) ∈ elementPlaces node tag) : node.get? p = some s :=
  Rose.get?_of_mem_placedForest (List.mem_filter.1 h).1

/-- A condition is at its place. -/
theorem get?_condPlace {doc cond : Content} {condName : String} {place : List ℕ}
    (h : condPlace doc condName = some (place, cond)) : doc.get? place = some cond := by
  obtain ⟨⟨p, exp⟩, hexp, h⟩ := Option.bind_eq_some_iff.1 h
  obtain ⟨⟨q, conds⟩, hconds, h⟩ := Option.bind_eq_some_iff.1 h
  obtain ⟨⟨r, cond'⟩, hcond, h⟩ := Option.bind_eq_some_iff.1 h
  cases h
  rw [Rose.get?_append, Rose.get?_append, get?_of_elementPlaces (List.mem_of_mem_head? hexp),
    Option.bind_some, get?_of_elementPlaces (List.mem_of_mem_head? hconds), Option.bind_some,
    get?_of_elementPlaces (List.mem_of_find?_eq_some hcond)]

/-- The condition is the one that `condFromConds` gives. -/
theorem condPlace_snd (doc : Content) (condName : String) :
    (condPlace doc condName).map Prod.snd = condFromConds (condsFromDoc doc) condName := by
  have hhead : ∀ (node : Content) (tag : String),
      ((elementPlaces node tag).head?).map Prod.snd = (elementsByTagName (some node) tag).head? := by
    intro node tag
    rw [← map_snd_elementPlaces, List.head?_map]
  rw [condsFromDoc, ← hhead]
  cases hexp : (elementPlaces doc "experiment").head? with
  | none => simp [condPlace, hexp, elementsByTagName, childNodes, condFromConds, fromContainer]
  | some exp =>
    rw [Option.map_some, ← hhead]
    cases hconds : (elementPlaces exp.2 "conditions").head? with
    | none => simp [condPlace, hexp, hconds, condFromConds, fromContainer]
    | some conds =>
      have hname : conds.2.label.nodeName = "conditions" := by
        have := (List.mem_filter.1 (List.mem_of_mem_head? hconds)).2
        simp only [decide_eq_true_eq] at this
        exact this.2
      rw [condFromConds, fromContainer, Option.map_some, Option.map_some, if_pos (by rw [hname]),
        ← map_snd_elementPlaces, List.find?_map]
      simp only [condPlace, hexp, hconds, Option.bind_eq_bind, Option.bind_some, Function.comp_def]
      cases (elementPlaces conds.2 "condition").find? _ <;> rfl

/-! ## The code -/

/-- The loop of `fillConditionWithMapToDoc` that removes ports, for a number of turns. The list of the
ports is that of the condition at each turn. -/
def removePorts : ℕ → ℕ → Content → Content
  | 0, _, cond => cond
  | fuel + 1, i, cond =>
    match (elementPlaces cond "port")[i]? with
    | none => cond
    | some (p, _) => removePorts fuel (i + 1) (cond.removeAt p)

/-- The test of `DomFunctions::childWhithNameAttr`. -/
def hasNameAttr (nodeName nameValue : String) (ch : Content) : Bool :=
  ch.label.nodeType ≠ .text ∧ ch.label.nodeName = nodeName ∧ attributeValue ch.label "name" = nameValue

/-- `DomFunctions::childWhithNameAttr`, without a document. -/
def childWhithNameAttr (node : Content) (nodeName nameValue : String) : Option Content :=
  node.children.find? (hasNameAttr nodeName nameValue)

/-- A turn of the loop of `vleDomStatic::fillConditionWithMap`, on the children of the condition: the
port of a key, which is made if there is none, is emptied and gets the value. -/
def fillPort (T : DoubleTexts D) (ports : List Content) (vi : String × Option (Value D)) :
    Except Fault (List Content) := do
  let node ← fillPointer T vi.2
  if ports.any (hasNameAttr "port" vi.1) then
    return ports.replaceF fun ch =>
      if hasNameAttr "port" vi.1 ch then some (.node ch.label node.toList) else none
  else
    let port := setAttributeValue (createElement "port").label "name" vi.1
    return ports ++ [.node port node.toList]

/-- `vleDomStatic::fillConditionWithMap`, without the undo stack. -/
def fillConditionWithMap (T : DoubleTexts D) (atom : Content) (val : List (String × Option (Value D))) :
    Except Fault (Bool × Content) :=
  if atom.label.nodeName ≠ "condition" then .ok (false, atom)
  else if val.length = 0 then .ok (false, atom)
  else do
    let ports ← val.foldlM (fillPort T) atom.children
    return (true, .node atom.label ports)

/-- `vleVpz::fillConditionWithMapToDoc`, without the undo stack. -/
def fillConditionWithMapToDoc (T : DoubleTexts D) (doc : Content) (condName : String)
    (val : List (String × Option (Value D))) (rm : Bool) : Except Fault (Bool × Content) :=
  match condPlace doc condName with
  | none => .ok (false, doc)
  | some (place, cond) => do
    let cond := if rm then removePorts (elementPlaces cond "port").length 0 cond else cond
    let r ← fillConditionWithMap T cond val
    return (r.1, doc.set place r.2)

section Read

variable [Zero D] (T : DoubleTexts D)

/-- The loop of `getValueFromCondport`: the first value that can be built. -/
def firstValue : List Content → Except Fault (Option (Value D))
  | [] => .ok none
  | node :: valueList => do
    let val ← buildValue T false node
    match val with
    | some v => return some v
    | none => firstValue valueList

/-- `vleDomStatic::getValueFromCondport`. -/
def getValueFromCondport (atom : Content) : Except Fault (Option (Value D)) :=
  if atom.label.nodeName ≠ "port" then .ok none else firstValue T atom.children

/-- `vleDomStatic::getPortValueFromCond`. -/
def getPortValueFromCond (atom : Content) (portName : String) : Except Fault (Option (Value D)) :=
  if atom.label.nodeName ≠ "condition" then .ok none
  else
    match childWhithNameAttr atom "port" portName with
    | none => .ok none
    | some port => getValueFromCondport T port

end Read

/-! ## What is meant -/

/-- A condition: its ports are elements, and there is no port below a child. -/
structure IsCondition (cond : Content) : Prop where
  nodeName : cond.label.nodeName = "condition"
  element : ∀ ch ∈ cond.children, ch.label.nodeName = "port" → ch.label.nodeType = .element
  below : ∀ ch ∈ cond.children, elementsByTagName (some ch) "port" = []

/-- The ports of a name. -/
def portsNamed (cond : Content) (name : String) : List Content :=
  cond.children.filter (hasNameAttr "port" name)

/-- The condition at a place has been filled with a map, as it is meant. -/
structure Filled [Zero D] (T : DoubleTexts D) (doc doc' : Content) (place : List ℕ) (cond cond' : Content)
    (val : List (String × Option (Value D))) (rm : Bool) : Prop where
  found : doc'.get? place = some cond'
  apart : ∀ q, ¬ place <+: q → ¬ q <+: place → doc'.get? q = doc.get? q
  label : cond'.label = cond.label
  values : ∀ k v, (k, some v) ∈ val → getPortValueFromCond T cond' k = .ok (some v.seen)
  others : rm = false → ∀ k, k ∉ val.map Prod.fst → portsNamed cond' k = portsNamed cond k
  only : rm = true → (childNames (some cond') "port").Perm (val.map Prod.fst)

/-- The elements of a list at odd positions. -/
def odds {α : Type} : List α → List α
  | _ :: b :: l => b :: odds l
  | _ => []

/-! ## The ports that are removed -/

section Remove

/-- A port. -/
def isPort (ch : Content) : Bool := ch.label.nodeType ≠ .text ∧ ch.label.nodeName = "port"

/-- The children of a condition without every second port, from the next one on or the one after. -/
def dropOther : Bool → List Content → List Content
  | _, [] => []
  | b, ch :: cs =>
    if isPort ch then (if b then dropOther false cs else ch :: dropOther true cs)
    else ch :: dropOther b cs

theorem dropOther_append {l : List Content} (hl : ∀ ch ∈ l, isPort ch = false) (b : Bool)
    (cs : List Content) : dropOther b (l ++ cs) = l ++ dropOther b cs := by
  induction l with
  | nil => rfl
  | cons ch l ih =>
    rw [List.forall_mem_cons] at hl
    rw [List.cons_append, dropOther, if_neg (by simp [hl.1]), ih hl.2, List.cons_append]

theorem dropOther_eq_self {l : List Content} (hl : ∀ ch ∈ l, isPort ch = false) (b : Bool) :
    dropOther b l = l := by
  have h := dropOther_append hl b []
  rwa [List.append_nil, dropOther, List.append_nil] at h

/-- The places of the ports among children, the first of which has a number. -/
def portPlaces (i : ℕ) : List Content → List (List ℕ × Content)
  | [] => []
  | ch :: cs => if isPort ch then ([i], ch) :: portPlaces (i + 1) cs else portPlaces (i + 1) cs

theorem portPlaces_append (i : ℕ) (l cs : List Content) :
    portPlaces i (l ++ cs) = portPlaces i l ++ portPlaces (i + l.length) cs := by
  induction l generalizing i with
  | nil => rfl
  | cons ch l ih =>
    rw [List.cons_append, portPlaces, portPlaces, ih, List.length_cons, Nat.add_assoc, Nat.add_comm 1]
    split_ifs <;> rfl

theorem length_portPlaces (i : ℕ) (cs : List Content) : (portPlaces i cs).length = cs.countP isPort := by
  induction cs generalizing i with
  | nil => rfl
  | cons ch cs ih =>
    rw [portPlaces]
    split_ifs with h
    · rw [List.length_cons, ih, List.countP_cons_of_pos h]
    · rw [ih, List.countP_cons_of_neg h]

theorem portPlaces_eq_nil {i : ℕ} {cs : List Content} (h : ∀ ch ∈ cs, isPort ch = false) :
    portPlaces i cs = [] := by
  rw [← List.length_eq_zero_iff, length_portPlaces, List.countP_eq_zero]
  intro ch hch
  simp [h ch hch]

/-- The ports of a condition are children of it. -/
theorem elementPlaces_port {a : NodeData} {cs : List Content}
    (helement : ∀ ch ∈ cs, ch.label.nodeName = "port" → ch.label.nodeType = .element)
    (hbelow : ∀ ch ∈ cs, elementsByTagName (some ch) "port" = []) :
    elementPlaces (.node a cs) "port" = portPlaces 0 cs := by
  have hforest : ∀ i, (Rose.placedForest i cs).filter (fun q =>
      q.2.label.nodeType = .element ∧ q.2.label.nodeName = "port") = portPlaces i cs := by
    induction cs with
    | nil => intro i; simp [Rose.placedForest, portPlaces]
    | cons ch cs ih =>
      intro i
      rw [List.forall_mem_cons] at helement hbelow
      have hrest : ((Rose.placedForest 0 ch.children).map fun q => (i :: q.1, q.2)).filter (fun q =>
          q.2.label.nodeType = .element ∧ q.2.label.nodeName = "port") = [] := by
        rw [List.filter_map, List.map_eq_nil_iff, ← List.map_eq_nil_iff (f := Prod.snd)]
        have := hbelow.1
        rw [← map_snd_elementPlaces] at this
        exact this
      have hplaced : ch.placed = ([], ch) :: Rose.placedForest 0 ch.children := by
        cases ch
        exact Rose.placed_node _ _
      rw [Rose.placedForest_cons, List.filter_append, ih helement.2 hbelow.2, hplaced, List.map_cons,
        List.filter_cons, hrest, portPlaces]
      by_cases hname : ch.label.nodeName = "port"
      · have htype := helement.1 hname
        simp [isPort, hname, htype]
      · simp [isPort, hname]
  exact hforest 0

/-- The children up to the first port, and from it on. -/
theorem exists_port (cs : List Content) : (∀ ch ∈ cs, isPort ch = false) ∨
    ∃ l ch l', cs = l ++ ch :: l' ∧ (∀ c ∈ l, isPort c = false) ∧ isPort ch = true := by
  by_cases h : ∀ ch ∈ cs, isPort ch = false
  · exact .inl h
  · right
    push Not at h
    obtain ⟨ch, hch, hport⟩ := h
    have hfind : (cs.find? isPort).isSome := by
      rw [List.find?_isSome]
      exact ⟨ch, hch, by simpa using hport⟩
    obtain ⟨ch', hfound⟩ := Option.isSome_iff_exists.1 hfind
    obtain ⟨hport', l, l', rfl, hl⟩ := List.find?_eq_some_iff_append.1 hfound
    exact ⟨l, ch', l', rfl, by simpa using hl, hport'⟩

section Loop

variable {a : NodeData} {fuel i : ℕ} {pre rest : List Content}

/-- The loop ends when there is no port left to come to. -/
theorem removePorts_done
    (helement : ∀ ch ∈ pre ++ rest, ch.label.nodeName = "port" → ch.label.nodeType = .element)
    (hbelow : ∀ ch ∈ pre ++ rest, elementsByTagName (some ch) "port" = [])
    (hpre : pre.countP isPort ≤ i) (hrest : ∀ ch ∈ rest, isPort ch = false) :
    removePorts fuel i (.node a (pre ++ rest)) = .node a (pre ++ rest) := by
  cases fuel with
  | zero => rfl
  | succ fuel =>
    rw [removePorts, elementPlaces_port helement hbelow, portPlaces_append, portPlaces_eq_nil hrest,
      List.append_nil, List.getElem?_eq_none (by rwa [length_portPlaces])]

/-- A turn of the loop removes the next port. -/
theorem removePorts_turn {l : List Content} {ch : Content} {l' : List Content}
    (helement : ∀ c ∈ pre ++ (l ++ ch :: l'), c.label.nodeName = "port" → c.label.nodeType = .element)
    (hbelow : ∀ c ∈ pre ++ (l ++ ch :: l'), elementsByTagName (some c) "port" = [])
    (hpre : pre.countP isPort = i) (hl : ∀ c ∈ l, isPort c = false) (hch : isPort ch = true) :
    removePorts (fuel + 1) i (.node a (pre ++ (l ++ ch :: l'))) =
      removePorts fuel (i + 1) (.node a (pre ++ (l ++ l'))) := by
  have hplaces : (portPlaces 0 (pre ++ (l ++ ch :: l')))[i]? = some ([(pre ++ l).length], ch) := by
    rw [portPlaces_append, portPlaces_append, portPlaces_eq_nil hl, List.nil_append, portPlaces,
      if_pos hch, List.getElem?_append_right (by rw [length_portPlaces, hpre]), length_portPlaces, hpre,
      Nat.sub_self, List.length_append, Nat.zero_add]
    rfl
  have herase : (pre ++ (l ++ ch :: l')).eraseIdx (pre ++ l).length = pre ++ (l ++ l') := by
    rw [← List.append_assoc, List.eraseIdx_append_of_length_le le_rfl, Nat.sub_self, List.eraseIdx_cons_zero,
      List.append_assoc]
  rw [removePorts, elementPlaces_port helement hbelow, hplaces]
  simp only [Rose.removeAt, herase]

/-- The loop leaves out every second port. -/
theorem removePorts_append (n : ℕ) (hn : rest.length ≤ n)
    (helement : ∀ ch ∈ pre ++ rest, ch.label.nodeName = "port" → ch.label.nodeType = .element)
    (hbelow : ∀ ch ∈ pre ++ rest, elementsByTagName (some ch) "port" = [])
    (hpre : pre.countP isPort = i) (hfuel : rest.countP isPort ≤ fuel) :
    removePorts fuel i (.node a (pre ++ rest)) = .node a (pre ++ dropOther true rest) := by
  induction n generalizing fuel i pre rest with
  | zero =>
    obtain rfl := List.length_eq_zero_iff.1 (Nat.le_zero.1 hn)
    exact removePorts_done helement hbelow hpre.le fun ch hch => absurd hch List.not_mem_nil
  | succ n ih =>
    rcases exists_port rest with hrest | ⟨l, ch, l', rfl, hl, hch⟩
    · rw [dropOther_eq_self hrest, removePorts_done helement hbelow hpre.le hrest]
    · have hl0 : l.countP isPort = 0 := by
        rw [List.countP_eq_zero]
        intro c hc
        simp [hl c hc]
      rw [List.countP_append, hl0, List.countP_cons_of_pos hch] at hfuel
      obtain ⟨fuel, rfl⟩ : ∃ k, fuel = k + 1 := ⟨fuel - 1, by omega⟩
      have hsub : ∀ c ∈ pre ++ (l ++ l'), c ∈ pre ++ (l ++ ch :: l') := by
        intro c hc
        simp only [List.mem_append, List.mem_cons] at hc ⊢
        tauto
      have helement' := fun c hc => helement c (hsub c hc)
      have hbelow' := fun c hc => hbelow c (hsub c hc)
      rw [removePorts_turn helement hbelow hpre hl hch, dropOther_append hl, dropOther, if_pos hch,
        if_pos rfl]
      rcases exists_port l' with hl' | ⟨k, ch', k', rfl, hk, hch'⟩
      · have hrest : ∀ c ∈ l ++ l', isPort c = false := by
          intro c hc
          exact (List.mem_append.1 hc).elim (hl c) (hl' c)
        rw [removePorts_done helement' hbelow' (by omega) hrest, dropOther_eq_self hl']
      · -- The port after the removed one is passed over.
        have hsplit : pre ++ (l ++ (k ++ ch' :: k')) = (pre ++ l ++ k ++ [ch']) ++ k' := by simp
        have hk0 : k.countP isPort = 0 := by
          rw [List.countP_eq_zero]
          intro c hc
          simp [hk c hc]
        rw [hsplit] at helement' hbelow' ⊢
        rw [List.countP_append, List.countP_cons_of_pos hch'] at hfuel
        rw [ih (by simp at hn ⊢; omega) helement' hbelow' (by
          simp only [List.countP_append, hpre, hl0, hk0, List.countP_singleton, hch', if_true]) (by omega), dropOther_append hk, dropOther, if_pos hch']
        simp

end Loop

/-- With as many turns as there are ports, the loop leaves out every second port. -/
theorem removePorts_eq {cond : Content} (h : IsCondition cond) :
    removePorts (elementPlaces cond "port").length 0 cond =
      .node cond.label (dropOther true cond.children) := by
  cases cond with
  | node a cs =>
    have hplaces : elementPlaces (.node a cs) "port" = portPlaces 0 cs :=
      elementPlaces_port h.element h.below
    have hrun : removePorts (portPlaces 0 cs).length 0 (.node a ([] ++ cs)) =
        .node a ([] ++ dropOther true cs) :=
      removePorts_append cs.length le_rfl h.element h.below rfl (by rw [length_portPlaces])
    rw [hplaces]
    exact hrun

/-- The ports that are left are those at odd positions. -/
theorem filter_dropOther (cs : List Content) :
    (dropOther true cs).filter isPort = odds (cs.filter isPort) ∧
      (dropOther false cs).filter isPort =
        (cs.filter isPort).head?.toList ++ odds (cs.filter isPort).tail := by
  induction cs with
  | nil => exact ⟨rfl, rfl⟩
  | cons ch cs ih =>
    by_cases hch : isPort ch = true
    · rw [dropOther, dropOther, if_pos hch, if_pos hch, if_pos rfl, List.filter_cons_of_pos hch]
      constructor
      · rw [ih.2]
        cases cs.filter isPort <;> rfl
      · rw [if_neg (by decide), List.filter_cons_of_pos hch, ih.1]
        rfl
    · rw [dropOther, dropOther, if_neg hch, if_neg hch, List.filter_cons_of_neg hch,
        List.filter_cons_of_neg hch, List.filter_cons_of_neg hch]
      exact ih

end Remove

/-! ## The ports that are filled -/

section Fill

/-- The names of the ports among children. -/
def portNames (cs : List Content) : List String :=
  (cs.filter isPort).map fun ch => attributeValue ch.label "name"

theorem childNames_port (cond : Content) : childNames (some cond) "port" = portNames cond.children := by
  have hfilter : cond.children.filter (fun ch => decide (ch.label.nodeType ≠ .text ∧
      (("port" : String) = "" ∨ ch.label.nodeName = "port"))) = cond.children.filter isPort := by
    refine List.filter_congr fun ch _ => ?_
    simp [isPort]
  rw [childNames, childNodesWithoutText, childNodes, hfilter, portNames]

theorem hasNameAttr_port (k : String) (ch : Content) :
    hasNameAttr "port" k ch = (isPort ch && decide (attributeValue ch.label "name" = k)) := by
  simp [hasNameAttr, isPort, Bool.and_assoc]

theorem any_hasNameAttr (ports : List Content) (k : String) :
    ports.any (hasNameAttr "port" k) = true ↔ k ∈ portNames ports := by
  simp only [List.any_eq_true, hasNameAttr_port, Bool.and_eq_true, decide_eq_true_eq, portNames,
    List.mem_map, List.mem_filter, and_assoc]

/-- The children after the port of a key got its content. -/
def put (ports : List Content) (k : String) (content : List Content) : List Content :=
  if ports.any (hasNameAttr "port" k) then
    ports.replaceF fun ch =>
      if hasNameAttr "port" k ch then some (.node ch.label content) else none
  else ports ++ [.node (setAttributeValue (createElement "port").label "name" k) content]

theorem fillPort_eq_ok {T : DoubleTexts D} {ports ports' : List Content} {k : String}
    {p : Option (Value D)} :
    fillPort T ports (k, p) = .ok ports' ↔
      ∃ node, fillPointer T p = .ok node ∧ ports' = put ports k node.toList := by
  rw [fillPort, Except.bind_eq_ok]
  refine exists_congr fun node => and_congr_right fun _ => ?_
  unfold put
  dsimp only
  split_ifs <;> exact ⟨fun h => (Except.ok.inj h).symm, fun h => congrArg Except.ok h.symm⟩

theorem hasNameAttr_new (k k' : String) (content : List Content) :
    hasNameAttr "port" k' (.node (setAttributeValue (createElement "port").label "name" k) content) =
      decide (k = k') := by
  rw [hasNameAttr_port, Rose.label_node, attributeValue_set, if_pos rfl]
  have hport : isPort (.node (setAttributeValue (createElement "port").label "name" k) content) = true := rfl
  rw [hport, Bool.true_and]

theorem replaceF_pos {f : Content → Option Content} {ch ch' : Content} (h : f ch = some ch')
    (cs : List Content) : (ch :: cs).replaceF f = ch' :: cs := by
  rw [List.replaceF, h]

theorem replaceF_neg {f : Content → Option Content} {ch : Content} (h : f ch = none)
    (cs : List Content) : (ch :: cs).replaceF f = ch :: cs.replaceF f := by
  rw [List.replaceF, h]

/-- The first port of the key has the content. -/
theorem filter_put (ports : List Content) (k : String) (content : List Content) :
    ∃ label, (put ports k content).filter (hasNameAttr "port" k) =
      .node label content :: (ports.filter (hasNameAttr "port" k)).tail ∧ label.nodeName = "port" := by
  unfold put
  split_ifs with hany
  · induction ports with
    | nil => cases hany
    | cons ch ports ih =>
      by_cases hch : hasNameAttr "port" k ch = true
      · have hport : hasNameAttr "port" k (.node ch.label content) = true := hch
        refine ⟨ch.label, ?_, ?_⟩
        · rw [replaceF_pos (if_pos hch), List.filter_cons_of_pos hport, List.filter_cons_of_pos hch, List.tail_cons]
        · simp only [hasNameAttr, Bool.decide_and, Bool.and_eq_true, decide_eq_true_eq] at hch
          exact hch.2.1
      · rw [replaceF_neg (if_neg hch), List.filter_cons_of_neg hch, List.filter_cons_of_neg hch]
        exact ih (by simpa [hch] using hany)
  · have hnone : ports.filter (hasNameAttr "port" k) = [] := by
      rw [List.filter_eq_nil_iff]
      intro ch hch hname
      exact hany (List.any_eq_true.2 ⟨ch, hch, hname⟩)
    refine ⟨setAttributeValue (createElement "port").label "name" k, ?_, rfl⟩
    rw [List.filter_append, hnone, List.nil_append, List.filter_cons_of_pos (by simp [hasNameAttr_new])]
    rfl

/-- The ports of the other names are as they were. -/
theorem filter_put_ne (ports : List Content) {k k' : String} (hne : k' ≠ k) (content : List Content) :
    (put ports k content).filter (hasNameAttr "port" k') = ports.filter (hasNameAttr "port" k') := by
  unfold put
  split_ifs with hany
  · clear hany
    induction ports with
    | nil => rfl
    | cons ch ports ih =>
      by_cases hch : hasNameAttr "port" k ch = true
      · have hother : hasNameAttr "port" k' ch = false := by
          rw [hasNameAttr_port] at hch ⊢
          simp only [Bool.and_eq_true, decide_eq_true_eq] at hch
          simp [hch.2, hne.symm]
        have hother' : hasNameAttr "port" k' (.node ch.label content) = false := hother
        rw [replaceF_pos (if_pos hch), List.filter_cons_of_neg (by simp [hother']), List.filter_cons_of_neg (by simp [hother])]
      · rw [replaceF_neg (if_neg hch), List.filter_cons, List.filter_cons, ih]
  · rw [List.filter_append, List.filter_cons_of_neg (by simp [hasNameAttr_new, hne.symm]),
      List.filter_nil, List.append_nil]

/-- The name of the key is among those of the ports. -/
theorem portNames_put (ports : List Content) (k : String) (content : List Content) :
    portNames (put ports k content) =
      if k ∈ portNames ports then portNames ports else portNames ports ++ [k] := by
  unfold put
  split_ifs with hany hmem hmem
  · clear hany hmem
    induction ports with
    | nil => rfl
    | cons ch ports ih =>
      by_cases hch : hasNameAttr "port" k ch = true
      · have hport : isPort (.node ch.label content) = isPort ch := rfl
        rw [replaceF_pos (if_pos hch), portNames, portNames, List.filter_cons, List.filter_cons, hport]
        split_ifs <;> rfl
      · rw [replaceF_neg (if_neg hch), portNames, portNames, List.filter_cons, List.filter_cons]
        split_ifs
        · rw [List.map_cons, List.map_cons]
          exact congrArg _ ih
        · exact ih
  · exact absurd ((any_hasNameAttr ports k).1 hany) hmem
  · exact absurd ((any_hasNameAttr ports k).2 hmem) hany
  · rw [portNames, List.filter_append, List.map_append]
    have hport : isPort (.node (setAttributeValue (createElement "port").label "name" k) content) = true :=
      rfl
    rw [List.filter_cons_of_pos hport, List.filter_nil, List.map_cons, List.map_nil, Rose.label_node,
      attributeValue_set, if_pos rfl, portNames]

variable {T : DoubleTexts D}

/-- After all keys, the first port of each has what is written for its value, the ports of the other names
are as they were, and the names are those before and the keys that were none. -/
theorem foldlM_fillPort {val : List (String × Option (Value D))} (hkeys : (val.map Prod.fst).Nodup)
    {ports ports' : List Content} (h : val.foldlM (fillPort T) ports = .ok ports') :
    (∀ k p, (k, p) ∈ val → ∃ node label rest, fillPointer T p = .ok node ∧ label.nodeName = "port" ∧
      ports'.filter (hasNameAttr "port" k) = .node label node.toList :: rest) ∧
    (∀ k, k ∉ val.map Prod.fst →
      ports'.filter (hasNameAttr "port" k) = ports.filter (hasNameAttr "port" k)) ∧
    portNames ports' = portNames ports ++ (val.map Prod.fst).filter (· ∉ portNames ports) := by
  induction val generalizing ports with
  | nil =>
    cases h
    exact ⟨fun _ _ hp => absurd hp List.not_mem_nil, fun _ _ => rfl, by simp⟩
  | cons q val ih =>
    obtain ⟨k, p⟩ := q
    rw [List.map_cons, List.nodup_cons] at hkeys
    rw [List.foldlM_cons] at h
    obtain ⟨ports₁, hput, hrest⟩ := Except.bind_eq_ok.mp h
    obtain ⟨node, hnode, rfl⟩ := fillPort_eq_ok.1 hput
    obtain ⟨hvalues, hothers, hnames⟩ := ih hkeys.2 hrest
    refine ⟨?_, ?_, ?_⟩
    · intro k' p' hp
      rcases List.mem_cons.1 hp with heq | hp
      · cases heq
        obtain ⟨label, hfilter, hport⟩ := filter_put ports k node.toList
        exact ⟨node, label, _, hnode, hport, (hothers k hkeys.1).trans hfilter⟩
      · exact hvalues k' p' hp
    · intro k' hk'
      rw [List.map_cons, List.mem_cons, not_or] at hk'
      rw [hothers k' hk'.2, filter_put_ne ports hk'.1]
    · rw [hnames, portNames_put, List.map_cons]
      split_ifs with hmem
      · rw [List.filter_cons_of_neg (by simpa using hmem)]
      · rw [List.filter_cons_of_pos (by simpa using hmem), List.append_assoc, List.singleton_append]
        -- No later key is the one that was added.
        have hfilter : (val.map Prod.fst).filter (· ∉ portNames ports ++ [k]) =
            (val.map Prod.fst).filter (· ∉ portNames ports) := by
          refine List.filter_congr fun k' hk' => ?_
          have hne : k' ≠ k := fun heq => hkeys.1 (heq ▸ hk')
          simp [hne]
        rw [hfilter]

/-- The keys can all be filled when their values can be written. -/
theorem exists_foldlM_fillPort {val : List (String × Option (Value D))}
    (h : ∀ k p, (k, p) ∈ val → ∃ node, fillPointer T p = .ok node) (ports : List Content) :
    ∃ ports', val.foldlM (fillPort T) ports = .ok ports' := by
  induction val generalizing ports with
  | nil => exact ⟨ports, rfl⟩
  | cons q val ih =>
    obtain ⟨k, p⟩ := q
    obtain ⟨node, hnode⟩ := h k p List.mem_cons_self
    obtain ⟨ports', hports'⟩ := ih (fun k' p' hp => h k' p' (List.mem_cons_of_mem _ hp))
      (put ports k node.toList)
    refine ⟨ports', ?_⟩
    rw [List.foldlM_cons, fillPort_eq_ok.2 ⟨node, hnode, rfl⟩]
    exact hports'

variable [Zero D]

/-- A condition shows for a port what is read from its first content. -/
theorem getPortValueFromCond_eq {label portLabel : NodeData} {ports rest : List Content} {k : String}
    {node : Content} (hcond : label.nodeName = "condition") (hport : portLabel.nodeName = "port")
    (h : ports.filter (hasNameAttr "port" k) = .node portLabel [node] :: rest) :
    getPortValueFromCond T (.node label ports) k = buildValue T false node := by
  have hfind : childWhithNameAttr (.node label ports) "port" k = some (.node portLabel [node]) := by
    rw [childWhithNameAttr, Rose.children_node, ← List.head?_filter, h, List.head?_cons]
  rw [getPortValueFromCond, Rose.label_node, if_neg (not_not.2 hcond), hfind]
  change getValueFromCondport T _ = _
  rw [getValueFromCondport, Rose.label_node, if_neg (not_not.2 hport), Rose.children_node, firstValue]
  cases buildValue T false node with
  | error e => rfl
  | ok r => cases r <;> rfl

end Fill

/-! ## The condition after it was filled -/

section Filled

variable {T : DoubleTexts D} {doc cond : Content} {condName : String} {place : List ℕ}
  {val : List (String × Option (Value D))} {rm : Bool}

/-- The children of a condition before the keys are filled. -/
def kept (rm : Bool) (cond : Content) : List Content :=
  if rm then dropOther true cond.children else cond.children

/-- A condition is filled key after key, from the ports that are kept on. -/
theorem fillConditionWithMapToDoc_eq_ok (hplace : condPlace doc condName = some (place, cond))
    (hcond : IsCondition cond) (hne : val ≠ []) {doc' : Content} :
    fillConditionWithMapToDoc T doc condName val rm = .ok (true, doc') ↔
      ∃ ports, val.foldlM (fillPort T) (kept rm cond) = .ok ports ∧
        doc' = doc.set place (.node cond.label ports) := by
  have hkept : (if rm then removePorts (elementPlaces cond "port").length 0 cond else cond) =
      .node cond.label (kept rm cond) := by
    cases rm with
    | false => cases cond; rfl
    | true => exact removePorts_eq hcond
  unfold fillConditionWithMapToDoc
  simp only [hplace, hkept]
  rw [fillConditionWithMap, Rose.label_node, if_neg (not_not.2 hcond.nodeName),
    if_neg (by simpa using hne), Rose.children_node]
  constructor
  · intro h
    obtain ⟨r, hr, h⟩ := Except.bind_eq_ok.mp h
    obtain ⟨ports, hports, h'⟩ := Except.bind_eq_ok.mp hr
    cases h'
    cases h
    exact ⟨ports, hports, rfl⟩
  · rintro ⟨ports, hports, rfl⟩
    rw [hports]
    rfl

variable [Zero D]

/-- A key that was filled shows its value exactly when the value is kept by an element made for it. -/
theorem reads_iff {ports' : List Content} {label : NodeData} (hlabel : label.nodeName = "condition")
    {k : String} {v : Value D} (hv : Editable T v)
    (h : ∃ node portLabel rest, fillPointer T (some v) = .ok node ∧ portLabel.nodeName = "port" ∧
      ports'.filter (hasNameAttr "port" k) = .node portLabel node.toList :: rest) :
    getPortValueFromCond T (.node label ports') k = .ok (some v.seen) ↔ Kept 0 v := by
  obtain ⟨node, portLabel, rest, hnode, hport, hfilter⟩ := h
  obtain ⟨node, rfl, hfill⟩ := (fillPointer_iff hv.tag).1 hnode
  have hread : readBack T false (some v) = buildValue T false node := readBack_of_fill hfill
  rw [getPortValueFromCond_eq hlabel hport hfilter, ← hread, readBack_iff hv.tag,
    roundTrip_iff hv (holds_fresh hv.tag), rowstep_fresh]

theorem portNames_kept_true (cond : Content) :
    portNames (kept true cond) = odds (childNames (some cond) "port") := by
  have hodds : ∀ l : List Content, (odds l).map (fun ch => attributeValue ch.label "name") =
      odds (l.map fun ch => attributeValue ch.label "name") := by
    intro l
    induction l using odds.induct with
    | case1 a b l ih => simp only [odds, List.map_cons, ih]
    | case2 l hl =>
      match l, hl with
      | [], _ => rfl
      | [_], _ => rfl
      | a :: b :: l, hl => exact absurd rfl (hl a b l)
  rw [childNames_port, portNames, portNames, kept, if_pos rfl, (filter_dropOther cond.children).1, hodds]

/-- The names are the keys exactly when those before were different keys. -/
theorem names_perm_iff {names keys : List String} (hkeys : keys.Nodup) :
    (names ++ keys.filter (· ∉ names)).Perm keys ↔ names.Nodup ∧ ∀ k ∈ names, k ∈ keys := by
  constructor
  · intro h
    exact ⟨(List.nodup_append.1 (h.nodup_iff.2 hkeys)).1,
      fun k hk => h.subset (List.mem_append_left _ hk)⟩
  · rintro ⟨hnodup, hsub⟩
    have happend : (names ++ keys.filter (· ∉ names)).Nodup := by
      refine List.nodup_append.2 ⟨hnodup, hkeys.filter _, ?_⟩
      intro a ha b hb heq
      have := (List.mem_filter.1 hb).2
      simp only [decide_eq_true_eq] at this
      exact this (heq ▸ ha)
    refine (List.perm_ext_iff_of_nodup happend hkeys).2 fun k => ?_
    simp only [List.mem_append, List.mem_filter, decide_eq_true_eq]
    by_cases hk : k ∈ names
    · simp [hk, hsub k hk]
    · simp [hk]

/-- Filling a condition does what it is for exactly when every value is kept by an element made for it and,
if the other ports are to be removed, those at odd positions have different names that are keys. -/
theorem fillConditionWithMapToDoc_iff (hplace : condPlace doc condName = some (place, cond))
    (hcond : IsCondition cond) (hne : val ≠ []) (hval : Editable T (.map val)) :
    (∃ cond' doc', fillConditionWithMapToDoc T doc condName val rm = .ok (true, doc') ∧
      Filled T doc doc' place cond cond' val rm) ↔
    (∀ k v, (k, some v) ∈ val → Kept 0 v) ∧
      (rm = true → (odds (childNames (some cond) "port")).Nodup ∧
        ∀ k ∈ odds (childNames (some cond) "port"), k ∈ val.map Prod.fst) := by
  cases hval with
  | map hsorted hsome hl =>
    have hkeys : (val.map Prod.fst).Nodup := hsorted.imp fun h => ne_of_lt h
    have hget : (doc.get? place).isSome := by rw [get?_condPlace hplace]; rfl
    constructor
    · rintro ⟨cond', doc', hrun, hfilled⟩
      obtain ⟨ports, hports, rfl⟩ := (fillConditionWithMapToDoc_eq_ok hplace hcond hne).1 hrun
      obtain ⟨hvalues, -, hnames⟩ := foldlM_fillPort hkeys hports
      have hcond' : cond' = .node cond.label ports := by
        have := hfilled.found
        rw [Rose.get?_set_self hget] at this
        exact (Option.some.inj this).symm
      subst hcond'
      refine ⟨fun k v hv => ?_, ?_⟩
      · exact (reads_iff hcond.nodeName (hl k v hv) (hvalues k _ hv)).1 (hfilled.values k v hv)
      · rintro rfl
        have honly := hfilled.only rfl
        rwa [childNames_port, Rose.children_node, hnames, portNames_kept_true,
          names_perm_iff hkeys] at honly
    · rintro ⟨hkept, hodds⟩
      obtain ⟨ports, hports⟩ : ∃ ports, val.foldlM (fillPort T) (kept rm cond) = .ok ports := by
        refine exists_foldlM_fillPort (fun k p hp => ?_) _
        obtain ⟨v, rfl⟩ : ∃ v, p = some v := by
          cases p with
          | none => exact absurd hp (hsome k)
          | some v => exact ⟨v, rfl⟩
        have hv := hl k v hp
        have hround : RoundTrip T false v (fresh v) := by
          rw [roundTrip_iff hv (holds_fresh hv.tag), rowstep_fresh]
          exact hkept k v hp
        obtain ⟨node, hfill, -⟩ := hround
        exact ⟨some node, (fillPointer_iff hv.tag).2 ⟨node, rfl, hfill⟩⟩
      obtain ⟨hvalues, hothers, hnames⟩ := foldlM_fillPort hkeys hports
      refine ⟨.node cond.label ports, _,
        (fillConditionWithMapToDoc_eq_ok hplace hcond hne).2 ⟨ports, hports, rfl⟩,
        Rose.get?_set_self hget _, fun q hpq hqp => Rose.get?_set_apart hpq hqp _ _, rfl,
        fun k v hv => ?_, ?_, ?_⟩
      · exact (reads_iff hcond.nodeName (hl k v hv) (hvalues k _ hv)).2 (hkept k v hv)
      · rintro rfl k hk
        exact hothers k hk
      · rintro rfl
        rw [childNames_port, Rose.children_node, hnames, portNames_kept_true, names_perm_iff hkeys]
        exact hodds rfl

/-- A project with the condition `cond`, which has the ports `a` and `b`. -/
def withPorts : Content :=
  .node { nodeType := .document, nodeName := "#document" } [element "vle_project" [element "experiment"
    [element "conditions" [.node (named "condition" "cond").label [named "port" "a", named "port" "b"]]]]]

/-- The key `c`, with a value. -/
def onlyC : List (String × Option (Value ℤ)) := [("c", some (.boolean true))]

/-- A port that is no key is left. -/
theorem not_filled_only : ¬ ∃ place cond cond' doc', condPlace withPorts "cond" = some (place, cond) ∧
    fillConditionWithMapToDoc intTexts withPorts "cond" onlyC true = .ok (true, doc') ∧
    Filled intTexts withPorts doc' place cond cond' onlyC true := by
  rintro ⟨place, cond, cond', doc', hplace, hrun, hfilled⟩
  have hcond : (condPlace withPorts "cond").map Prod.fst = some [0, 0, 0, 0] := by decide
  have hnames : (fillConditionWithMapToDoc intTexts withPorts "cond" onlyC true).map
      (fun r => (r.2.get? [0, 0, 0, 0]).map fun c => childNames (some c) "port") =
        .ok (some ["b", "c"]) := by decide
  rw [hplace] at hcond
  cases hcond
  rw [hrun] at hnames
  have hfound : (doc'.get? [0, 0, 0, 0]).map (fun c => childNames (some c) "port") =
      some ["b", "c"] := Except.ok.inj hnames
  rw [hfilled.found, Option.map_some] at hfound
  have hperm := hfilled.only rfl
  rw [Option.some.inj hfound] at hperm
  exact absurd hperm.length_eq (by decide)

/-- Filling the key `b` of that condition removes the port `a` and keeps no other. -/
theorem filled_only_b : ∃ cond' doc',
    fillConditionWithMapToDoc intTexts withPorts "cond" [("b", some (.boolean true))] true =
      .ok (true, doc') ∧
    Filled intTexts withPorts doc' [0, 0, 0, 0]
      (.node (named "condition" "cond").label [named "port" "a", named "port" "b"]) cond'
      [("b", some (.boolean true))] true := by
  have hcond : IsCondition (.node (named "condition" "cond").label [named "port" "a", named "port" "b"]) :=
    ⟨rfl, by decide, by decide⟩
  have hval : Editable intTexts (.map [("b", some (.boolean true))]) := by
    refine .map (by simp) (by simp) fun k v hv => ?_
    cases List.mem_singleton.1 hv
    exact .boolean true
  refine (fillConditionWithMapToDoc_iff (by decide) hcond (by simp) hval).2 ⟨fun k v hv => ?_, fun _ => ?_⟩
  · cases List.mem_singleton.1 hv
    exact .boolean true
  · decide

end Filled

end Vle.Gvle
