import Mathlib.Data.List.Infix
import Mathlib.Data.List.Nodup
import Mathlib.Data.List.Perm.Basic
import Mathlib.Tactic

/-!
# Rose trees

Ordered trees with a label at each node. A place is the list of the indices that lead to it from the
root: `get?` gives the subtree at a place and `set` replaces it. Two places are told apart by whether one
is a prefix of the other (`get?_set_apart`, `get?_set_append`, `get?_append_set`).

The labels may also tell the nodes apart. Then a node can be taken out (`erase`) or changed (`modify`)
by a test of its label, wherever it is.
-/

namespace Vle.Lib

/-- A tree with labels, each node with any number of children in order. -/
inductive Rose (α : Type*) where
  | node (label : α) (children : List (Rose α))

namespace Rose

variable {α β : Type*}

def label : Rose α → α
  | node a _ => a

def children : Rose α → List (Rose α)
  | node _ cs => cs

@[simp] theorem label_node (a : α) (cs : List (Rose α)) : (node a cs).label = a := rfl

@[simp] theorem children_node (a : α) (cs : List (Rose α)) : (node a cs).children = cs := rfl

/-- Something holds of every tree when it holds of a tree whose children all have it. -/
@[elab_as_elim, induction_eliminator]
theorem induction {motive : Rose α → Prop}
    (node : ∀ a cs, (∀ c ∈ cs, motive c) → motive (node a cs)) : ∀ t, motive t
  | .node a cs => node a cs fun c _ => induction node c

/-- Something holds of every forest when it goes from the children of the first tree and from the rest to
the forest. -/
@[elab_as_elim]
theorem forest_induction {motive : List (Rose α) → Prop} (nil : motive [])
    (cons : ∀ a cs ds, motive cs → motive ds → motive (node a cs :: ds)) : ∀ cs, motive cs
  | [] => nil
  | .node a cs :: ds => cons a cs ds (forest_induction nil cons cs) (forest_induction nil cons ds)

mutual

def decEq [DecidableEq α] : ∀ s t : Rose α, Decidable (s = t)
  | node a cs, node b ds =>
    match inferInstanceAs (Decidable (a = b)), decEqForest cs ds with
    | isTrue hab, isTrue hcd => isTrue (by rw [hab, hcd])
    | isFalse hab, _ => isFalse fun h => hab (node.inj h).1
    | _, isFalse hcd => isFalse fun h => hcd (node.inj h).2

def decEqForest [DecidableEq α] : ∀ cs ds : List (Rose α), Decidable (cs = ds)
  | [], [] => isTrue rfl
  | [], _ :: _ => isFalse fun h => List.cons_ne_nil _ _ h.symm
  | _ :: _, [] => isFalse fun h => List.cons_ne_nil _ _ h
  | c :: cs, d :: ds =>
    match decEq c d, decEqForest cs ds with
    | isTrue hcd, isTrue hrest => isTrue (by rw [hcd, hrest])
    | isFalse hcd, _ => isFalse fun h => hcd (List.cons.inj h).1
    | _, isFalse hrest => isFalse fun h => hrest (List.cons.inj h).2

end

instance [DecidableEq α] : DecidableEq (Rose α) := decEq

mutual

/-- The tree with each label changed. -/
def map (f : α → β) : Rose α → Rose β
  | node a cs => node (f a) (mapForest f cs)

def mapForest (f : α → β) : List (Rose α) → List (Rose β)
  | [] => []
  | c :: cs => map f c :: mapForest f cs

end

theorem map_node (f : α → β) (a : α) (cs : List (Rose α)) :
    map f (node a cs) = node (f a) (cs.map (map f)) := by
  have hforest : mapForest f cs = cs.map (map f) := by
    induction cs with
    | nil => rfl
    | cons c cs ih => rw [mapForest, ih, List.map_cons]
  rw [map, hforest]

@[simp] theorem label_map (f : α → β) (t : Rose α) : (t.map f).label = f t.label := by
  cases t
  rw [map_node, label_node, label_node]

@[simp] theorem children_map (f : α → β) (t : Rose α) : (t.map f).children = t.children.map (map f) := by
  cases t
  rw [map_node, children_node, children_node]

theorem map_map {γ : Type*} (g : β → γ) (f : α → β) (t : Rose α) : (t.map f).map g = t.map (g ∘ f) := by
  induction t with
  | node a cs ih =>
    simp only [map_node, List.map_map, node.injEq, Function.comp_apply, true_and]
    exact List.map_congr_left fun c hc => ih c hc

/-! ## Subtrees -/

mutual

/-- The subtrees, those of a node after it and in the order of its children. -/
def subtrees : Rose α → List (Rose α)
  | node a cs => node a cs :: forestSubtrees cs

def forestSubtrees : List (Rose α) → List (Rose α)
  | [] => []
  | c :: cs => subtrees c ++ forestSubtrees cs

end

theorem forestSubtrees_eq (cs : List (Rose α)) : forestSubtrees cs = cs.flatMap subtrees := by
  induction cs with
  | nil => rfl
  | cons c cs ih => rw [forestSubtrees, ih, List.flatMap_cons]

theorem subtrees_node (a : α) (cs : List (Rose α)) :
    (node a cs).subtrees = node a cs :: cs.flatMap subtrees := by
  rw [subtrees, forestSubtrees_eq]

/-- The labels of a tree. -/
def labels (t : Rose α) : List α := t.subtrees.map label

theorem labels_node (a : α) (cs : List (Rose α)) : (node a cs).labels = a :: cs.flatMap labels := by
  simp only [labels, subtrees_node, List.map_cons, List.map_flatMap, label_node]
  rfl

theorem labels_map (f : α → β) (t : Rose α) : (t.map f).labels = t.labels.map f := by
  induction t with
  | node a cs ih =>
    rw [map_node, labels_node, labels_node, List.map_cons, List.flatMap_map, List.map_flatMap]
    rw [List.flatMap_congr fun c hc => ih c hc]

theorem self_mem_subtrees (t : Rose α) : t ∈ t.subtrees := by
  cases t
  rw [subtrees_node]
  exact List.mem_cons_self

theorem label_mem_labels (t : Rose α) : t.label ∈ t.labels := List.mem_map_of_mem t.self_mem_subtrees

theorem subtrees_sublist {s t : Rose α} (h : s ∈ t.subtrees) : s.subtrees.Sublist t.subtrees := by
  induction t with
  | node a cs ih =>
    rw [subtrees_node] at h ⊢
    rcases List.mem_cons.mp h with rfl | h
    · rw [subtrees_node]
    · obtain ⟨c, hc, hs⟩ := List.mem_flatMap.mp h
      obtain ⟨before, after, rfl⟩ := List.append_of_mem hc
      refine ((ih c hc hs).trans ?_).trans (List.sublist_cons_self _ _)
      rw [List.flatMap_append, List.flatMap_cons]
      exact (List.sublist_append_left _ _).trans (List.sublist_append_right _ _)

theorem subtrees_trans {s t u : Rose α} (hs : s ∈ t.subtrees) (ht : t ∈ u.subtrees) : s ∈ u.subtrees :=
  (subtrees_sublist ht).subset hs

theorem labels_sublist {s t : Rose α} (h : s ∈ t.subtrees) : s.labels.Sublist t.labels :=
  (subtrees_sublist h).map _

/-! ## Places -/

/-- The subtree at a place. -/
def get? (t : Rose α) : List ℕ → Option (Rose α)
  | [] => some t
  | i :: p => t.children[i]?.bind fun c => c.get? p

/-- The tree with another subtree at a place of it. -/
def set : Rose α → List ℕ → Rose α → Rose α
  | _, [], s => s
  | node a cs, i :: p, s => node a (cs.modify i fun c => c.set p s)

@[simp] theorem get?_nil (t : Rose α) : t.get? [] = some t := rfl

@[simp] theorem set_nil (t s : Rose α) : t.set [] s = s := by
  cases t
  rfl

@[simp] theorem set_cons (a : α) (cs : List (Rose α)) (i : ℕ) (p : List ℕ) (s : Rose α) :
    (node a cs).set (i :: p) s = node a (cs.modify i fun c => c.set p s) := rfl

variable {s t u : Rose α} {p q : List ℕ}

theorem get?_cons_eq_some {i : ℕ} :
    t.get? (i :: p) = some s ↔ ∃ c, t.children[i]? = some c ∧ c.get? p = some s :=
  Option.bind_eq_some_iff

/-- The subtree below a place is a subtree of the one at it. -/
theorem get?_append (t : Rose α) (p q : List ℕ) : t.get? (p ++ q) = (t.get? p).bind (·.get? q) := by
  induction p generalizing t with
  | nil => rfl
  | cons i p ih =>
    rw [List.cons_append, get?, get?]
    cases t.children[i]? with
    | none => rfl
    | some c => exact ih c

theorem get?_map (f : α → β) (t : Rose α) (p : List ℕ) : (t.map f).get? p = (t.get? p).map (map f) := by
  induction p generalizing t with
  | nil => rfl
  | cons i p ih =>
    rw [get?, get?, children_map, List.getElem?_map]
    cases t.children[i]? with
    | none => rfl
    | some c => exact ih c

theorem mem_subtrees_of_get? (h : t.get? p = some s) : s ∈ t.subtrees := by
  induction p generalizing t with
  | nil => exact Option.some.inj h ▸ t.self_mem_subtrees
  | cons i p ih =>
    obtain ⟨c, hc, hs⟩ := get?_cons_eq_some.mp h
    cases t with
    | node a cs =>
      rw [subtrees_node]
      exact List.mem_cons_of_mem _ (List.mem_flatMap.mpr ⟨c, List.mem_of_getElem? hc, ih hs⟩)

theorem exists_get? (h : s ∈ t.subtrees) : ∃ p, t.get? p = some s := by
  induction t with
  | node a cs ih =>
    rw [subtrees_node] at h
    rcases List.mem_cons.mp h with rfl | h
    · exact ⟨[], rfl⟩
    · obtain ⟨c, hc, hs⟩ := List.mem_flatMap.mp h
      obtain ⟨i, hi⟩ := List.mem_iff_getElem?.mp hc
      obtain ⟨p, hp⟩ := ih c hc hs
      exact ⟨i :: p, get?_cons_eq_some.mpr ⟨c, hi, hp⟩⟩

/-- When something tells all labels apart, it tells the places apart. -/
theorem place_unique (f : α → β) (h : (t.labels.map f).Nodup) (hs : t.get? p = some s)
    (hu : t.get? q = some u) (heq : f s.label = f u.label) : p = q := by
  have hmem : ∀ {c r : Rose α} {p : List ℕ}, c.get? p = some r → f r.label ∈ c.labels.map f := fun hr =>
    List.mem_map_of_mem ((labels_sublist (mem_subtrees_of_get? hr)).subset (label_mem_labels _))
  induction p generalizing t q with
  | nil =>
    cases q with
    | nil => rfl
    | cons j q =>
      obtain rfl := Option.some.inj hs
      obtain ⟨c, hc, hcu⟩ := get?_cons_eq_some.mp hu
      cases t with
      | node a cs =>
        rw [labels_node, List.map_cons, List.map_flatMap, List.nodup_cons] at h
        exact absurd (List.mem_flatMap.mpr ⟨c, List.mem_of_getElem? hc, heq ▸ hmem hcu⟩) h.1
  | cons i p ih =>
    obtain ⟨c, hc, hcs⟩ := get?_cons_eq_some.mp hs
    cases t with
    | node a cs =>
      rw [labels_node, List.map_cons, List.map_flatMap, List.nodup_cons] at h
      cases q with
      | nil =>
        obtain rfl := Option.some.inj hu
        exact absurd (List.mem_flatMap.mpr ⟨c, List.mem_of_getElem? hc, heq ▸ hmem hcs⟩) h.1
      | cons j q =>
        obtain ⟨d, hd, hdu⟩ := get?_cons_eq_some.mp hu
        obtain ⟨hnodup, hpairwise⟩ := List.nodup_flatMap.mp h.2
        have hij : i = j := by
          by_contra hij
          obtain ⟨hi, rfl⟩ := List.getElem?_eq_some_iff.mp hc
          obtain ⟨hj, rfl⟩ := List.getElem?_eq_some_iff.mp hd
          have hpairs := List.pairwise_iff_getElem.mp hpairwise
          rcases Nat.lt_or_gt_of_ne hij with hlt | hlt
          · exact hpairs i j hi hj hlt (hmem hcs) (heq ▸ hmem hdu)
          · exact hpairs j i hj hi hlt (hmem hdu) (heq ▸ hmem hcs)
        subst hij
        obtain rfl := Option.some.inj (hc.symm.trans hd)
        rw [ih (hnodup c (List.mem_of_getElem? hc)) hcs hdu]

/-- A subtree below the root is smaller than the tree. -/
theorem length_labels_lt (h : t.get? p = some s) (hp : p ≠ []) : s.labels.length < t.labels.length := by
  obtain ⟨i, p, rfl⟩ := List.exists_cons_of_ne_nil hp
  obtain ⟨c, hc, hs⟩ := get?_cons_eq_some.mp h
  cases t with
  | node a cs =>
    have hsub : s.labels.Sublist (cs.flatMap labels) :=
      (labels_sublist (mem_subtrees_of_get? hs)).trans
        (List.sublist_flatten_of_mem (List.mem_map_of_mem (List.mem_of_getElem? hc)))
    rw [labels_node, List.length_cons]
    exact Nat.lt_succ_of_le hsub.length_le

theorem map_set (f : α → β) (t : Rose α) (p : List ℕ) (s : Rose α) :
    (t.set p s).map f = (t.map f).set p (s.map f) := by
  induction p generalizing t with
  | nil => rw [set_nil, set_nil]
  | cons i p ih =>
    cases t with
    | node a cs =>
      simp only [map_node, set_cons, node.injEq, true_and]
      refine List.ext_getElem? fun j => ?_
      rw [List.getElem?_map, List.getElem?_modify, List.getElem?_modify, List.getElem?_map]
      by_cases hj : i = j
      · cases hc : cs[j]? <;> simp [hj, ih]
      · simp [hj]

/-- What is at and below a place after it is set. -/
theorem get?_set_append (h : (t.get? p).isSome) (s : Rose α) (q : List ℕ) :
    (t.set p s).get? (p ++ q) = s.get? q := by
  induction p generalizing t with
  | nil => rw [set_nil, List.nil_append]
  | cons i p ih =>
    obtain ⟨r, hr⟩ := Option.isSome_iff_exists.mp h
    obtain ⟨c, hc, hget⟩ := get?_cons_eq_some.mp hr
    cases t with
    | node a cs =>
      rw [children_node] at hc
      rw [set_cons, List.cons_append, get?, children_node, List.getElem?_modify_eq, hc]
      exact ih (by rw [hget]; rfl)

theorem get?_set_self (h : (t.get? p).isSome) (s : Rose α) : (t.set p s).get? p = some s := by
  simpa using get?_set_append h s []

/-- A place above one that is set keeps its label. -/
theorem get?_append_set (t : Rose α) (p q : List ℕ) (s : Rose α) :
    (t.set (p ++ q) s).get? p = (t.get? p).map (·.set q s) := by
  induction p generalizing t with
  | nil => rfl
  | cons i p ih =>
    cases t with
    | node a cs =>
      rw [List.cons_append, set_cons, get?, get?, children_node, children_node, List.getElem?_modify_eq]
      cases cs[i]? with
      | none => rfl
      | some c => exact ih c

/-- A place that is neither above nor below one that is set keeps its subtree. -/
theorem get?_set_apart (hpq : ¬ p <+: q) (hqp : ¬ q <+: p) (t s : Rose α) :
    (t.set p s).get? q = t.get? q := by
  induction p generalizing t q with
  | nil => exact absurd List.nil_prefix hpq
  | cons i p ih =>
    cases q with
    | nil => exact absurd List.nil_prefix hqp
    | cons j q =>
      cases t with
      | node a cs =>
        rw [set_cons, get?, get?, children_node, children_node, List.getElem?_modify]
        by_cases hij : i = j
        · subst hij
          have hpq' : ¬ p <+: q := fun h => hpq (List.cons_prefix_cons.mpr ⟨rfl, h⟩)
          have hqp' : ¬ q <+: p := fun h => hqp (List.cons_prefix_cons.mpr ⟨rfl, h⟩)
          cases cs[i]? with
          | none => rfl
          | some c => simpa using ih hpq' hqp' c
        · simp [hij]

theorem label_set_cons (t : Rose α) (i : ℕ) (p : List ℕ) (s : Rose α) :
    (t.set (i :: p) s).label = t.label := by
  cases t
  rfl

/-- A place that is not at or below one that is set keeps its label. -/
theorem exists_get?_set (hpq : ¬ p <+: q) (h : t.get? q = some s) (u : Rose α) :
    ∃ s', (t.set p u).get? q = some s' ∧ s'.label = s.label := by
  by_cases hqp : q <+: p
  · obtain ⟨r, rfl⟩ := hqp
    cases r with
    | nil => exact absurd (by rw [List.append_nil]) hpq
    | cons i r => exact ⟨s.set (i :: r) u, by rw [get?_append_set, h]; rfl, label_set_cons s i r u⟩
  · exact ⟨s, by rw [get?_set_apart hpq hqp, h], rfl⟩

theorem set_set (t : Rose α) (p : List ℕ) (s u : Rose α) : (t.set p s).set p u = t.set p u := by
  induction p generalizing t with
  | nil => rw [set_nil, set_nil]
  | cons i p ih =>
    cases t with
    | node a cs =>
      rw [set_cons, set_cons, set_cons, List.modify_modify_eq]
      exact congrArg (fun f => node a (cs.modify i f)) (funext fun c => ih c)

theorem set_get? (h : t.get? p = some s) : t.set p s = t := by
  induction p generalizing t with
  | nil => rw [set_nil, Option.some.inj h]
  | cons i p ih =>
    obtain ⟨c, hc, hs⟩ := get?_cons_eq_some.mp h
    cases t with
    | node a cs =>
      rw [children_node] at hc
      rw [set_cons]
      congr 1
      refine List.ext_getElem? fun j => ?_
      rw [List.getElem?_modify]
      by_cases hj : i = j
      · subst hj
        simp [hc, ih hs]
      · simp [hj]

/-- The labels around a place stay when it is set. -/
theorem labels_set (h : t.get? p = some s) : ∃ rest : List α, t.labels.Perm (rest ++ s.labels) ∧
    ∀ u : Rose α, (t.set p u).labels.Perm (rest ++ u.labels) := by
  induction p generalizing t with
  | nil =>
    obtain rfl := Option.some.inj h
    refine ⟨[], List.Perm.refl _, fun u => ?_⟩
    rw [set_nil, List.nil_append]
  | cons i p ih =>
    obtain ⟨c, hc, hs⟩ := get?_cons_eq_some.mp h
    obtain ⟨rest, hrest, hset⟩ := ih hs
    cases t with
    | node a cs =>
      rw [children_node] at hc
      obtain ⟨hi, hci⟩ := List.getElem?_eq_some_iff.mp hc
      obtain ⟨before, after, rfl, rfl⟩ : ∃ before after, cs = before ++ c :: after ∧
          before.length = i :=
        ⟨cs.take i, cs.drop (i + 1), by rw [← hci, ← List.drop_eq_getElem_cons hi, List.take_append_drop],
          by simp [hi.le]⟩
      have hmodify : ∀ u, (before ++ c :: after).modify before.length (fun c => c.set p u) =
          before ++ c.set p u :: after := by
        intro u
        refine List.ext_getElem? fun j => ?_
        rw [List.getElem?_modify, List.getElem?_append, List.getElem?_append]
        rcases Nat.lt_trichotomy j before.length with hj | rfl | hj
        · simp [hj, hj.ne']
        · simp
        · obtain ⟨k, hk⟩ : ∃ k, j - before.length = k + 1 := ⟨j - before.length - 1, by omega⟩
          simp [hj.ne, hj.not_gt, hk]
      have hperm : ∀ d r : List α, d.Perm (rest ++ r) →
          (a :: (before.flatMap labels ++ (d ++ after.flatMap labels))).Perm
            (a :: (before.flatMap labels ++ (after.flatMap labels ++ rest)) ++ r) := by
        intro d r hd
        have hcomm : (d ++ after.flatMap labels).Perm (after.flatMap labels ++ d) := List.perm_append_comm
        have := hcomm.trans (hd.append_left _)
        simpa [List.append_assoc] using (this.append_left (before.flatMap labels)).cons a
      refine ⟨a :: (before.flatMap labels ++ (after.flatMap labels ++ rest)), ?_, fun u => ?_⟩
      · rw [labels_node, List.flatMap_append, List.flatMap_cons]
        exact hperm _ _ hrest
      · rw [set_cons, hmodify, labels_node, List.flatMap_append, List.flatMap_cons]
        exact hperm _ _ (hset u)

/-! ## Nodes by their labels -/

mutual

/-- The tree without the subtrees below its root whose labels pass a test. -/
def erase (f : α → Bool) : Rose α → Rose α
  | node a cs => node a (eraseForest f cs)

/-- A forest without the subtrees whose labels pass a test. -/
def eraseForest (f : α → Bool) : List (Rose α) → List (Rose α)
  | [] => []
  | c :: cs => if f c.label then eraseForest f cs else erase f c :: eraseForest f cs

end

mutual

/-- The tree with the subtrees changed whose labels pass a test, each unless it is in another one. -/
def modify (f : α → Bool) (g : Rose α → Rose α) : Rose α → Rose α
  | node a cs => if f a then g (node a cs) else node a (modifyForest f g cs)

def modifyForest (f : α → Bool) (g : Rose α → Rose α) : List (Rose α) → List (Rose α)
  | [] => []
  | c :: cs => modify f g c :: modifyForest f g cs

end

variable {f : α → Bool} {g : Rose α → Rose α} {cs : List (Rose α)}

theorem modify_node (f : α → Bool) (g : Rose α → Rose α) (a : α) (cs : List (Rose α)) :
    modify f g (node a cs) = if f a then g (node a cs) else node a (cs.map (modify f g)) := by
  have hforest : modifyForest f g cs = cs.map (modify f g) := by
    induction cs with
    | nil => rfl
    | cons c cs ih => rw [modifyForest, ih, List.map_cons]
  rw [modify, hforest]

theorem eraseForest_append (f : α → Bool) (cs ds : List (Rose α)) :
    eraseForest f (cs ++ ds) = eraseForest f cs ++ eraseForest f ds := by
  induction cs with
  | nil => rfl
  | cons c cs ih =>
    rw [List.cons_append, eraseForest, eraseForest, ih]
    split_ifs <;> rfl

/-- Nothing is taken out when no label passes the test. -/
theorem erase_of_not (h : ∀ a ∈ t.labels, f a = false) : t.erase f = t := by
  induction t with
  | node a cs ih =>
    rw [labels_node] at h
    suffices hforest : ∀ ds ⊆ cs, eraseForest f ds = ds by rw [erase, hforest cs (List.Subset.refl _)]
    intro ds hds
    induction ds with
    | nil => rfl
    | cons c ds ihds =>
      obtain ⟨hc, hds⟩ := List.cons_subset.mp hds
      have hlabels : ∀ a ∈ c.labels, f a = false := fun a ha =>
        h a (List.mem_cons_of_mem _ (List.mem_flatMap.mpr ⟨c, hc, ha⟩))
      rw [eraseForest, hlabels _ c.label_mem_labels, if_neg Bool.false_ne_true, ih c hc hlabels, ihds hds]

theorem eraseForest_of_not (h : ∀ c ∈ cs, ∀ a ∈ c.labels, f a = false) : eraseForest f cs = cs := by
  induction cs with
  | nil => rfl
  | cons c cs ih =>
    obtain ⟨hc, hcs⟩ := List.forall_mem_cons.mp h
    rw [eraseForest, hc _ c.label_mem_labels, if_neg Bool.false_ne_true, erase_of_not hc, ih hcs]

/-- Nothing is changed when no label passes the test. -/
theorem modify_of_not (h : ∀ a ∈ t.labels, f a = false) : t.modify f g = t := by
  induction t with
  | node a cs ih =>
    rw [labels_node] at h
    rw [modify_node, h a List.mem_cons_self, if_neg Bool.false_ne_true]
    congr 1
    refine (List.map_congr_left fun c hc => ih c hc fun b hb => ?_).trans cs.map_id
    exact h b (List.mem_cons_of_mem _ (List.mem_flatMap.mpr ⟨c, hc, hb⟩))

/-- A test that one label passes changes the subtree at its place. -/
theorem modify_eq_set (h : t.get? p = some s) (hs : f s.label = true) (hone : t.labels.countP f ≤ 1) :
    t.modify f g = t.set p (g s) := by
  induction p generalizing t with
  | nil =>
    obtain rfl := Option.some.inj h
    cases t with
    | node a cs =>
      rw [set_nil, modify_node]
      exact if_pos hs
  | cons i p ih =>
    obtain ⟨c, hc, hget⟩ := get?_cons_eq_some.mp h
    cases t with
    | node a cs =>
      rw [children_node] at hc
      obtain ⟨hi, rfl⟩ := List.getElem?_eq_some_iff.mp hc
      have hpos : 0 < cs[i].labels.countP f :=
        List.countP_pos_iff.mpr ⟨_, (labels_sublist (mem_subtrees_of_get? hget)).subset s.label_mem_labels, hs⟩
      have hsplit : cs.flatMap labels = (cs.take i).flatMap labels ++
          (cs[i].labels ++ (cs.drop (i + 1)).flatMap labels) := by
        conv_lhs => rw [← List.take_append_drop i cs, List.drop_eq_getElem_cons hi]
        rw [List.flatMap_append, List.flatMap_cons]
      rw [labels_node, hsplit, List.countP_cons, List.countP_append, List.countP_append] at hone
      have hother : ∀ j c, cs[j]? = some c → i ≠ j → c.modify f g = c := by
        intro j d hd hij
        refine modify_of_not fun b hb => Bool.eq_false_iff.mpr fun hfb => ?_
        rcases Nat.lt_or_gt_of_ne hij with hlt | hgt
        · have hmem : d ∈ cs.drop (i + 1) := by
            refine List.mem_iff_getElem?.mpr ⟨j - (i + 1), ?_⟩
            rw [List.getElem?_drop, Nat.add_sub_cancel' hlt, hd]
          have : 0 < ((cs.drop (i + 1)).flatMap labels).countP f :=
            List.countP_pos_iff.mpr ⟨b, List.mem_flatMap.mpr ⟨d, hmem, hb⟩, hfb⟩
          omega
        · have hmem : d ∈ cs.take i := by
            refine List.mem_iff_getElem?.mpr ⟨j, ?_⟩
            rw [List.getElem?_take_of_lt hgt, hd]
          have : 0 < ((cs.take i).flatMap labels).countP f :=
            List.countP_pos_iff.mpr ⟨b, List.mem_flatMap.mpr ⟨d, hmem, hb⟩, hfb⟩
          omega
      have hroot : f a = false := by
        refine Bool.eq_false_iff.mpr fun ha => ?_
        rw [if_pos ha] at hone
        omega
      rw [modify_node, hroot, if_neg Bool.false_ne_true, set_cons]
      congr 1
      refine List.ext_getElem? fun j => ?_
      rw [List.getElem?_map, List.getElem?_modify]
      by_cases hij : i = j
      · subst hij
        rw [List.getElem?_eq_getElem hi]
        simpa using ih hget (by omega)
      · cases hd : cs[j]? with
        | none => rfl
        | some d => simp [hij, hother j d hd hij]

/-- A subtree stays when what is taken out is neither in it nor around it. -/
theorem mem_eraseForest (hs : s ∈ cs.flatMap subtrees) (hin : ∀ a ∈ s.labels, f a = false)
    (haround : ∀ u ∈ cs.flatMap subtrees, f u.label = true → s ∉ u.subtrees) :
    s ∈ (eraseForest f cs).flatMap subtrees := by
  induction cs using forest_induction with
  | nil => exact hs
  | cons a cs ds ihcs ihds =>
    rw [List.flatMap_cons, subtrees_node, List.cons_append, List.forall_mem_cons] at haround
    rw [List.flatMap_cons, List.mem_append] at hs
    obtain ⟨hroot, haround⟩ := haround
    rw [eraseForest, label_node]
    rcases hs with hs | hs
    · have ha : f a = false := by
        refine Bool.eq_false_iff.mpr fun ha => hroot ha hs
      rw [ha, if_neg Bool.false_ne_true, List.flatMap_cons]
      refine List.mem_append_left _ ?_
      rw [subtrees_node] at hs
      rcases List.mem_cons.mp hs with rfl | hs
      · rw [erase_of_not hin]
        exact self_mem_subtrees _
      · rw [erase, subtrees_node]
        exact List.mem_cons_of_mem _ (ihcs hs fun u hu => haround u (List.mem_append_left _ hu))
    · have hrest := ihds hs fun u hu => haround u (List.mem_append_right _ hu)
      split_ifs
      · exact hrest
      · rw [List.flatMap_cons]
        exact List.mem_append_right _ hrest

/-- Taking out the one subtree whose label passes the test takes its labels out. -/
theorem labels_eraseForest (hs : s ∈ cs.flatMap subtrees) (hfs : f s.label = true)
    (hone : (cs.flatMap labels).countP f ≤ 1) :
    ((eraseForest f cs).flatMap labels ++ s.labels).Perm (cs.flatMap labels) := by
  have hpos : ∀ ds : List (Rose α), s ∈ ds.flatMap subtrees → 0 < (ds.flatMap labels).countP f := by
    intro ds hds
    obtain ⟨d, hd, hsd⟩ := List.mem_flatMap.mp hds
    exact List.countP_pos_iff.mpr
      ⟨_, List.mem_flatMap.mpr ⟨d, hd, (labels_sublist hsd).subset s.label_mem_labels⟩, hfs⟩
  have hnone : ∀ ds : List (Rose α), (ds.flatMap labels).countP f = 0 → eraseForest f ds = ds := by
    intro ds hds
    refine eraseForest_of_not fun d hd a ha => Bool.eq_false_iff.mpr ?_
    exact List.countP_eq_zero.mp hds a (List.mem_flatMap.mpr ⟨d, hd, ha⟩)
  induction cs using forest_induction with
  | nil => cases hs
  | cons a cs ds ihcs ihds =>
    rw [List.flatMap_cons, labels_node, List.cons_append, List.countP_cons, List.countP_append] at hone
    rw [List.flatMap_cons, List.mem_append, subtrees_node, List.mem_cons] at hs
    rw [eraseForest, label_node, List.flatMap_cons, labels_node]
    rcases hs with (rfl | hs) | hs
    · -- The tree itself is taken out.
      rw [label_node] at hfs
      rw [if_pos hfs] at hone ⊢
      rw [hnone ds (by omega), labels_node]
      exact List.perm_append_comm
    · have := hpos cs hs
      have ha : f a = false := Bool.eq_false_iff.mpr fun ha => by
        rw [if_pos ha] at hone
        omega
      rw [ha, if_neg Bool.false_ne_true, hnone ds (by omega), List.flatMap_cons, erase, labels_node]
      simp only [List.cons_append, List.append_assoc]
      refine List.Perm.cons a ((List.perm_append_comm.append_left _).trans ?_)
      rw [← List.append_assoc]
      exact (ihcs hs (by omega)).append_right _
    · have := hpos ds hs
      have ha : f a = false := Bool.eq_false_iff.mpr fun ha => by
        rw [if_pos ha] at hone
        omega
      rw [ha, if_neg Bool.false_ne_true, List.flatMap_cons, erase, hnone cs (by omega), labels_node]
      simp only [List.cons_append, List.append_assoc]
      exact ((ihds hs (by omega)).append_left _).cons a

end Rose

end Vle.Lib
