import Vle.Lib.Except

/-!
# Containers of nodes

A container whose elements stay where they are while others come and go, such as a linked list or a
search tree: each node has an address, and an iterator holds the address of a node, or none at the
end. An iterator of a node that is no longer there is refused by every operation, also by a comparison.
All of them rest on `rest`, the nodes from an iterator on, and so do their rules: a container is cut at
the iterator, and the operations at the cut are computed.
-/

namespace Vle.Lib

/-- What the language leaves undefined for iterators, and a loop that did not end in its turns. -/
inductive IterFault where
  | erased
  | atEnd
  | unfinished
  deriving DecidableEq, Repr

/-- The nodes of a container, in its order, with their addresses. -/
abbrev Nodes (α : Type) := List (ℕ × α)

/-- The address of the node an iterator is at, none at the end. -/
abbrev Iter := Option ℕ

namespace Nodes

variable {α : Type}

/-- The nodes have different addresses. -/
def Distinct (l : Nodes α) : Prop := (l.map (·.1)).Nodup

/-- The iterator at the start of a part that goes to the end of the container. -/
def start (l : Nodes α) : Iter := l.head?.map (·.1)

/-- The nodes from an iterator on. -/
def rest (l : Nodes α) : Iter → Except IterFault (Nodes α)
  | none => .ok []
  | some i =>
    match l.dropWhile (·.1 ≠ i) with
    | [] => .error .erased
    | e :: l' => .ok (e :: l')

/-- `it == jt`. -/
def same (l : Nodes α) (it jt : Iter) : Except IterFault Bool := do
  let _ ← l.rest it
  let _ ← l.rest jt
  return it = jt

/-- `*it`. -/
def get (l : Nodes α) (it : Iter) : Except IterFault α := do
  match ← l.rest it with
  | [] => throw .atEnd
  | e :: _ => return e.2

/-- `it++`. -/
def next (l : Nodes α) (it : Iter) : Except IterFault Iter := do
  match ← l.rest it with
  | [] => throw .atEnd
  | _ :: l' => return start l'

/-- `erase(it)`. -/
def erase (l : Nodes α) (it : Iter) : Except IterFault (Nodes α) := do
  match ← l.rest it with
  | [] => throw .atEnd
  | e :: _ => return l.filter (·.1 ≠ e.1)

variable {l l' : Nodes α} {e : ℕ × α}

/-- A node of the second part is not in the first. -/
theorem Distinct.ne_of_mem (h : Distinct (l ++ e :: l')) {d : ℕ × α} (hd : d ∈ l) : d.1 ≠ e.1 := by
  unfold Distinct at h
  rw [List.map_append, List.nodup_append] at h
  exact h.2.2 d.1 (List.mem_map_of_mem hd) e.1 (by simp)

/-- A node of the second part is not after itself. -/
theorem Distinct.ne_of_mem_tail (h : Distinct (l ++ e :: l')) {d : ℕ × α} (hd : d ∈ l') :
    d.1 ≠ e.1 := by
  unfold Distinct at h
  rw [List.map_append, List.nodup_append, List.map_cons, List.nodup_cons] at h
  intro heq
  exact h.2.1.1 (heq ▸ List.mem_map_of_mem hd)

/-- Some of the nodes have different addresses too. -/
theorem Distinct.sublist (h : Distinct l) (hsub : l'.Sublist l) : Distinct l' :=
  List.Nodup.sublist (hsub.map _) h

/-- The nodes from the start of a part on are that part. -/
theorem rest_start (h : Distinct (l ++ l')) : (l ++ l').rest (start l') = .ok l' := by
  cases l' with
  | nil => rfl
  | cons e l' =>
    have hdrop : (l ++ e :: l').dropWhile (·.1 ≠ e.1) = e :: l' := by
      rw [List.dropWhile_append_of_pos fun d hd => by simpa using h.ne_of_mem hd]
      exact List.dropWhile_cons_of_neg (by simp)
    simp only [start, List.head?_cons, Option.map_some, rest]
    rw [hdrop]

/-- Reading at a node. -/
theorem get_start (h : Distinct (l ++ e :: l')) :
    (l ++ e :: l').get (start (e :: l')) = .ok e.2 := by
  rw [get, rest_start h]
  rfl

/-- Going on from a node. -/
theorem next_start (h : Distinct (l ++ e :: l')) :
    (l ++ e :: l').next (start (e :: l')) = .ok (start l') := by
  rw [next, rest_start h]
  rfl

/-- Erasing a node. -/
theorem erase_start (h : Distinct (l ++ e :: l')) :
    (l ++ e :: l').erase (start (e :: l')) = .ok (l ++ l') := by
  have hfilter : (l ++ e :: l').filter (·.1 ≠ e.1) = l ++ l' := by
    rw [List.filter_append, List.filter_cons_of_neg (by simp)]
    congr 1
    · exact List.filter_eq_self.mpr fun d hd => by simpa using h.ne_of_mem hd
    · exact List.filter_eq_self.mpr fun d hd => by simpa using h.ne_of_mem_tail hd
  rw [erase, rest_start h, Except.ok_bind]
  simp only [hfilter, Except.pure_eq]

/-- Comparing two places of a container. -/
theorem same_eq {it jt : Iter} {p q : Nodes α} (hit : l.rest it = .ok p) (hjt : l.rest jt = .ok q) :
    l.same it jt = .ok (it = jt) := by
  rw [same, hit, hjt]
  rfl

/-- The start of a container is another place than the start of what follows its first node. -/
theorem start_cons_ne (h : Distinct (e :: l ++ l')) : start (e :: l ++ l') ≠ start l' := by
  cases l' with
  | nil => simp [start]
  | cons d l' =>
    rw [List.cons_append] at h
    have hne := Distinct.ne_of_mem_tail (l := []) h (d := d) (by simp)
    simpa [start] using hne.symm

end Nodes

end Vle.Lib
