import Vle.Lib.Nodes
import Vle.Vpz.ModelPortList

/-!
# Erasing while walking

`ModelPortList::remove` with the nodes of its multimap: `remove` walks the equal range of a model with
the iterators `it` and `previous`, and every use of an iterator checks that its node is still there. The
theorem `remove_run` says that the walk ends without such a fault and leaves the nodes of the other
entries, so that the walk by positions of `ModelPortList.remove` stands for it (`remove_refines`).
-/

namespace Vle.Vpz

open Vle.Lib

/-- The multimap of a `ModelPortList` with its nodes, in the order of the keys. -/
structure PortNodes where
  nodes : Nodes ModelPort
  distinct : nodes.Distinct
  sorted : nodes.Pairwise fun a b => a.2.1 ≤ b.2.1

/-- The outcomes of `remove` that are not a list. -/
inductive RemoveError where
  | devsGraph (what : String)
  | fault (f : IterFault)
  deriving DecidableEq, Repr

namespace PortNodes

/-- The entries, without their nodes. -/
def entries (l : PortNodes) : List ModelPort := l.nodes.map (·.2)

/-- The list of the entries. -/
def toModelPortList (l : PortNodes) : ModelPortList := ⟨l.entries, by
  rw [entries, List.pairwise_map]
  exact l.sorted⟩

/-- Some of the nodes of a multimap. -/
def filter (l : PortNodes) (p : ModelPort → Bool) : PortNodes where
  nodes := l.nodes.filter fun e => p e.2
  distinct := l.distinct.sublist List.filter_sublist
  sorted := l.sorted.sublist List.filter_sublist

/-- Filtering the nodes filters the entries. -/
@[simp] theorem entries_filter (l : PortNodes) (p : ModelPort → Bool) :
    (l.filter p).entries = l.entries.filter p := by
  rw [entries, entries, List.filter_map]
  rfl

/-- The first entry of a model and the entry after its last one: `equal_range`. -/
def equalRange (l : PortNodes) (model : NodeId) : Iter × Iter :=
  (Nodes.start (l.nodes.dropWhile (·.2.1 < model)), Nodes.start (l.nodes.dropWhile (·.2.1 ≤ model)))

/-- The loop of `remove`, up to the iterator `last`. -/
def removeWalk (portname : String) :
    ℕ → Nodes ModelPort → Iter → Iter → Iter → Except IterFault (Nodes ModelPort)
  | 0, _, _, _, _ => throw .unfinished
  | fuel + 1, lst, it, previous, last => do
    if ← lst.same it last then
      return lst
    else if (← lst.get it).2 = portname then
      if ← lst.same it previous then
        let it ← lst.next it
        let lst ← lst.erase previous
        removeWalk portname fuel lst it it last
      else
        let lst ← lst.erase it
        removeWalk portname fuel lst previous previous last
    else
      let previous := it
      let it ← lst.next it
      removeWalk portname fuel lst it previous last

/-- `ModelPortList::remove`, for a number of turns of its loop. -/
def remove (fuel : ℕ) (l : PortNodes) (model : Option NodeId) (portname : String) :
    Except RemoveError (Nodes ModelPort) :=
  match model with
  | none => .error (.devsGraph s!"Cannot remove model port {portname} in an empty model")
  | some model =>
    let its := l.equalRange model
    (removeWalk portname fuel l.nodes its.1 its.1 its.2).mapError .fault

/-- The walk keeps of the rest `todo` of the equal range what has another port name. `done` is what it
has passed; `previous` is `it`, or the node before it, which stays. -/
theorem removeWalk_run (portname : String) (fuel : ℕ) (done todo after : Nodes ModelPort)
    (hdist : (done ++ todo ++ after).Distinct) (back : Nodes ModelPort)
    (hback : back = [] ∨ ∃ done' e, done = done' ++ [e] ∧ back = [e] ∧ e.2.2 ≠ portname)
    (hfuel : 2 * todo.length + back.length < fuel) :
    removeWalk portname fuel (done ++ todo ++ after) (Nodes.start (todo ++ after))
        (Nodes.start (back ++ todo ++ after)) (Nodes.start after) =
      .ok (done ++ todo.filter (·.2.2 ≠ portname) ++ after) := by
  induction fuel generalizing done todo back with
  | zero => omega
  | succ fuel ih =>
    have hlast : (done ++ todo ++ after).rest (Nodes.start after) = .ok after :=
      Nodes.rest_start hdist
    have hit : (done ++ todo ++ after).rest (Nodes.start (todo ++ after)) = .ok (todo ++ after) := by
      rw [List.append_assoc] at hdist ⊢
      exact Nodes.rest_start hdist
    rw [removeWalk, Nodes.same_eq hit hlast, Except.ok_bind]
    cases todo with
    | nil => simp
    | cons e todo =>
      have hne : Nodes.start (e :: todo ++ after) ≠ Nodes.start after := by
        refine Nodes.start_cons_ne (hdist.sublist ?_)
        rw [List.append_assoc]
        exact List.sublist_append_right _ _
      have hdist' : (done ++ e :: (todo ++ after)).Distinct := by simpa using hdist
      have herase : (done ++ todo ++ after).Distinct := by
        refine hdist'.sublist ?_
        rw [List.append_assoc]
        exact (List.sublist_cons_self e _).append_left done
      have hget := Nodes.get_start hdist'
      have hnext := Nodes.next_start hdist'
      have herased := Nodes.erase_start hdist'
      rw [if_neg (by simpa using hne)]
      simp only [List.append_assoc, List.cons_append] at hit hget hnext herased ⊢
      rw [hget, Except.ok_bind]
      by_cases he : e.2.2 = portname
      · rw [if_pos he]
        rcases hback with rfl | ⟨done', d, rfl, rfl, hd⟩
        · rw [List.nil_append, Nodes.same_eq hit hit, Except.ok_bind, if_pos (by simp), hnext,
            Except.ok_bind, herased, Except.ok_bind, List.filter_cons_of_neg (by simpa using he)]
          have := ih done todo herase [] (.inl rfl) (by simp at hfuel ⊢; omega)
          simpa using this
        · -- `it = previous` steps back to an entry that stays.
          have hprev : Nodes.rest (done' ++ [d] ++ e :: (todo ++ after))
              (Nodes.start ([d] ++ e :: (todo ++ after))) = .ok ([d] ++ e :: (todo ++ after)) := by
            rw [List.append_assoc] at hdist' ⊢
            exact Nodes.rest_start hdist'
          have hsame : Nodes.start (e :: (todo ++ after)) ≠
              Nodes.start ([d] ++ e :: (todo ++ after)) := by
            rw [List.append_assoc] at hdist'
            exact (Nodes.start_cons_ne (hdist'.sublist (List.sublist_append_right done' _))).symm
          simp only [List.append_assoc, List.cons_append, List.nil_append] at hit hprev herased ⊢
          rw [Nodes.same_eq hit hprev, Except.ok_bind, if_neg (by simpa using hsame), herased,
            Except.ok_bind]
          have := ih done' (d :: todo) (by simpa using herase) [] (.inl rfl)
            (by simp at hfuel ⊢; omega)
          rw [List.filter_cons_of_pos (by simpa using hd)] at this
          rw [List.filter_cons_of_neg (by simpa using he)]
          simpa [Nodes.start] using this
      · rw [if_neg he, hnext, Except.ok_bind, List.filter_cons_of_pos (by simpa using he)]
        have := ih (done ++ [e]) todo (by simpa using hdist) [e] (.inr ⟨done, e, rfl, rfl, he⟩)
          (by simp at hfuel ⊢; omega)
        simpa using this

/-- `remove` ends, without a fault, and leaves the nodes of the entries that are not equal to
`(model, portname)`. -/
theorem remove_run (l : PortNodes) (model : NodeId) (portname : String) :
    ∃ n, ∀ fuel ≥ n, l.remove fuel model portname =
      .ok (l.filter (· ≠ (model, portname))).nodes := by
  refine ⟨2 * l.nodes.length + 1, fun fuel hfuel => ?_⟩
  have hcut := Keyed.cut l.sorted model
  have hdist := l.distinct
  rw [hcut] at hdist
  have hlen := List.length_filter_le (fun e : ℕ × ModelPort => decide (e.2.1 = model)) l.nodes
  have hwalk := removeWalk_run portname fuel _ _ _ hdist [] (.inl rfl) (by simp; omega)
  rw [List.nil_append] at hwalk
  have hfilter : l.nodes.filter (fun e => e.2.1 ≠ model ∨ decide (e.2.2 ≠ portname)) =
      l.nodes.filter (·.2 ≠ (model, portname)) :=
    List.filter_congr fun e _ => by
      rw [decide_eq_decide]
      simp [Prod.ext_iff, or_iff_not_imp_left]
  rw [Keyed.filter_at l.sorted, ← hcut, hfilter] at hwalk
  simp only [remove, equalRange, Keyed.dropWhile_lt l.sorted, Keyed.dropWhile_le l.sorted]
  rw [hwalk]
  rfl

/-- The walk over the nodes does what the walk over the positions does. -/
theorem remove_refines (l : PortNodes) (model : NodeId) (portname : String) :
    ∃ l' : PortNodes, (∃ n, ∀ fuel ≥ n, l.remove fuel model portname = .ok l'.nodes) ∧
      l'.toModelPortList.lst = (l.toModelPortList.remove model portname).lst := by
  refine ⟨_, l.remove_run model portname, ?_⟩
  rw [ModelPortList.remove_lst]
  exact l.entries_filter _

/-- `remove` ends, without a fault, and leaves nodes of the list: none with the entry
`(model, portname)`, and every other entry as often as before. -/
theorem remove_one_end (l : PortNodes) (model : NodeId) (portname : String) :
    ∃ l' : PortNodes, (∃ n, ∀ fuel ≥ n, l.remove fuel model portname = .ok l'.nodes) ∧
      l'.nodes.Sublist l.nodes ∧
      ∀ e, l'.entries.count e = if e = (model, portname) then 0 else l.entries.count e := by
  refine ⟨_, l.remove_run model portname, List.filter_sublist, fun e => ?_⟩
  rw [entries_filter]
  split_ifs with he
  · rw [he, List.count_eq_zero]
    simp
  · exact List.count_filter (by simpa using he)

end PortNodes

end Vle.Vpz
