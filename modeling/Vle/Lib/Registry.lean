import Mathlib.Data.Finmap
import Mathlib.Data.Finset.Sort
import Mathlib.Data.String.Basic
import Mathlib.Tactic

/-!
# Records stored under their names

A registry is a finite map whose records are stored under their own names, as a map is to which records
are only added by name. Two registries are the same when their lookups are (`Registry.ext_lookup`). What
becomes of the entries of a map is said by its lookups: `Moved` for an entry that goes to another name,
and `Added` for one that is new.
-/

namespace Vle.Lib

variable {κ β : Type} [DecidableEq κ] {name : β → κ}

/-- A finite map of records under their names. -/
structure Registry (κ β : Type) [DecidableEq κ] (name : β → κ) where
  map : Finmap fun _ : κ => β
  named : ∀ k b, map.lookup k = some b → name b = k

namespace Registry

/-- The record under a name. -/
def lookup (m : Registry κ β name) (k : κ) : Option β := m.map.lookup k

/-- No record. -/
def empty : Registry κ β name := ⟨∅, fun k b h => by rw [Finmap.lookup_empty] at h; cases h⟩

/-- A record put under its name. -/
def put (m : Registry κ β name) (b : β) : Registry κ β name where
  map := m.map.insert (name b) b
  named k b' h := by
    by_cases hk : k = name b
    · subst hk
      rw [Finmap.lookup_insert] at h
      cases h
      rfl
    · rw [Finmap.lookup_insert_of_ne _ hk] at h
      exact m.named k b' h

/-- A registry without what is under a name. -/
def erase (m : Registry κ β name) (k : κ) : Registry κ β name where
  map := m.map.erase k
  named k' b h := by
    by_cases hk : k' = k
    · subst hk
      rw [Finmap.lookup_erase] at h
      cases h
    · rw [Finmap.lookup_erase_ne hk] at h
      exact m.named k' b h

/-- The names. -/
def keys (m : Registry κ β name) : Finset κ := m.map.keys

/-- Whether some record satisfies a test. -/
def any (m : Registry κ β name) (p : β → Bool) : Bool :=
  decide (∃ k ∈ m.keys, (m.lookup k).any p = true)

/-- The records in the order of their names. -/
def inOrder [LinearOrder κ] (m : Registry κ β name) : List β :=
  (m.keys.sort (· ≤ ·)).filterMap m.lookup

theorem name_of_lookup {m : Registry κ β name} {k : κ} {b : β} (h : m.lookup k = some b) :
    name b = k :=
  m.named k b h

/-- Registries with the same lookups are the same. -/
theorem ext_lookup {m m' : Registry κ β name} (h : ∀ k, m.lookup k = m'.lookup k) : m = m' := by
  obtain ⟨f, hf⟩ := m
  obtain ⟨f', hf'⟩ := m'
  have : f = f' := Finmap.ext_lookup h
  subst this
  rfl

@[simp] theorem lookup_empty (k : κ) : (empty : Registry κ β name).lookup k = none :=
  Finmap.lookup_empty k

theorem lookup_put (m : Registry κ β name) (b : β) (k : κ) :
    (m.put b).lookup k = if k = name b then some b else m.lookup k := by
  unfold lookup put
  split_ifs with h
  · subst h
    exact Finmap.lookup_insert _
  · exact Finmap.lookup_insert_of_ne _ h

theorem lookup_erase (m : Registry κ β name) (k k' : κ) :
    (m.erase k).lookup k' = if k' = k then none else m.lookup k' := by
  unfold lookup erase
  split_ifs with h
  · subst h
    exact Finmap.lookup_erase _ _
  · exact Finmap.lookup_erase_ne h

theorem mem_keys {m : Registry κ β name} {k : κ} : k ∈ m.keys ↔ ∃ b, m.lookup k = some b := by
  rw [keys, Finmap.mem_keys, Finmap.mem_iff]
  rfl

/-- A record satisfies a test exactly when one that is found does. -/
theorem any_iff {m : Registry κ β name} {p : β → Bool} :
    m.any p = true ↔ ∃ k b, m.lookup k = some b ∧ p b = true := by
  rw [any, decide_eq_true_iff]
  constructor
  · rintro ⟨k, -, hk⟩
    cases hb : m.lookup k with
    | none =>
      rw [hb] at hk
      cases hk
    | some b =>
      rw [hb] at hk
      exact ⟨k, b, hb, hk⟩
  · rintro ⟨k, b, hb, hp⟩
    exact ⟨k, mem_keys.mpr ⟨b, hb⟩, by rw [hb]; exact hp⟩

/-- A record is met in order exactly when it is found. -/
theorem mem_inOrder [LinearOrder κ] {m : Registry κ β name} {b : β} :
    b ∈ m.inOrder ↔ m.lookup (name b) = some b := by
  rw [inOrder, List.mem_filterMap]
  constructor
  · rintro ⟨k, -, hb⟩
    rwa [name_of_lookup hb]
  · intro hb
    exact ⟨name b, (Finset.mem_sort _).mpr (mem_keys.mpr ⟨b, hb⟩), hb⟩

/-- The records under a list of names have these names. -/
theorem map_name_filterMap (m : Registry κ β name) {l : List κ} (h : ∀ k ∈ l, k ∈ m.keys) :
    (l.filterMap m.lookup).map name = l := by
  induction l with
  | nil => rfl
  | cons k l ih =>
    obtain ⟨b, hb⟩ := mem_keys.mp (h k List.mem_cons_self)
    rw [List.filterMap_cons_some hb, List.map_cons, name_of_lookup hb,
      ih fun k' hk' => h k' (List.mem_cons_of_mem _ hk')]

/-- The records that are met in order have different names. -/
theorem nodup_inOrder [LinearOrder κ] (m : Registry κ β name) : (m.inOrder.map name).Nodup := by
  rw [inOrder, map_name_filterMap m fun k hk => (Finset.mem_sort _).mp hk]
  exact Finset.sort_nodup _ _

end Registry

/-! ## What becomes of the entries -/

/-- An entry has gone to another name, at which there was none, with its record renamed, and the others
are as they were. Nothing has changed without an entry, or when the name is its own. -/
def Moved (rename : β → β) (old new : κ) (f f' : κ → Option β) : Prop :=
  match f old with
  | none => f' = f
  | some b =>
    if new = old then f' = f
    else f new = none ∧
      ∀ k, f' k = if k = new then some (rename b) else if k = old then none else f k

/-- An entry is new, and the others are as they were. -/
def Added (new : κ) (b : β) (f f' : κ → Option β) : Prop :=
  f new = none ∧ ∀ k, f' k = if k = new then some b else f k

theorem moved_of_none {rename : β → β} {old new : κ} {f f' : κ → Option β} (h : f old = none) :
    Moved rename old new f f' ↔ f' = f := by
  rw [Moved, h]

theorem moved_self {rename : β → β} {k : κ} {f f' : κ → Option β} :
    Moved rename k k f f' ↔ f' = f := by
  unfold Moved
  cases f k with
  | none => exact Iff.rfl
  | some b => exact iff_of_eq (if_pos rfl)

theorem moved_of_some {rename : β → β} {old new : κ} {f f' : κ → Option β} {b : β}
    (h : f old = some b) (hne : new ≠ old) : Moved rename old new f f' ↔ f new = none ∧
      ∀ k, f' k = if k = new then some (rename b) else if k = old then none else f k := by
  rw [Moved, h]
  exact iff_of_eq (if_neg hne)

/-- An erased record and a new one under the new name: the entry has moved exactly when the new record
is the renamed one. -/
theorem moved_put_iff {m : Registry κ β name} {rename : β → β} {old new : κ} {b b' : β}
    (h : m.lookup old = some b) (hname : name b' = new) (hself : new = old → rename b = b)
    (hfree : new = old ∨ m.lookup new = none) :
    Moved rename old new m.lookup ((m.erase old).put b').lookup ↔ b' = rename b := by
  have hlookup : ∀ k, ((m.erase old).put b').lookup k =
      if k = new then some b' else if k = old then none else m.lookup k := fun k => by
    rw [Registry.lookup_put, Registry.lookup_erase, hname]
  by_cases hsame : new = old
  · subst hsame
    rw [moved_self, hself rfl]
    constructor
    · intro heq
      have := congrFun heq new
      rw [hlookup, if_pos rfl, h] at this
      exact Option.some.inj this
    · intro heq
      funext k
      rw [hlookup]
      split_ifs with hk
      · rw [heq, hk, h]
      · rfl
  · rw [moved_of_some h hsame]
    constructor
    · rintro ⟨-, hall⟩
      have := hall new
      rw [hlookup, if_pos rfl, if_pos rfl] at this
      exact Option.some.inj this
    · intro heq
      refine ⟨hfree.resolve_left hsame, fun k => ?_⟩
      rw [hlookup, heq]

end Vle.Lib
