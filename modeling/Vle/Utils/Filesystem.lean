import Mathlib.Data.Set.Finite.Basic
import Mathlib.Tactic

/-!
# Creating directories

`Path::create_directories` on a tree of files, which the functions of the system see through texts:
`stat_string` and `mkdir_string` say that the text of a path names what the path names. A relative path
is gone along, and the missing directories are made; for an absolute path, the deepest ancestor that is
there is looked for first, and every directory after it is made. The answer is right, and the path is
there when it can be, exactly for the paths of `Meets` (`creates_iff`): an absolute path fails when the
root is the only ancestor there, and when the path is there already; a relative one succeeds on a file.
-/

namespace Vle.Utils

/-! ## Paths -/

/-- A name in a directory: not empty, without a slash, and not one of the dots. -/
def IsName (s : String) : Prop := s ≠ "" ∧ '/' ∉ s.toList ∧ s ≠ "." ∧ s ≠ ".."

instance (s : String) : Decidable (IsName s) := inferInstanceAs (Decidable (_ ∧ _))

/-- The names in a path. -/
abbrev Name := { s : String // IsName s }

/-- A posix `utils::Path` without dot components. -/
structure Path where
  names : List Name
  absolute : Bool
  deriving DecidableEq

namespace Path

/-- The loop of `string` over the names. -/
def joinNames : List Name → String
  | [] => ""
  | [n] => n.1
  | n :: n' :: rest => n.1 ++ "/" ++ joinNames (n' :: rest)

/-- `Path::string`. -/
def string (p : Path) : String := (if p.absolute then "/" else "") ++ joinNames p.names

/-- `operator/=` with one name. -/
def append (p : Path) (name : Name) : Path := { p with names := p.names ++ [name] }

end Path

/-! ## The system -/

inductive Kind where
  | directory
  | file
  deriving DecidableEq, Repr

/-- A finite tree of directories and files, by the names from the root. -/
structure FileTree where
  kind : List Name → Option Kind
  root : kind [] = some .directory
  closed : ∀ q name, (kind (q ++ [name])).isSome → kind q = some .directory
  finite : { q | (kind q).isSome }.Finite

/-- The tree that a process sees, and the directory that it is in. -/
structure FileSystem where
  tree : FileTree
  cwd : List Name
  inside : tree.kind cwd = some .directory

namespace FileTree

/-- A new directory. -/
def add (t : FileTree) (q : List Name) (name : Name) (hq : t.kind q = some .directory)
    (_hnew : t.kind (q ++ [name]) = none) : FileTree where
  kind := Function.update t.kind (q ++ [name]) (some .directory)
  root := by
    rw [Function.update_of_ne (by simp)]
    exact t.root
  closed r n h := by
    by_cases hr : r = q ++ [name]
    · rw [hr, Function.update_self]
    rw [Function.update_of_ne hr]
    by_cases hrn : r ++ [n] = q ++ [name]
    · rw [(List.append_inj' hrn rfl).1]
      exact hq
    · rw [Function.update_of_ne hrn] at h
      exact t.closed r n h
  finite := by
    refine (t.finite.insert (q ++ [name])).subset fun r hr => ?_
    by_cases hrq : r = q ++ [name]
    · exact .inl hrq
    · refine .inr ?_
      rwa [Set.mem_ofPred_eq, Function.update_of_ne hrq] at hr

end FileTree

/-- A component of a text as a name. -/
def nameOf (c : List Char) : Option Name :=
  if h : IsName (String.ofList c) then some ⟨String.ofList c, h⟩ else none

namespace FileSystem

/-- Where a text leads: empty components stand for nothing. -/
def locate (s : FileSystem) (str : String) : List Name :=
  (if str.toList.head? = some '/' then [] else s.cwd) ++ (str.toList.splitOn '/').filterMap nameOf

/-- `stat`: what there is under a text, if there is anything. -/
def stat (s : FileSystem) (str : String) : Option Kind :=
  if str = "" then none else s.tree.kind (s.locate str)

/-- `mkdir` with the names from the root: it needs a directory and a name that is free in it. -/
def makeAt (s : FileSystem) (q : List Name) : Option FileSystem :=
  match q.getLast? with
  | none => none
  | some name =>
    if h : s.tree.kind q.dropLast = some .directory ∧ s.tree.kind (q.dropLast ++ [name]) = none then
      some {
        tree := s.tree.add q.dropLast name h.1 h.2
        cwd := s.cwd
        inside := by
          have hne : s.cwd ≠ q.dropLast ++ [name] := fun heq => by
            have := s.inside
            rw [heq, h.2] at this
            cases this
          exact (Function.update_of_ne hne _ _).trans s.inside }
    else
      none

/-- `mkdir`. -/
def mkdir (s : FileSystem) (str : String) : Option FileSystem :=
  if str = "" then none else s.makeAt (s.locate str)

end FileSystem

namespace Path

/-! ## The functions -/

/-- `exists`. -/
def exist (s : FileSystem) (p : Path) : Bool := (s.stat p.string).isSome

/-- `is_directory`. -/
def isDirectory (s : FileSystem) (p : Path) : Bool := s.stat p.string = some .directory

/-- `is_file`. -/
def isFile (s : FileSystem) (p : Path) : Bool := s.stat p.string = some .file

/-- `create_directory`: the system after it when it succeeds. -/
def createDirectory (s : FileSystem) (p : Path) : Option FileSystem := s.mkdir p.string

/-- The loop of `create_directories` that takes the last name off until the path is there. The names
are in the reverse order. -/
def searchUp (s : FileSystem) : List Name → List Name
  | [] => []
  | _ :: rest => if exist s ⟨rest.reverse, true⟩ then rest else searchUp s rest

/-- The loop of `create_directories` that makes the rest of an absolute path. -/
def makeRest (s : FileSystem) (tmp : Path) : List Name → FileSystem × Bool
  | [] => (s, true)
  | name :: rest =>
    match createDirectory s (tmp.append name) with
    | some s' => makeRest s' (tmp.append name) rest
    | none => (s, false)

/-- The loop of `create_directories` along a relative path. -/
def makeMissing (s : FileSystem) (tmp : Path) : List Name → FileSystem × Bool
  | [] => (s, true)
  | name :: rest =>
    if exist s (tmp.append name) then makeMissing s (tmp.append name) rest
    else
      match createDirectory s (tmp.append name) with
      | some s' => makeMissing s' (tmp.append name) rest
      | none => (s, false)

/-- `create_directories`: the system after it, and the answer. -/
def createDirectories (s : FileSystem) (p : Path) : FileSystem × Bool :=
  if p.absolute then
    let tmp : Path := ⟨(searchUp s p.names.reverse).reverse, true⟩
    if tmp.names = [] then (s, true) else makeRest s tmp (p.names.drop tmp.names.length)
  else
    makeMissing s ⟨[], false⟩ p.names

end Path

/-! ## The tree -/

namespace FileTree

variable (t : FileTree)

/-- All directories above an entry are there. -/
theorem directory_above {q u : List Name} (hu : u ≠ []) (h : (t.kind (q ++ u)).isSome) :
    t.kind q = some .directory := by
  induction u using List.reverseRecOn with
  | nil => exact absurd rfl hu
  | append_singleton u n ih =>
    rw [← List.append_assoc] at h
    have hd := t.closed _ n h
    rcases eq_or_ne u [] with rfl | hne
    · rwa [List.append_nil] at hd
    · exact ih hne (by rw [hd]; rfl)

/-- There is nothing below what is not a directory. -/
theorem nothing_below {q u : List Name} (hu : u ≠ []) (h : t.kind q ≠ some .directory) :
    t.kind (q ++ u) = none := by
  by_contra hsome
  exact h (t.directory_above hu (Option.isSome_iff_ne_none.2 hsome))

end FileTree

/-! ## Texts -/

namespace Path

theorem toList_joinNames (names : List Name) :
    (joinNames names).toList = ['/'].intercalate (names.map fun n => n.1.toList) := by
  induction names with
  | nil => rfl
  | cons n rest ih =>
    cases rest with
    | nil => simp [joinNames]
    | cons n' rest =>
      rw [joinNames, String.toList_append, String.toList_append, ih]
      simp

theorem nameOf_toList (n : Name) : nameOf n.1.toList = some n := by
  simp [nameOf, n.2]

theorem filterMap_nameOf (names : List Name) :
    (names.map fun n => n.1.toList).filterMap nameOf = names := by
  induction names with
  | nil => rfl
  | cons n rest ih => rw [List.map_cons, List.filterMap_cons, nameOf_toList, ih]

theorem no_slash (names : List Name) : ∀ l ∈ names.map fun n => n.1.toList, '/' ∉ l := by
  intro l hl
  obtain ⟨n, -, rfl⟩ := List.mem_map.1 hl
  exact n.2.2.1

/-- The names in the text of a path. -/
theorem filterMap_splitOn (p : Path) : (p.string.toList.splitOn '/').filterMap nameOf = p.names := by
  have hempty : nameOf [] = none := by simp [nameOf, IsName]
  obtain ⟨names, absolute⟩ := p
  cases absolute with
  | false =>
    rcases eq_or_ne names [] with rfl | hne
    · simp [string, joinNames, hempty]
    · have ht : (Path.string ⟨names, false⟩).toList =
          ['/'].intercalate (names.map fun n => n.1.toList) := by
        simp [string, toList_joinNames]
      rw [ht, List.splitOn_intercalate _ (no_slash names) fun h => hne (List.map_eq_nil_iff.1 h),
        filterMap_nameOf]
  | true =>
    rcases eq_or_ne names [] with rfl | hne
    · have ht : (Path.string ⟨[], true⟩).toList = ['/'].intercalate [[], []] := by
        simp [string, joinNames]
      rw [ht, List.splitOn_intercalate _ (by simp) (by simp)]
      simp [hempty]
    -- The slash in front makes one empty component more.
    · have ht : (Path.string ⟨names, true⟩).toList =
          ['/'].intercalate ([] :: names.map fun n => n.1.toList) := by
        obtain ⟨n, rest, rfl⟩ := List.exists_cons_of_ne_nil hne
        simp [string, toList_joinNames]
      rw [ht, List.splitOn_intercalate _ (by simpa using no_slash names) (by simp), List.filterMap_cons,
        hempty, filterMap_nameOf]

theorem head_string (p : Path) : p.string.toList.head? = some '/' ↔ p.absolute = true := by
  obtain ⟨names, absolute⟩ := p
  cases absolute with
  | true => simp [string]
  | false =>
    cases names with
    | nil => simp [string, joinNames]
    | cons n rest =>
      obtain ⟨c, l, hl⟩ : ∃ c l, n.1.toList = c :: l :=
        List.exists_cons_of_ne_nil fun h => n.2.1 (String.toList_eq_nil_iff.1 h)
      have hc : c ≠ '/' := fun h => n.2.2.1 (by simp [hl, h])
      cases rest <;> simp [string, joinNames, hl, hc]

theorem string_ne_empty {p : Path} (h : p.absolute = true ∨ p.names ≠ []) : p.string ≠ "" := by
  intro hempty
  obtain ⟨names, absolute⟩ := p
  cases absolute with
  | true => simp [string] at hempty
  | false =>
    obtain ⟨n, rest, rfl⟩ := List.exists_cons_of_ne_nil (h.resolve_left (by simp))
    have hn := n.2.1
    cases rest <;> simp_all [string, joinNames]

end Path

namespace FileSystem

variable (s : FileSystem)

/-- The names of a path from the root. -/
def full (p : Path) : List Name := if p.absolute then p.names else s.cwd ++ p.names

theorem full_append (p : Path) (name : Name) : s.full (p.append name) = s.full p ++ [name] := by
  cases h : p.absolute <;> simp [full, Path.append, h]

theorem locate_string (p : Path) : s.locate p.string = s.full p := by
  unfold locate full
  rw [Path.filterMap_splitOn]
  by_cases ha : p.absolute
  · rw [if_pos ((Path.head_string p).2 ha), if_pos ha, List.nil_append]
  · rw [if_neg fun h => ha ((Path.head_string p).1 h), if_neg ha]

/-- `stat` at the text of a path. -/
theorem stat_string {p : Path} (h : p.absolute = true ∨ p.names ≠ []) :
    s.stat p.string = s.tree.kind (s.full p) := by
  rw [stat, if_neg (Path.string_ne_empty h), locate_string]

/-- `mkdir` at the text of a path. -/
theorem mkdir_string {p : Path} (h : p.absolute = true ∨ p.names ≠ []) :
    s.mkdir p.string = s.makeAt (s.full p) := by
  rw [mkdir, if_neg (Path.string_ne_empty h), locate_string]

/-- `s'` is `s` with missing directories on the way to `q` added. -/
structure Adds (q : List Name) (s' : FileSystem) : Prop where
  cwd : s'.cwd = s.cwd
  new : ∀ r, s'.tree.kind r ≠ s.tree.kind r →
    s.tree.kind r = none ∧ s'.tree.kind r = some .directory ∧ r <+: q

variable {s}

theorem Adds.refl (q : List Name) : s.Adds q s := ⟨rfl, fun _ h => absurd rfl h⟩

theorem Adds.trans {q : List Name} {s' s'' : FileSystem} (h : s.Adds q s') (h' : s'.Adds q s'') :
    s.Adds q s'' := by
  refine ⟨h'.cwd.trans h.cwd, fun r hr => ?_⟩
  by_cases hr' : s''.tree.kind r = s'.tree.kind r
  · rw [hr'] at hr ⊢
    exact h.new r hr
  · obtain ⟨hn, hd, hq⟩ := h'.new r hr'
    by_cases hs : s'.tree.kind r = s.tree.kind r
    · exact ⟨hs ▸ hn, hd, hq⟩
    · rw [(h.new r hs).2.1] at hn
      cases hn

/-- What was there is there. -/
theorem Adds.kept {q : List Name} {s' : FileSystem} (h : s.Adds q s') {r : List Name}
    (hr : (s.tree.kind r).isSome) : s'.tree.kind r = s.tree.kind r := by
  by_contra hne
  rw [(h.new r hne).1] at hr
  cases hr

theorem Adds.full {q : List Name} {s' : FileSystem} (h : s.Adds q s') (p : Path) :
    s'.full p = s.full p := by
  rw [FileSystem.full, FileSystem.full, h.cwd]

/-- `mkdir` in a directory, with a name that is free: there is one directory more. -/
theorem makeAt_concat {q : List Name} {name : Name} (hd : s.tree.kind q = some .directory)
    (hn : s.tree.kind (q ++ [name]) = none) :
    ∃ s', s.makeAt (q ++ [name]) = some s' ∧ s'.cwd = s.cwd ∧
      s'.tree.kind = Function.update s.tree.kind (q ++ [name]) (some .directory) := by
  simp only [makeAt, List.getLast?_concat, List.dropLast_concat]
  rw [dif_pos ⟨hd, hn⟩]
  exact ⟨_, rfl, rfl, rfl⟩

theorem makeAt_eq_none {q : List Name} {name : Name}
    (h : ¬ (s.tree.kind q = some .directory ∧ s.tree.kind (q ++ [name]) = none)) :
    s.makeAt (q ++ [name]) = none := by
  simp only [makeAt, List.getLast?_concat, List.dropLast_concat]
  rw [dif_neg h]

/-- A directory made on the way to `q`. -/
theorem Adds.of_makeAt {q u : List Name} {name : Name} {s' : FileSystem}
    (h : s.makeAt (q ++ [name]) = some s') (hu : q ++ [name] <+: u) :
    s.Adds u s' := by
  by_cases hdn : s.tree.kind q = some .directory ∧ s.tree.kind (q ++ [name]) = none
  · obtain ⟨t, ht, hcwd, hkind⟩ := makeAt_concat hdn.1 hdn.2
    obtain rfl : t = s' := Option.some.inj (ht.symm.trans h)
    refine ⟨hcwd, fun r hr => ?_⟩
    by_cases hrq : r = q ++ [name]
    · subst hrq
      exact ⟨hdn.2, by rw [hkind, Function.update_self], hu⟩
    · rw [hkind, Function.update_of_ne hrq] at hr
      exact absurd rfl hr
  · rw [makeAt_eq_none hdn] at h
    cases h

end FileSystem

/-! ## The loops -/

namespace Path

open FileSystem (Adds full full_append stat_string mkdir_string makeAt_concat makeAt_eq_none)

variable {s : FileSystem}

theorem exist_append (tmp : Path) (name : Name) :
    exist s (tmp.append name) = (s.tree.kind (s.full tmp ++ [name])).isSome := by
  rw [exist, stat_string s (.inr (by simp [append])), full_append]

theorem createDirectory_append (tmp : Path) (name : Name) :
    createDirectory s (tmp.append name) = s.makeAt (s.full tmp ++ [name]) := by
  rw [createDirectory, mkdir_string s (.inr (by simp [append])), full_append]

/-- One round of the loops: a directory is made on the way. -/
theorem adds_of_createDirectory {tmp : Path} {name : Name} (rest : List Name) {s' : FileSystem}
    (h : createDirectory s (tmp.append name) = some s') :
    s.Adds (s.full tmp ++ name :: rest) s' ∧ s'.full (tmp.append name) = s.full tmp ++ [name] := by
  rw [createDirectory_append] at h
  have ha := FileSystem.Adds.of_makeAt (u := s.full tmp ++ name :: rest) h
    ⟨rest, by rw [List.append_assoc, List.singleton_append]⟩
  exact ⟨ha, by rw [ha.full, full_append]⟩

/-- One round of the loops from a directory, with a free name. -/
theorem createDirectory_of_free {tmp : Path} {name : Name}
    (hd : s.tree.kind (s.full tmp) = some .directory) (hn : s.tree.kind (s.full tmp ++ [name]) = none) :
    ∃ s', createDirectory s (tmp.append name) = some s' ∧
      s'.full (tmp.append name) = s.full tmp ++ [name] ∧
      s'.tree.kind = Function.update s.tree.kind (s.full tmp ++ [name]) (some .directory) := by
  obtain ⟨s', hs', hcwd, hkind⟩ := makeAt_concat hd hn
  have h : createDirectory s (tmp.append name) = some s' := by rw [createDirectory_append, hs']
  exact ⟨s', h, (adds_of_createDirectory [] h).2, hkind⟩

theorem makeRest_adds (tmp : Path) (rest : List Name) :
    s.Adds (s.full tmp ++ rest) (makeRest s tmp rest).1 := by
  induction rest generalizing s tmp with
  | nil => exact .refl _
  | cons name rest ih =>
    cases h : createDirectory s (tmp.append name) with
    | none =>
      simp only [makeRest, h]
      exact .refl _
    | some s' =>
      obtain ⟨ha, hfull⟩ := adds_of_createDirectory rest h
      simp only [makeRest, h]
      refine ha.trans ?_
      have := ih (s := s') (tmp.append name)
      rwa [hfull, List.append_assoc, List.singleton_append] at this

theorem makeMissing_adds (tmp : Path) (rest : List Name) :
    s.Adds (s.full tmp ++ rest) (makeMissing s tmp rest).1 := by
  induction rest generalizing s tmp with
  | nil => exact .refl _
  | cons name rest ih =>
    by_cases he : exist s (tmp.append name)
    · simp only [makeMissing, if_pos he]
      have := ih (s := s) (tmp.append name)
      rwa [full_append, List.append_assoc, List.singleton_append] at this
    cases h : createDirectory s (tmp.append name) with
    | none =>
      simp only [makeMissing, if_neg he, h]
      exact .refl _
    | some s' =>
      obtain ⟨ha, hfull⟩ := adds_of_createDirectory rest h
      simp only [makeMissing, if_neg he, h]
      refine ha.trans ?_
      have := ih (s := s') (tmp.append name)
      rwa [hfull, List.append_assoc, List.singleton_append] at this

/-- From a directory with nothing of the rest in it, the whole rest is made. -/
theorem makeRest_succeeds {tmp : Path} {rest : List Name}
    (hd : s.tree.kind (s.full tmp) = some .directory)
    (hfree : ∀ name ∈ rest.head?, s.tree.kind (s.full tmp ++ [name]) = none) :
    (makeRest s tmp rest).2 = true ∧
      (makeRest s tmp rest).1.tree.kind (s.full tmp ++ rest) = some .directory := by
  induction rest generalizing s tmp with
  | nil => exact ⟨rfl, by simpa [makeRest] using hd⟩
  | cons name rest ih =>
    have hn := hfree name rfl
    obtain ⟨s', h, hfull, hkind⟩ := createDirectory_of_free hd hn
    -- The new directory is empty.
    have hfree' : ∀ name' ∈ rest.head?, s'.tree.kind (s'.full (tmp.append name) ++ [name']) = none := by
      intro name' _
      rw [hfull, hkind, Function.update_of_ne (by simp)]
      exact s.tree.nothing_below (by simp) (by rw [hn]; simp)
    have := @ih s' (tmp.append name) (by rw [hfull, hkind, Function.update_self]) hfree'
    simp only [makeRest, h]
    rwa [hfull, List.append_assoc, List.singleton_append] at this

/-- The first directory cannot be made. -/
theorem makeRest_fails {tmp : Path} {name : Name} (rest : List Name)
    (h : ¬ (s.tree.kind (s.full tmp) = some .directory ∧ s.tree.kind (s.full tmp ++ [name]) = none)) :
    makeRest s tmp (name :: rest) = (s, false) := by
  have hc : createDirectory s (tmp.append name) = none := by
    rw [createDirectory_append, makeAt_eq_none h]
  simp only [makeRest, hc]

/-- From a directory, a relative path that is not a file: the answer says if the path is there. -/
theorem makeMissing_answers {tmp : Path} {rest : List Name}
    (hd : s.tree.kind (s.full tmp) = some .directory)
    (hf : s.tree.kind (s.full tmp ++ rest) ≠ some .file) :
    (makeMissing s tmp rest).2 = true ↔
      (makeMissing s tmp rest).1.tree.kind (s.full tmp ++ rest) = some .directory := by
  induction rest generalizing s tmp with
  | nil => simpa [makeMissing] using hd
  | cons name rest ih =>
    have happend : s.full (tmp.append name) ++ rest = s.full tmp ++ name :: rest := by
      rw [full_append, List.append_assoc, List.singleton_append]
    cases hk : s.tree.kind (s.full tmp ++ [name]) with
    | none =>
      have he : ¬ exist s (tmp.append name) = true := by rw [exist_append, hk]; simp
      obtain ⟨s', h, hfull, hkind⟩ := createDirectory_of_free hd hk
      have hf' : s'.tree.kind (s'.full (tmp.append name) ++ rest) ≠ some .file := by
        rw [hfull, List.append_assoc, List.singleton_append, hkind]
        by_cases hr : s.full tmp ++ name :: rest = s.full tmp ++ [name]
        · rw [hr, Function.update_self]
          simp
        · rwa [Function.update_of_ne hr]
      have := @ih s' (tmp.append name) (by rw [hfull, hkind, Function.update_self]) hf'
      simp only [makeMissing, if_neg he, h]
      rwa [hfull, List.append_assoc, List.singleton_append] at this
    | some k =>
      have he : exist s (tmp.append name) = true := by rw [exist_append, hk]; rfl
      simp only [makeMissing, if_pos he]
      cases k with
      | directory =>
        have := @ih s (tmp.append name) (by rw [full_append, hk]) (by rwa [happend])
        rwa [happend] at this
      | file =>
        -- There is more after the file, and it cannot be made.
        obtain _ | ⟨name', rest'⟩ := rest
        · exact absurd hk hf
        have hnone := s.tree.nothing_below (u := [name']) (by simp) (by rw [hk]; simp)
        have he' : ¬ exist s ((tmp.append name).append name') = true := by
          rw [exist_append, full_append, hnone]
          simp
        have hc : createDirectory s ((tmp.append name).append name') = none := by
          rw [createDirectory_append, makeAt_eq_none]
          rw [full_append, hk]
          simp
        have hbelow := s.tree.nothing_below (u := name' :: rest') (by simp) (by rw [hk]; simp)
        rw [List.append_assoc, List.singleton_append] at hbelow
        simp only [makeMissing, if_neg he', hc, hbelow]
        simp

/-- From a directory, without a file on the way: the path is made. -/
theorem makeMissing_succeeds {tmp : Path} {rest : List Name}
    (hd : s.tree.kind (s.full tmp) = some .directory)
    (hf : ∀ q, q <+: s.full tmp ++ rest → s.tree.kind q ≠ some .file) :
    (makeMissing s tmp rest).2 = true := by
  induction rest generalizing s tmp with
  | nil => rfl
  | cons name rest ih =>
    have happend : s.full (tmp.append name) ++ rest = s.full tmp ++ name :: rest := by
      rw [full_append, List.append_assoc, List.singleton_append]
    cases hk : s.tree.kind (s.full tmp ++ [name]) with
    | none =>
      have he : ¬ exist s (tmp.append name) = true := by rw [exist_append, hk]; simp
      obtain ⟨s', h, hfull, hkind⟩ := createDirectory_of_free hd hk
      simp only [makeMissing, if_neg he, h]
      refine ih (by rw [hfull, hkind, Function.update_self]) fun q hq => ?_
      rw [hfull, List.append_assoc, List.singleton_append] at hq
      rw [hkind]
      by_cases hqn : q = s.full tmp ++ [name]
      · rw [hqn, Function.update_self]
        simp
      · rw [Function.update_of_ne hqn]
        exact hf q hq
    | some k =>
      have he : exist s (tmp.append name) = true := by rw [exist_append, hk]; rfl
      have hkd : k = .directory := by
        cases k with
        | directory => rfl
        | file =>
          exact absurd hk (hf _ ⟨rest, by rw [List.append_assoc, List.singleton_append]⟩)
      simp only [makeMissing, if_pos he]
      exact ih (by rw [full_append, hk, hkd]) (by rwa [happend])

/-- Where everything is there, there is nothing to make. -/
theorem makeMissing_exist {tmp : Path} {rest : List Name}
    (h : (s.tree.kind (s.full tmp ++ rest)).isSome) : makeMissing s tmp rest = (s, true) := by
  induction rest generalizing tmp with
  | nil => rfl
  | cons name rest ih =>
    have happend : s.full (tmp.append name) ++ rest = s.full tmp ++ name :: rest := by
      rw [full_append, List.append_assoc, List.singleton_append]
    have he : exist s (tmp.append name) = true := by
      rw [exist_append]
      rcases eq_or_ne rest [] with rfl | hne
      · exact h
      · rw [← List.singleton_append, ← List.append_assoc] at h
        rw [s.tree.directory_above hne h]
        rfl
    simp only [makeMissing, if_pos he]
    exact ih (by rwa [happend])

/-- The ancestor that `searchUp` stops at: it is there, and nothing between it and the path is. -/
theorem searchUp_spec (names : List Name) (hne : names ≠ []) :
    ∃ q rest, names = q ++ rest ∧ rest ≠ [] ∧ (searchUp s names.reverse).reverse = q ∧
      (s.tree.kind q).isSome ∧ ∀ u, u <+: rest → u ≠ [] → u ≠ rest → s.tree.kind (q ++ u) = none := by
  induction names using List.reverseRecOn with
  | nil => exact absurd rfl hne
  | append_singleton names n ih =>
    have hexist : exist s ⟨names, true⟩ = (s.tree.kind names).isSome := by
      rw [exist, stat_string s (.inl rfl)]
      rfl
    by_cases he : exist s ⟨names, true⟩ = true
    · refine ⟨names, [n], rfl, by simp, ?_, hexist ▸ he, fun u hu hu0 hun => ?_⟩
      · simp [searchUp, he]
      · obtain rfl | ⟨t, rfl, ht⟩ := List.prefix_cons_iff.1 hu
        · exact absurd rfl hu0
        · exact absurd (by rw [List.prefix_nil.1 ht]) hun
    · have hnone : s.tree.kind names = none := by simpa [hexist] using he
      have hnames : names ≠ [] := by
        rintro rfl
        rw [s.tree.root] at hnone
        cases hnone
      obtain ⟨q, rest, hqr, hrest, hs, hq, hbetween⟩ := ih hnames
      refine ⟨q, rest ++ [n], by rw [hqr, List.append_assoc], by simp, ?_, hq, fun u hu hu0 hun => ?_⟩
      · simpa [searchUp, he] using hs
      · rcases List.prefix_concat_iff.1 hu with h | h
        · exact absurd h hun
        · by_cases hur : u = rest
          · rw [hur, ← hqr]
            exact hnone
          · exact hbetween u h hu0 hur

/-! ## What the answer says -/

/-- The directories of the path are made, nothing else changes, and the answer says if the path is a
directory afterwards; it is one when there is no file on the way. -/
structure Creates (s : FileSystem) (p : Path) : Prop where
  adds : s.Adds (s.full p) (createDirectories s p).1
  answers : (createDirectories s p).2 = true ↔ isDirectory (createDirectories s p).1 p = true
  succeeds : (∀ q, q <+: s.full p → s.tree.kind q ≠ some .file) → (createDirectories s p).2 = true

/-- The paths that `create_directories` is right about. For an absolute path with more than one name
the first one must be there, and the path must not be; one with one name must be there. -/
def Meets (s : FileSystem) (p : Path) : Prop :=
  if p.absolute then
    p.names = [] ∨ (p.names.length = 1 ∧ isDirectory s p = true) ∨
      (1 < p.names.length ∧ exist s ⟨p.names.take 1, true⟩ = true ∧ isDirectory s p = false)
  else
    p.names ≠ [] ∧ isFile s p = false

theorem isDirectory_iff {p : Path} (h : p.absolute = true ∨ p.names ≠ []) :
    isDirectory s p = true ↔ s.tree.kind (s.full p) = some .directory := by
  rw [isDirectory, decide_eq_true_iff, stat_string s h]

theorem isFile_iff {p : Path} (h : p.absolute = true ∨ p.names ≠ []) :
    isFile s p = true ↔ s.tree.kind (s.full p) = some .file := by
  rw [isFile, decide_eq_true_iff, stat_string s h]

/-- The relative paths. -/
theorem creates_relative (names : List Name) : Creates s ⟨names, false⟩ ↔ Meets s ⟨names, false⟩ := by
  have hrun : createDirectories s ⟨names, false⟩ = makeMissing s ⟨[], false⟩ names := rfl
  have hcwd : s.full ⟨[], false⟩ = s.cwd := by simp [full]
  have hfull : s.full ⟨[], false⟩ ++ names = s.full ⟨names, false⟩ := by simp [full]
  have hd : s.tree.kind (s.full ⟨[], false⟩) = some .directory := by rw [hcwd, s.inside]
  have hadds := makeMissing_adds (s := s) ⟨[], false⟩ names
  rw [hfull] at hadds
  constructor
  · intro h
    have hans := h.answers
    rw [hrun] at hans
    have hne : names ≠ [] := by
      rintro rfl
      have hdir : isDirectory s ⟨[], false⟩ = true := hans.1 rfl
      simp [isDirectory, FileSystem.stat, string, joinNames] at hdir
    refine ⟨hne, ?_⟩
    rw [← Bool.not_eq_true, isFile_iff (.inr hne)]
    intro hfile
    rw [makeMissing_exist (by rw [hfull, hfile]; rfl), isDirectory_iff (.inr hne), hfile] at hans
    simp at hans
  · rintro ⟨hne, hfile⟩
    rw [← Bool.not_eq_true, isFile_iff (.inr hne), ← hfull] at hfile
    refine ⟨hadds, ?_, fun h => ?_⟩
    · rw [hrun, isDirectory_iff (.inr hne), hadds.full, ← hfull]
      exact makeMissing_answers hd hfile
    · rw [← hfull] at h
      exact makeMissing_succeeds hd h

/-- An absolute path whose only ancestor there is the root: nothing is made. -/
theorem createDirectories_root {names : List Name} (h : (searchUp s names.reverse).reverse = []) :
    createDirectories s ⟨names, true⟩ = (s, true) := by
  simp only [createDirectories, if_true, h]

/-- An absolute path with an ancestor below the root: the rest is made in it. -/
theorem createDirectories_below {q rest : List Name} (hq : q ≠ [])
    (h : (searchUp s (q ++ rest).reverse).reverse = q) :
    createDirectories s ⟨q ++ rest, true⟩ = makeRest s ⟨q, true⟩ rest := by
  simp only [createDirectories, if_true, h, if_neg hq, List.drop_left]

/-- Where the answer is true and nothing is made, it must be a directory. -/
theorem creates_of_unchanged {p : Path} (h : createDirectories s p = (s, true)) :
    Creates s p ↔ isDirectory s p = true := by
  constructor
  · intro hc
    have := hc.answers
    rw [h] at this
    exact this.1 rfl
  · intro hd
    exact ⟨by rw [h]; exact .refl _, by rw [h]; simp [hd], fun _ => by rw [h]⟩

/-- An absolute path with an ancestor below the root: it must not be a directory already. -/
theorem creates_below {q rest : List Name} (hq : q ≠ []) (hrest : rest ≠ [])
    (hs : (searchUp s (q ++ rest).reverse).reverse = q) (hsome : (s.tree.kind q).isSome)
    (hbetween : ∀ u, u <+: rest → u ≠ [] → u ≠ rest → s.tree.kind (q ++ u) = none) :
    Creates s ⟨q ++ rest, true⟩ ↔ isDirectory s ⟨q ++ rest, true⟩ = false := by
  have hrun := createDirectories_below hq hs
  have hfull : s.full ⟨q ++ rest, true⟩ = q ++ rest := rfl
  have hadds := makeRest_adds (s := s) ⟨q, true⟩ rest
  rw [← Bool.not_eq_true, isDirectory_iff (.inl rfl), hfull]
  constructor
  · intro h hdir
    obtain ⟨name, rest, rfl⟩ := List.exists_cons_of_ne_nil hrest
    have hans := h.answers
    -- The path is there, and so its first name after `q` is: it cannot be made again.
    have hthere : s.tree.kind (q ++ [name]) ≠ none := by
      rcases eq_or_ne rest [] with rfl | hr
      · rw [hdir]
        simp
      · rw [← List.singleton_append, ← List.append_assoc] at hdir
        rw [s.tree.directory_above hr (by rw [hdir]; rfl)]
        simp
    have hmake : ¬ (s.tree.kind (s.full ⟨q, true⟩) = some .directory ∧
        s.tree.kind (s.full ⟨q, true⟩ ++ [name]) = none) := fun h => hthere h.2
    rw [hrun, makeRest_fails rest hmake, isDirectory_iff (.inl rfl), hfull, hdir] at hans
    simp at hans
  · intro hdir
    obtain ⟨name, rest, rfl⟩ := List.exists_cons_of_ne_nil hrest
    by_cases hmake : s.tree.kind (s.full ⟨q, true⟩) = some .directory ∧
        s.tree.kind (s.full ⟨q, true⟩ ++ [name]) = none
    · have hfree : ∀ n ∈ (name :: rest).head?, s.tree.kind (s.full ⟨q, true⟩ ++ [n]) = none :=
        fun n hn => Option.some.inj hn ▸ hmake.2
      obtain ⟨htrue, hmade⟩ := makeRest_succeeds hmake.1 hfree
      refine ⟨by rw [hrun]; exact hadds, ?_, fun _ => by rw [hrun]; exact htrue⟩
      rw [hrun, isDirectory_iff (.inl rfl), htrue]
      exact ⟨fun _ => hmade, fun _ => rfl⟩
    · have hfail := makeRest_fails rest hmake
      refine ⟨by rw [hrun]; exact hadds, ?_, fun hfiles => ?_⟩
      · rw [hrun, hfail, isDirectory_iff (.inl rfl), hfull]
        simpa using hdir
      -- Without a file on the way the first directory could have been made.
      · refine absurd ?_ hmake
        refine ⟨?_, ?_⟩
        · obtain ⟨k, hk⟩ := Option.isSome_iff_exists.1 hsome
          cases k with
          | directory => exact hk
          | file => exact absurd hk (hfiles q (List.prefix_append _ _))
        · rcases eq_or_ne rest [] with rfl | hr
          · cases hk : s.tree.kind (q ++ [name]) with
            | none => exact hk
            | some k =>
              cases k with
              | directory => exact absurd hk hdir
              | file => exact absurd hk (hfiles _ (List.prefix_refl _))
          · exact hbetween [name] (by simp) (by simp) (by simpa using hr.symm)

/-- The absolute paths. -/
theorem creates_absolute (names : List Name) : Creates s ⟨names, true⟩ ↔ Meets s ⟨names, true⟩ := by
  rcases eq_or_ne names [] with rfl | hne
  · have hdir : isDirectory s ⟨[], true⟩ = true := by
      rw [isDirectory_iff (.inl rfl)]
      exact s.tree.root
    rw [creates_of_unchanged (createDirectories_root rfl)]
    exact ⟨fun _ => .inl rfl, fun _ => hdir⟩
  obtain ⟨q, rest, rfl, hrest, hs, hsome, hbetween⟩ := searchUp_spec (s := s) names hne
  have hlen := List.length_pos_iff.2 hrest
  rcases eq_or_ne q [] with rfl | hq
  · rw [creates_of_unchanged (createDirectories_root hs)]
    rw [List.nil_append]
    -- The first name is there only if it is the whole path.
    constructor
    · intro hdir
      refine .inr (.inl ⟨?_, hdir⟩)
      by_contra hlen'
      obtain ⟨name, rest, rfl⟩ := List.exists_cons_of_ne_nil hrest
      have hr : rest ≠ [] := by
        rintro rfl
        exact hlen' rfl
      have hnone := hbetween [name] (by simp) (by simp) (by simpa using hr.symm)
      rw [isDirectory_iff (.inl rfl)] at hdir
      have hsome : (s.tree.kind ([name] ++ rest)).isSome := by
        rw [List.singleton_append]
        exact hdir ▸ rfl
      have hd := s.tree.directory_above hr hsome
      rw [List.nil_append, hd] at hnone
      cases hnone
    · rintro (h | ⟨-, h⟩ | ⟨hlen', hexist, -⟩)
      · exact absurd h hrest
      · exact h
      · obtain ⟨name, rest, rfl⟩ := List.exists_cons_of_ne_nil hrest
        rw [exist, stat_string s (.inl rfl)] at hexist
        have hnone := hbetween [name] (by simp) (by simp) (by
          intro h
          rw [← h] at hlen'
          simp at hlen')
        change (s.tree.kind [name]).isSome = true at hexist
        rw [List.nil_append] at hnone
        rw [hnone] at hexist
        cases hexist
  · rw [creates_below hq hrest hs hsome hbetween]
    have hlen' := List.length_pos_iff.2 hq
    constructor
    · intro hdir
      refine .inr (.inr ⟨by rw [List.length_append]; omega, ?_, hdir⟩)
      obtain ⟨name, q, rfl⟩ := List.exists_cons_of_ne_nil hq
      rw [exist, stat_string s (.inl rfl)]
      change (s.tree.kind [name]).isSome = true
      rcases eq_or_ne q [] with rfl | hq'
      · exact hsome
      · rw [s.tree.directory_above (q := [name]) hq' hsome]
        rfl
    · rintro (h | ⟨hone, -⟩ | ⟨-, -, h⟩)
      · exact absurd (List.append_eq_nil_iff.1 h).1 hq
      · rw [List.length_append] at hone
        omega
      · exact h

/-- `create_directories` is right exactly about the paths of `Meets`. -/
theorem creates_iff (s : FileSystem) (p : Path) : Creates s p ↔ Meets s p := by
  obtain ⟨names, absolute⟩ := p
  cases absolute with
  | false => exact creates_relative names
  | true => exact creates_absolute names

/-- A tree with the root only. -/
def onlyRoot : FileSystem where
  tree := {
    kind := fun q => if q = [] then some .directory else none
    root := rfl
    closed := fun q name h => by
      rw [if_neg (by simp)] at h
      cases h
    finite := by
      refine (Set.finite_singleton ([] : List Name)).subset fun q hq => ?_
      by_contra hne
      have hne' : q ≠ [] := hne
      rw [Set.mem_ofPred_eq, if_neg hne'] at hq
      cases hq }
  cwd := []
  inside := rfl

/-- The first directory below the root is not made, and the answer is true. -/
theorem not_creates_home : ¬ Creates onlyRoot ⟨[⟨"home", by decide⟩], true⟩ := by
  intro h
  have hdir := h.answers.1 rfl
  rw [createDirectories_root rfl, isDirectory_iff (.inl rfl)] at hdir
  exact absurd hdir (by decide)

end Path

end Vle.Utils
