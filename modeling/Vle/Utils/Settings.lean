import Vle.Lib.Decimal

/-!
# The settings of a context

A `Context` maps the keys that it knows to values of four types. `write_settings` prints them as lines
`key=value`, and `load_settings` reads such lines: the type of the value that a key has says how its text
is converted. The chain of tests has the integers twice and the doubles not at all, so a file gives back
every setting but the doubles (`find_load`). `clone` puts the settings of the new context into itself, so
a clone has the settings that it starts with (`clone_eq`). What is left of the round trips is `survives`.
-/

namespace Vle.Utils.Context

open Lib

/-! ## Values -/

/-- The types of `PreferenceType`. -/
inductive PreferenceKind where
  | bool
  | string
  | long
  | double
  deriving DecidableEq, Repr

/-- `PreferenceType`. -/
inductive PreferenceType (D : Type) where
  | bool (b : Bool)
  | string (str : String)
  | long (i : Int64)
  | double (d : D)
  deriving DecidableEq

/-- How doubles are printed on a stream, and `std::stod`: none when it throws. -/
structure DoubleText (D : Type) where
  print : D → String
  stod : String → Option D
  one_line : ∀ d, '\n' ∉ (print d).toList

variable {D : Type}

namespace PreferenceType

def kind : PreferenceType D → PreferenceKind
  | bool _ => .bool
  | string _ => .string
  | long _ => .long
  | double _ => .double

/-- The text on a stream with `std::boolalpha`. -/
def print (T : DoubleText D) : PreferenceType D → String
  | bool b => if b then "true" else "false"
  | string str => str
  | long i => toString i.toInt
  | double d => T.print d

/-- A string that is one line. -/
def Plain : PreferenceType D → Prop
  | string str => '\n' ∉ str.toList
  | _ => True

end PreferenceType

/-- `std::stol`: none when it throws, without a digit or out of range. -/
def stol (value : String) : Option Int64 :=
  match decimal value.toList with
  | some r => if -2 ^ 63 ≤ r ∧ r < 2 ^ 63 then some (Int64.ofInt r) else none
  | none => none

/-! ## Maps -/

/-- The keys that a context knows, with the types of their values. -/
structure Keys where
  keys : List (String × PreferenceKind)
  nodup : (keys.map Prod.fst).Nodup
  valid : ∀ k ∈ keys, k.1 ≠ "" ∧ '=' ∉ k.1.toList ∧ '\n' ∉ k.1.toList

/-- `PreferenceMap` with the known keys. -/
@[ext]
structure Settings (K : Keys) (D : Type) where
  entries : List (String × PreferenceType D)
  typed : entries.map (fun e => (e.1, e.2.kind)) = K.keys

variable {K : Keys}

namespace Settings

/-- `find`. -/
def find (s : Settings K D) (key : String) : Option (PreferenceType D) :=
  (s.entries.find? fun e => e.1 = key).map Prod.snd

/-- An assignment to the value of a key, which has its type. -/
def store (s : Settings K D) (key : String) (v : PreferenceType D) : Settings K D where
  entries := s.entries.map fun e => if e.1 = key ∧ e.2.kind = v.kind then (e.1, v) else e
  typed := by
    rw [List.map_map, ← s.typed]
    refine List.map_congr_left fun e _ => ?_
    simp only [Function.comp]
    split_ifs with h
    · rw [h.2]
    · rfl

/-- `set_setting`, whose overloads are for the types of the values. -/
def set_setting (s : Settings K D) (key : String) (value : PreferenceType D) : Settings K D × Bool :=
  match s.find key with
  | none => (s, false)
  | some it => if it.kind = value.kind then (s.store key value, true) else (s, false)

/-- A number of calls of `set_setting`. -/
def assign (s : Settings K D) (values : List (String × PreferenceType D)) : Settings K D :=
  values.foldl (fun s v => (s.set_setting v.1 v.2).1) s

/-! ## Files -/

/-- The line of a setting. -/
def line (T : DoubleText D) (e : String × PreferenceType D) : String := e.1 ++ "=" ++ e.2.print T

/-- `write_settings`: what is in the file. -/
def write_settings (T : DoubleText D) (s : Settings K D) : String :=
  String.join (s.entries.map fun e => line T e ++ "\n")

/-- The lines that `std::getline` reads from a text. -/
def lines (text : String) : List String :=
  let l := text.toList.splitOn '\n'
  (if l.getLast? = some [] then l.dropLast else l).map String.ofList

/-- The key and the value in a line. -/
def splitLine (line : String) : Option (String × String) :=
  match line.toList.findIdx? (· = '=') with
  | none => none
  | some equalchar =>
    if equalchar = 0 ∨ equalchar = line.length then none
    else
      some (String.ofList (line.toList.take equalchar),
        String.ofList (line.toList.drop (equalchar + 1)))

/-- The chain of tests on the value that a key has, and the conversion of a text to its type. -/
def convert (T : DoubleText D) (l : ℕ) (it : PreferenceType D) (value : String) :
    Except String (PreferenceType D) :=
  if it.kind = .bool then
    if value = "1" ∨ value = "true" ∨ value = "1" ∨ value = "TRUE" ∨ value = "True" then .ok (.bool true)
    else if value = "false" ∨ value = "0" ∨ value = "FALSE" ∨ value = "False" then .ok (.bool false)
    else .error s!"Settings: fail reading boolean value at line {l} in {value}\n"
  else if it.kind = .string then .ok (.string value)
  else if it.kind = .long then
    match stol value with
    | some r => .ok (.long r)
    | none => .error s!"Settings: fail reading integer value at line {l} in {value}\n"
  -- The same test again: a double comes to the end of the chain.
  else if it.kind = .long then
    match T.stod value with
    | some r => .ok (.double r)
    | none => .error s!"Settings: fail reading double value at line {l} in {value}\n"
  else .ok it

/-- What a load leaves: the settings, the answer, and what has been logged. -/
structure Loaded (K : Keys) (D : Type) where
  settings : Settings K D
  answer : Bool
  log : List String

/-- The loop of `load_settings`, which does not count the lines with unknown keys. -/
def load_lines (T : DoubleText D) (conf : String) (l : ℕ) (log : List String) (s : Settings K D) :
    List String → Loaded K D
  | [] => ⟨s, true, log⟩
  | line :: rest =>
    match splitLine line with
    | none => ⟨s, false, log ++ [s!"Settings: fail while reading '{conf}' line '{l}'\n"]⟩
    | some (key, value) =>
      match s.find key with
      | none => load_lines T conf l (log ++ [s!"Settings: unknown key `{key}'\n"]) s rest
      | some it =>
        match convert T l it value with
        | .ok v => load_lines T conf (l + 1) log (s.store key v) rest
        | .error msg => load_lines T conf (l + 1) (log ++ [msg]) s rest

/-- `load_settings` from a configuration file, if it can be read. -/
def load_settings (T : DoubleText D) (conf : String) (file : Option String) (s : Settings K D) :
    Loaded K D :=
  match file with
  | none =>
    ⟨s, false, [s!"Settings: fail to read configuration file `{conf}'." ++
      " Use default settings instead.\n"]⟩
  | some text => load_lines T conf 0 [] s (lines text)

/-- `std::map::insert`, which leaves a key that is there alone. -/
def insert (m : List (String × PreferenceType D)) (e : String × PreferenceType D) :
    List (String × PreferenceType D) :=
  if e.1 ∈ m.map Prod.fst then m else m ++ [e]

theorem foldl_insert (l m : List (String × PreferenceType D)) (h : ∀ e ∈ l, e ∈ m) :
    l.foldl insert m = m := by
  induction l with
  | nil => rfl
  | cons e l ih =>
    have he : insert m e = m := if_pos (List.mem_map_of_mem (h e List.mem_cons_self))
    rw [List.foldl_cons, he]
    exact ih fun e' he' => h e' (List.mem_cons_of_mem _ he')

/-- The settings of `clone`: its loop goes over the settings of the new context, not over those of
`this`. -/
def clone (_this nctx : Settings K D) : Settings K D where
  entries := nctx.entries.foldl insert nctx.entries
  typed := by rw [foldl_insert _ _ fun _ h => h, nctx.typed]

/-! ## What is found -/

variable {s t : Settings K D} {key : String} {v : PreferenceType D}

theorem keys_eq (s : Settings K D) : s.entries.map Prod.fst = K.keys.map Prod.fst := by
  rw [← s.typed, List.map_map]
  rfl

theorem find_iff : s.find key = some v ↔ (key, v) ∈ s.entries := by
  have hnodup : (s.entries.map Prod.fst).Nodup := s.keys_eq ▸ K.nodup
  unfold find
  constructor
  · intro h
    obtain ⟨e, he, rfl⟩ := Option.map_eq_some_iff.1 h
    have hkey : e.1 = key := by simpa using List.find?_some he
    exact hkey ▸ List.mem_of_find?_eq_some he
  · intro h
    obtain ⟨e, he⟩ : ∃ e, s.entries.find? (fun e => e.1 = key) = some e := by
      rw [← Option.isSome_iff_exists, List.find?_isSome]
      exact ⟨_, h, by simp⟩
    have hkey : e.1 = key := by simpa using List.find?_some he
    have heq : e = (key, v) :=
      List.inj_on_of_nodup_map hnodup (List.mem_of_find?_eq_some he) h hkey
    rw [he, heq]
    rfl

/-- What is found has the type of its key. -/
theorem kind_of_find (h : s.find key = some v) : (key, v.kind) ∈ K.keys := by
  rw [← s.typed]
  exact List.mem_map_of_mem (f := fun e : String × PreferenceType D => (e.1, e.2.kind)) (find_iff.1 h)

/-- A known key is found, with a value of its type. -/
theorem exists_find (t : Settings K D) {kind : PreferenceKind} (hk : (key, kind) ∈ K.keys) :
    ∃ it, t.find key = some it ∧ it.kind = kind := by
  rw [← t.typed] at hk
  obtain ⟨e, he, heq⟩ := List.mem_map.1 hk
  obtain ⟨rfl, hkind⟩ := Prod.ext_iff.1 heq
  exact ⟨e.2, find_iff.2 he, hkind⟩

/-- A key is found with the value that has been assigned, and the other keys as before. -/
theorem find_store {it : PreferenceType D} (h : s.find key = some it) (hk : it.kind = v.kind)
    (k : String) :
    (s.store key v).find k = if k = key then some v else s.find k := by
  by_cases hkey : k = key
  · subst hkey
    rw [if_pos rfl, find_iff]
    exact List.mem_map.2 ⟨_, find_iff.1 h, if_pos ⟨rfl, hk⟩⟩
  · rw [if_neg hkey]
    cases hf : s.find k with
    | some w =>
      rw [find_iff]
      exact List.mem_map.2 ⟨_, find_iff.1 hf, if_neg fun h => hkey h.1⟩
    | none =>
      by_contra hne
      obtain ⟨w, hw⟩ := Option.ne_none_iff_exists'.1 hne
      obtain ⟨_, hs, -⟩ := exists_find s (kind_of_find hw)
      rw [hf] at hs
      cases hs

/-! ## Lines -/

section Lines

variable (T : DoubleText D)

/-- `std::stol` reads what has been printed. -/
theorem stol_print (i : Int64) : stol (toString i.toInt) = some i := by
  simp only [stol, decimal_toString]
  rw [if_pos ⟨i.le_toInt, i.toInt_lt⟩, Int64.ofInt_toInt]

theorem print_one_line (h : v.Plain) : '\n' ∉ (v.print T).toList := by
  cases v with
  | bool b => cases b <;> simp [PreferenceType.print]
  | string str => exact h
  | long i =>
    intro hmem
    rw [PreferenceType.print, toList_toString, List.mem_append] at hmem
    rcases hmem with hmem | hmem
    · split_ifs at hmem <;> simp at hmem
    · exact absurd (isDigit_of_mem hmem) (by decide)
  | double d => exact T.one_line d

/-- A line is split where it has been put together. -/
theorem splitLine_line (hne : key ≠ "") (heq : '=' ∉ key.toList) :
    splitLine (line T (key, v)) = some (key, v.print T) := by
  have hline : (line T (key, v)).toList = key.toList ++ '=' :: (v.print T).toList := by
    simp [line]
  have hfind : (key.toList ++ '=' :: (v.print T).toList).findIdx? (fun c => decide (c = '=')) =
      some key.toList.length := by
    have hnone : key.toList.findIdx? (fun c => decide (c = '=')) = none := by
      rw [List.findIdx?_eq_none_iff]
      intro c hc
      exact decide_eq_false fun h => heq (h ▸ hc)
    rw [List.findIdx?_append, hnone, List.findIdx?_cons]
    simp
  have hlen : (line T (key, v)).length = key.toList.length + 1 + (v.print T).toList.length := by
    rw [← String.length_toList, hline]
    simp
    omega
  have hpos : key.toList.length ≠ 0 :=
    fun h => hne (String.toList_eq_nil_iff.1 (List.length_eq_zero_iff.1 h))
  simp only [splitLine, hline, hfind]
  rw [if_neg (by omega)]
  simp

/-- The lines of the file are those of the settings. -/
theorem lines_write (es : List (String × PreferenceType D))
    (h : ∀ e ∈ es, '\n' ∉ (line T e).toList) :
    lines (String.join (es.map fun e => line T e ++ "\n")) = es.map (line T) := by
  have htext : (String.join (es.map fun e => line T e ++ "\n")).toList =
      ['\n'].intercalate (es.map (fun e => (line T e).toList) ++ [[]]) := by
    clear h
    rw [String.toList_join]
    induction es with
    | nil => rfl
    | cons e es ih =>
      rw [List.map_cons, List.flatMap_cons, ih, List.map_cons, List.cons_append]
      cases es with
      | nil => simp
      | cons e' es => simp
  have hno : ∀ l ∈ es.map (fun e => (line T e).toList) ++ [[]], '\n' ∉ l := by
    intro l hl
    rcases List.mem_append.1 hl with hl | hl
    · obtain ⟨e, he, rfl⟩ := List.mem_map.1 hl
      exact h e he
    · rw [List.mem_singleton.1 hl]
      simp
  unfold lines
  rw [htext, List.splitOn_intercalate _ hno (by simp)]
  simp [Function.comp_def]

/-! ## Loading -/

/-- The conversion of a text that has been printed, by the value that the key has. -/
theorem convert_print (l : ℕ) {it : PreferenceType D} (h : it.kind = v.kind) :
    convert T l it (v.print T) = .ok (if v.kind = .double then it else v) := by
  cases v with
  | bool b =>
    have hk : it.kind = .bool := h
    simp only [convert, if_pos hk, PreferenceType.print]
    cases b <;> rfl
  | string str =>
    have hk : it.kind = .string := h
    simp only [convert, hk, PreferenceType.print]
    rfl
  | long i =>
    have hk : it.kind = .long := h
    simp only [convert, hk, PreferenceType.print, stol_print]
    rfl
  | double d =>
    have hk : it.kind = .double := h
    simp only [convert, hk]
    rfl

/-- The loop of `load_settings` over the lines of some settings stores their values, the doubles
apart. -/
theorem load_lines_spec (conf : String) {es : List (String × PreferenceType D)}
    (hnodup : (es.map Prod.fst).Nodup) (hes : ∀ e ∈ es, (e.1, e.2.kind) ∈ K.keys) (l : ℕ)
    (log : List String) (t : Settings K D) :
    (load_lines T conf l log t (es.map (line T))).answer = true ∧
      (∀ key v, (key, v) ∈ es → v.kind ≠ .double →
        (load_lines T conf l log t (es.map (line T))).settings.find key = some v) ∧
      ∀ key, (∀ v, (key, v) ∈ es → v.kind = .double) →
        (load_lines T conf l log t (es.map (line T))).settings.find key = t.find key := by
  induction es generalizing l t with
  | nil => exact ⟨rfl, by simp, fun _ _ => rfl⟩
  | cons e es ih =>
    obtain ⟨k, w⟩ := e
    obtain ⟨hk, hnodup⟩ := List.nodup_cons.1 hnodup
    have hmem := hes _ List.mem_cons_self
    obtain ⟨it, hit, hkind⟩ := exists_find t hmem
    obtain ⟨hne, heq, -⟩ := K.valid _ hmem
    set w' := if w.kind = .double then it else w with hw'
    have hstep : load_lines T conf l log t (((k, w) :: es).map (line T)) =
        load_lines T conf (l + 1) log (t.store k w') (es.map (line T)) := by
      simp only [List.map_cons, load_lines, splitLine_line T hne heq, hit, convert_print T l hkind,
        ← hw']
    have hstore : ∀ key, (t.store k w').find key = if key = k then some w' else t.find key :=
      find_store hit (by rw [hw']; split_ifs; exacts [rfl, hkind])
    obtain ⟨hanswer, hstored, hkept⟩ :=
      ih hnodup (fun e he => hes e (List.mem_cons_of_mem _ he)) (l + 1) (t.store k w')
    rw [hstep]
    refine ⟨hanswer, fun key v hv hdouble => ?_, fun key hv => ?_⟩
    · rcases List.mem_cons.1 hv with heq' | hv
      -- The other lines have other keys.
      · obtain ⟨rfl, rfl⟩ := Prod.ext_iff.1 heq'
        rw [hkept _ fun v' hv' => absurd (List.mem_map_of_mem (f := Prod.fst) hv') hk, hstore,
          if_pos rfl, hw', if_neg hdouble]
      · exact hstored key v hv hdouble
    · rw [hkept key fun v' hv' => hv v' (List.mem_cons_of_mem _ hv'), hstore]
      split_ifs with hkey
      · rw [hkey, hit, hw', if_pos (hv w (by rw [hkey]; exact List.mem_cons_self))]
      · rfl

end Lines

/-! ## What survives -/

/-- All strings of the settings are one line. -/
def Plain (s : Settings K D) : Prop := ∀ e ∈ s.entries, e.2.Plain

/-- `set_setting` with a known key and a value of its type. -/
theorem set_setting_spec (s : Settings K D) (h : (key, v.kind) ∈ K.keys) :
    (s.set_setting key v).2 = true ∧
      ∀ k, (s.set_setting key v).1.find k = if k = key then some v else s.find k := by
  obtain ⟨it, hit, hkind⟩ := exists_find s h
  have hset : s.set_setting key v = (s.store key v, true) := by
    simp only [set_setting, hit, if_pos hkind]
  rw [hset]
  exact ⟨rfl, find_store hit hkind⟩

theorem plain_set_setting (hs : s.Plain) (hv : v.Plain) : (s.set_setting key v).1.Plain := by
  have hstore : (s.store key v).Plain := by
    intro e he
    obtain ⟨e', he', rfl⟩ := List.mem_map.1 he
    split_ifs
    · exact hv
    · exact hs e' he'
  unfold set_setting
  split
  · exact hs
  · split_ifs
    · exact hstore
    · exact hs

theorem plain_assign {values : List (String × PreferenceType D)} (hs : s.Plain)
    (hvalues : ∀ v ∈ values, v.2.Plain) : (s.assign values).Plain := by
  induction values generalizing s with
  | nil => exact hs
  | cons v values ih =>
    exact ih (plain_set_setting hs (hvalues v List.mem_cons_self))
      fun w hw => hvalues w (List.mem_cons_of_mem _ hw)

/-- Loading what has been written: the doubles of the context that reads stay, the rest comes back. -/
theorem find_load (T : DoubleText D) (conf : String) (hs : s.Plain) (t : Settings K D) :
    (load_settings T conf (some (write_settings T s)) t).answer = true ∧
      ∀ key v, s.find key = some v →
        (load_settings T conf (some (write_settings T s)) t).settings.find key =
          if v.kind = .double then t.find key else some v := by
  have hnodup : (s.entries.map Prod.fst).Nodup := s.keys_eq ▸ K.nodup
  have htyped : ∀ e ∈ s.entries, (e.1, e.2.kind) ∈ K.keys := fun e he => kind_of_find (find_iff.2 he)
  have hlines : ∀ e ∈ s.entries, '\n' ∉ (line T e).toList := by
    intro e he hmem
    have hkey := (K.valid _ (htyped e he)).2.2
    simp only [line, String.toList_append, List.mem_append] at hmem
    rcases hmem with (hmem | hmem) | hmem
    · exact hkey hmem
    · exact absurd hmem (by decide)
    · exact print_one_line T (hs e he) hmem
  obtain ⟨hanswer, hstored, hkept⟩ := load_lines_spec T conf hnodup htyped 0 [] t
  simp only [load_settings, write_settings, lines_write T s.entries hlines]
  refine ⟨hanswer, fun key v hv => ?_⟩
  split_ifs with hdouble
  · refine hkept key fun w hw => ?_
    rw [Option.some.inj ((find_iff.2 hw).symm.trans hv), hdouble]
  · exact hstored key v (find_iff.1 hv) hdouble

/-- A context that reads what another one has written gets its settings. -/
def ReadsBack (T : DoubleText D) (conf : String) (s t : Settings K D) : Prop :=
  (load_settings T conf (some (write_settings T s)) t).answer = true ∧
    ∀ key, (load_settings T conf (some (write_settings T s)) t).settings.find key = s.find key

/-- A clone, which starts with the settings `t`, gets the settings of the context. -/
def Clones (s t : Settings K D) : Prop := ∀ key, (clone s t).find key = s.find key

/-- The settings `t` have the doubles of `s`. -/
def SameDoubles (s t : Settings K D) : Prop :=
  ∀ key d, s.find key = some (.double d) → t.find key = some (.double d)

theorem readsBack_iff (T : DoubleText D) (conf : String) (hs : s.Plain) (t : Settings K D) :
    ReadsBack T conf s t ↔ SameDoubles s t := by
  obtain ⟨hanswer, hload⟩ := find_load T conf hs t
  constructor
  · rintro ⟨-, hback⟩ key d hd
    have hkept := hload key _ hd
    rw [if_pos (show (PreferenceType.double d).kind = .double from rfl), hback key, hd] at hkept
    exact hkept.symm
  · intro hdoubles
    refine ⟨hanswer, fun key => ?_⟩
    cases hv : s.find key with
    | none =>
      -- A key that is not known is not found in any settings.
      by_contra hne
      obtain ⟨w, hw⟩ := Option.ne_none_iff_exists'.1 hne
      obtain ⟨_, hsome, -⟩ := exists_find s (kind_of_find hw)
      rw [hv] at hsome
      cases hsome
    | some v =>
      rw [hload key v hv]
      cases v with
      | double d => exact hdoubles key d hv
      | bool b => rfl
      | string str => rfl
      | long i => rfl

/-- A clone has the settings that it starts with. -/
theorem clone_eq (s t : Settings K D) : clone s t = t :=
  Settings.ext (foldl_insert _ _ fun _ he => he)

/-- What `set_setting` has made of the settings comes back from a file when the doubles are those that
the reading context starts with, and from `clone` when all settings are those that the clone starts
with. -/
theorem survives_iff (T : DoubleText D) (conf : String) (s t : Settings K D)
    (values : List (String × PreferenceType D)) (hs : s.Plain) (hvalues : ∀ v ∈ values, v.2.Plain) :
    (ReadsBack T conf (s.assign values) t ↔ SameDoubles (s.assign values) t) ∧
      (Clones (s.assign values) t ↔ ∀ key, t.find key = (s.assign values).find key) := by
  refine ⟨readsBack_iff T conf (plain_assign hs hvalues) t, ?_⟩
  rw [Clones, clone_eq]

end Settings

/-! ## The known keys -/

/-- The keys of `reset_settings`. -/
def known : Keys where
  keys := [
    ("gvle.editor.auto-indent", .bool),
    ("gvle.editor.font", .string),
    ("gvle.editor.highlight-brackets", .bool),
    ("gvle.editor.highlight-line", .bool),
    ("gvle.editor.highlight-syntax", .bool),
    ("gvle.editor.indent-on-tab", .bool),
    ("gvle.editor.indent-size", .long),
    ("gvle.editor.show-line-numbers", .bool),
    ("gvle.editor.show-right-margin", .bool),
    ("gvle.editor.smart-home-end", .bool),
    ("gvle.graphics.atomic-color", .string),
    ("gvle.graphics.background-color", .string),
    ("gvle.graphics.connection-color", .string),
    ("gvle.graphics.coupled-color", .string),
    ("gvle.graphics.font", .string),
    ("gvle.graphics.font-size", .double),
    ("gvle.graphics.foreground-color", .string),
    ("gvle.graphics.line-width", .double),
    ("gvle.graphics.selected-color", .string),
    ("gvle.packages.auto-build", .bool),
    ("vle.command.dir.copy", .string),
    ("vle.command.dir.remove", .string),
    ("vle.command.tar", .string),
    ("vle.command.untar", .string),
    ("vle.command.url.get", .string),
    ("vle.command.vle.simulation", .string),
    ("vle.packages.build", .string),
    ("vle.packages.clean", .string),
    ("vle.packages.configure", .string),
    ("vle.packages.install", .string),
    ("vle.packages.package", .string),
    ("vle.packages.test", .string),
    ("vle.remote.url", .string),
    ("vle.simulation.block-size", .long),
    ("vle.simulation.thread", .long)]
  nodup := by decide +kernel
  valid := by decide +kernel

/-- `reset_settings`, for the texts with the version in them, and the numbers 10 and 3. -/
def reset_settings (url simulation : String) (ten three : D) : Settings known D where
  entries := [
    ("gvle.editor.auto-indent", .bool true),
    ("gvle.editor.font", .string "Monospace 10"),
    ("gvle.editor.highlight-brackets", .bool true),
    ("gvle.editor.highlight-line", .bool true),
    ("gvle.editor.highlight-syntax", .bool true),
    ("gvle.editor.indent-on-tab", .bool true),
    ("gvle.editor.indent-size", .long 4),
    ("gvle.editor.show-line-numbers", .bool true),
    ("gvle.editor.show-right-margin", .bool true),
    ("gvle.editor.smart-home-end", .bool true),
    ("gvle.graphics.atomic-color", .string "#0000ffff0000"),
    ("gvle.graphics.background-color", .string "#ffffffffffff"),
    ("gvle.graphics.connection-color", .string "#000000000000"),
    ("gvle.graphics.coupled-color", .string "#00000000ffff"),
    ("gvle.graphics.font", .string "Monospace 10"),
    ("gvle.graphics.font-size", .double ten),
    ("gvle.graphics.foreground-color", .string "#000000000000"),
    ("gvle.graphics.line-width", .double three),
    ("gvle.graphics.selected-color", .string "#ffff00000000"),
    ("gvle.packages.auto-build", .bool true),
    ("vle.command.dir.copy", .string "cmake -E copy_directory '%1%' '%2%'"),
    ("vle.command.dir.remove", .string "cmake -E remove_directory '%1%'"),
    ("vle.command.tar", .string "cmake -E tar jcf '%1%' '%2%'"),
    ("vle.command.untar", .string "cmake -E tar jxf '%1%'"),
    ("vle.command.url.get", .string "curl -k -L '%1%' -o '%2%'"),
    ("vle.command.vle.simulation", .string simulation),
    ("vle.packages.build", .string "cmake --build '%1%' --target all"),
    ("vle.packages.clean", .string "cmake --build '%1%' --target clean"),
    ("vle.packages.configure", .string ("cmake -DCMAKE_INSTALL_PREFIX='%1%' -DWITH_DOC=OFF " ++
      "-DWITH_TEST=ON -DWITH_WARNINGS=ON -DCMAKE_BUILD_TYPE=RelWithDebInfo ..")),
    ("vle.packages.install", .string "cmake --build '%1%' --target install"),
    ("vle.packages.package", .string "cmake --build '%1%' --target package_source"),
    ("vle.packages.test", .string "cmake --build '%1%' --target test"),
    ("vle.remote.url", .string url),
    ("vle.simulation.block-size", .long 8),
    ("vle.simulation.thread", .long 0)]
  typed := rfl

/-- Numbers as doubles. -/
def naturals : DoubleText ℕ where
  print := Nat.repr
  stod := fun value => some (Nat.ofDigitChars 10 value.toList 0)
  one_line := fun d h => by
    rw [Nat.toList_repr] at h
    exact absurd (isDigit_of_mem h) (by decide)

/-- A font size that is not the one that the contexts start with. -/
def sized : Settings known ℕ :=
  (reset_settings "" "" 10 3).assign [("gvle.graphics.font-size", .double 12)]

theorem plain_reset : (reset_settings "" "" 10 3 : Settings known ℕ).Plain := by
  simp [Settings.Plain, reset_settings, PreferenceType.Plain]

/-- It does not come back from a file, and not from a clone. -/
theorem not_survives_font : ¬ Settings.ReadsBack naturals "" sized (reset_settings "" "" 10 3) ∧
    ¬ Settings.Clones sized (reset_settings "" "" 10 3) := by
  have hsized : sized.find "gvle.graphics.font-size" = some (.double 12) := by
    decide +kernel
  have hreset : (reset_settings "" "" 10 3 : Settings known ℕ).find "gvle.graphics.font-size" =
      some (.double 10) := by decide +kernel
  have hplain : sized.Plain := Settings.plain_assign plain_reset (by simp [PreferenceType.Plain])
  constructor
  · intro hback
    have hfind := (Settings.readsBack_iff naturals "" hplain _).1 hback _ _ hsized
    rw [hreset] at hfind
    simp at hfind
  · intro hclone
    have hfind := hclone "gvle.graphics.font-size"
    rw [Settings.clone_eq, hsized, hreset] at hfind
    simp at hfind

/-- What comes back of the font size and of the indentation, for contexts that start alike. -/
theorem survives_iff_sized :
    (Settings.ReadsBack naturals "" ((reset_settings "" "" 10 3).assign
        [("gvle.graphics.font-size", .double 12), ("gvle.editor.indent-size", .long 2)])
        (reset_settings "" "" 10 3) ↔
      Settings.SameDoubles ((reset_settings "" "" 10 3).assign
        [("gvle.graphics.font-size", .double 12), ("gvle.editor.indent-size", .long 2)])
        (reset_settings "" "" 10 3)) ∧
    (Settings.Clones ((reset_settings "" "" 10 3 : Settings known ℕ).assign
        [("gvle.graphics.font-size", .double 12), ("gvle.editor.indent-size", .long 2)])
        (reset_settings "" "" 10 3) ↔
      ∀ key, (reset_settings "" "" 10 3 : Settings known ℕ).find key =
        ((reset_settings "" "" 10 3).assign
          [("gvle.graphics.font-size", .double 12), ("gvle.editor.indent-size", .long 2)]).find key) :=
  Settings.survives_iff naturals "" _ _ _ plain_reset (by simp [PreferenceType.Plain])

end Vle.Utils.Context
