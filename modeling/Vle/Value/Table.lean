import Vle.Lib.EState
import Vle.Lib.Grid
import Vle.Lib.Runs
import Vle.Value.Matrix
import Mathlib.Data.List.DropRight

/-!
# Tables and tuples

`value::Table` keeps its numbers line after line in a vector, and `value::Tuple` is a vector of numbers.
What an accessor that checks its indices is to do is `Checks`: it throws outside of the dimensions, and
inside it goes on with what is stored.

Both classes compare an index with the size of the vector and let the size itself through. `Table` does
so with the place of a pair of indices, so a pair outside of the dimensions whose place is inside of the
vector goes through too: `Table.checks_iff` and `Tuple.checks_iff` say which indices are checked.
-/

namespace Vle

open Lib Lib.Storage

/-- What an accessor that checks its indices is to do. Inside of the dimensions there is something
stored, with which it goes on, and outside it throws. -/
def Checks {β γ : Type} (inside : Prop) (stored : Option β) (outcome : Except Fault γ)
    (goesOn : β → Except Fault γ) : Prop :=
  (inside → ∃ b, stored = some b ∧ outcome = goesOn b) ∧
    (¬ inside → ∃ what, outcome = .error (.thrown what))

/-- A vector of numbers, which `memory` of them may be enough for or not. -/
def numbers {D : Type} (memory n : ℕ) (d : D) : Except Fault (List D) :=
  if maxSize < n then .error (.thrown "cannot create std::vector larger than max_size()")
  else if memory < n then .error (.thrown "std::bad_alloc")
  else .ok (List.replicate n d)

/-- A vector of numbers is allocated when there is memory. -/
theorem numbers_eq_ok {D : Type} {memory n : ℕ} {d : D} {s : List D} :
    numbers memory n d = .ok s ↔ n ≤ min memory maxSize ∧ s = List.replicate n d := by
  unfold numbers
  split_ifs with h₁ h₂
  · simp [h₁]
  · simp [h₂]
  · simp [not_lt.mp h₁, not_lt.mp h₂, eq_comm]

theorem sizeT_pos : 0 < sizeT := Nat.two_pow_pos 64

/-- An index into a vector is far from wrapping around. -/
theorem two_mul_le_sizeT {n : ℕ} (h : n ≤ maxSize) : 2 * n ≤ sizeT := by
  unfold maxSize at h
  unfold sizeT
  omega

/-! ## The words of a text -/

/-- `isspace`. -/
def isBlank (c : Char) : Bool := c ∈ [' ', '\n', '\t', '\r', '\x0b', '\x0c']

/-- `boost::algorithm::trim`. -/
def trim (s : List Char) : List Char := (s.dropWhile isBlank).rdropWhile isBlank

/-- The words that `fill` goes through: the text is trimmed and split, and so is each part, of which the
empty ones are skipped. -/
def fillWords (str : List Char) : List (List Char) :=
  (((trim str).splitOnP (· ∈ [' ', '\n', '\t', '\r'])).map trim).filter (· ≠ [])

/-- What `fill` throws for a word that is no number. -/
def notNumber (word : List Char) : Fault :=
  .thrown s!"Can not convert string '{String.ofList word}' into double or long"

variable {D : Type}

/-! ## Tables -/

/-- `value::Table`. -/
structure Table (D : Type) where
  value : List D
  width : ℕ
  height : ℕ
  deriving DecidableEq, Repr

namespace Table

/-- The place of a pair of indices. -/
def place (t : Table D) (x y : ℕ) : ℕ := Grid.place sizeT t.width x y

/-- The check of `pp_get`, which lets the size of the vector through. -/
def checkPlace (t : Table D) (x y : ℕ) : Except Fault Unit :=
  if t.value.length < t.place x y then .error (.thrown s!"Table: bad accessor {x} x {y}") else .ok ()

/-- `pp_get`, for reading. -/
def get (t : Table D) (x y : ℕ) : Except Fault D := do
  t.checkPlace x y
  read .outOfRange t.value (t.place x y)

/-- `pp_get`, with an assignment through the reference. -/
def assign (t : Table D) (x y : ℕ) (d : D) : Except Fault (Table D) := do
  t.checkPlace x y
  let value ← write .outOfRange t.value (t.place x y) d
  return { t with value := value }

/-- The loop of `fill`, from a column and a row on. The numbers are read by `number`. -/
def fillFrom (number : List Char → Option D) :
    List (List Char) → ℕ → ℕ → EStateM Fault (Table D) Unit
  | [], _, _ => pure ()
  | word :: words, i, j =>
    match number word with
    | none => throw (notNumber word)
    | some d => fun t =>
      match t.assign i j d with
      | .error e => .error e t
      | .ok t =>
        if t.width ≤ i + 1 then
          if t.height ≤ j + 1 then .ok () t else fillFrom number words 0 (j + 1) t
        else fillFrom number words (i + 1) j t

/-- `fill`. -/
def fill (number : List Char → Option D) (str : List Char) : EStateM Fault (Table D) Unit :=
  fillFrom number (fillWords str) 0 0

/-- The table that the default constructor builds. -/
def empty [Zero D] : Table D := ⟨[0], 1, 1⟩

/-- What the constructor and `resize` throw. -/
def badSize (width height : ℕ) : Fault :=
  .thrown s!"Table: bad constructor initialization {width} x {height}"

/-- The constructor with sizes. -/
def ofSize [Zero D] (memory width height : ℕ) : Except Fault (Table D) := do
  let value ← numbers memory (width * height % sizeT) 0
  if width * height % sizeT = 0 then .error (badSize width height) else .ok ⟨value, width, height⟩

/-- The two loops of `resize`, which copy the cells that both tables have. -/
def copyCells (t : Table D) (width height : ℕ) (tmp : List D) : Except Fault (List D) :=
  (Matrix.cells (Matrix.span 0 (min t.width width)) (Matrix.span 0 (min t.height height))).foldlM
    (fun tmp p => do
      let d ← read .outOfRange t.value (Grid.place sizeT t.width p.2 p.1)
      write .outOfRange tmp (Grid.place sizeT width p.2 p.1) d) tmp

/-- `resize`. -/
def resize [Zero D] (memory : ℕ) (t : Table D) (width height : ℕ) : Except Fault (Table D) :=
  if width * height % sizeT = 0 then .error (badSize width height)
  else if width = t.width ∧ height = t.height then .ok t
  else do
    let tmp ← numbers memory (width * height % sizeT) 0
    let tmp ← t.copyCells width height tmp
    return ⟨tmp, width, height⟩

/-- A read or an assignment through the reference that an accessor gives, `get` or `operator()`: what
is read, and the table after it. -/
def access (t : Table D) (x y : ℕ) (d : Option D) : Except Fault (Option D × Table D) :=
  match d with
  | none => do
    let d ← t.get x y
    return (some d, t)
  | some d => do
    let t ← t.assign x y d
    return (none, t)

/-- What an access does with the number at a place. -/
def through (t : Table D) (i : ℕ) (d : Option D) (stored : D) : Except Fault (Option D × Table D) :=
  match d with
  | none => .ok (some stored, t)
  | some d => .ok (none, { t with value := t.value.set i d })

/-- An access is what it is to be. -/
def Checked (t : Table D) (x y : ℕ) (d : Option D) : Prop :=
  Checks (x < t.width ∧ y < t.height) t.value[t.place x y]? (t.access x y d)
    (t.through (t.place x y) d)

/-- Each pair of indices has a cell of its own. -/
def Housed (t : Table D) : Prop := Grid.Housed sizeT t.width t.value.length t.width t.height

/-! ### Runs of a table -/

/-- How a table is built. -/
inductive Construction where
  | empty
  | ofSize (width height : ℕ)
  deriving DecidableEq, Repr

/-- The constructors. -/
def Construction.build [Zero D] (memory : ℕ) : Construction → Except Fault (Table D)
  | .empty => .ok Table.empty
  | .ofSize width height => Table.ofSize memory width height

/-- What is done with a table. -/
inductive Event (D : Type) where
  | resize (width height : ℕ)
  | fill (str : List Char)
  | clone
  | access (x y : ℕ) (d : Option D)

/-- The operations, with the table that each leaves, also when it throws. -/
def Event.run [Zero D] (memory : ℕ) (number : List Char → Option D) (t : Table D) :
    Event D → EStateM.Result Fault (Table D) Unit
  | .resize width height =>
    match t.resize memory width height with
    | .ok t => .ok () t
    | .error e => .error e t
  | .fill str => Table.fill number str t
  | .clone =>
    match numbers memory t.value.length (0 : D) with
    | .ok _ => .ok () t
    | .error e => .error e t
  | .access x y d =>
    match t.access x y d with
    | .ok r => .ok () r.2
    | .error e => .error e t

/-- The table after an operation. There is none after an access outside of the vector. -/
def next [Zero D] (memory : ℕ) (number : List Char → Option D) (t : Table D) (e : Event D) :
    Option (Table D) :=
  match e.run memory number t with
  | .ok _ t => some t
  | .error (.thrown _) t => some t
  | .error _ _ => none

/-- The accesses of a run are what they are to be, and the pairs of indices have cells of their own. -/
def Safe (t : Table D) (e : Event D) : Prop :=
  t.Housed ∧ ∀ x y d, e = .access x y d → t.Checked x y d

/-- The sizes do not wrap around, and no access goes to a pair of indices outside of the dimensions
whose place is not past the size of the vector. -/
def Avoids (t : Table D) (e : Event D) : Prop :=
  t.width * t.height < sizeT ∧
    ∀ x y d, e = .access x y d → t.place x y ≤ t.value.length → x < t.width ∧ y < t.height

/-! ### Which accesses are checked -/

/-- The vector has the cells that the dimensions say, as a `size_t` says it. -/
structure Formed (t : Table D) : Prop where
  length : t.value.length = t.width * t.height % sizeT
  small : t.value.length ≤ maxSize

/-- The cells are in the vector exactly when the number of them does not wrap around. -/
theorem Formed.housed_iff {t : Table D} (h : t.Formed) : t.Housed ↔ t.width * t.height < sizeT := by
  have hsmall : 2 * t.value.length ≤ sizeT := two_mul_le_sizeT h.small
  have hmod : t.width * t.height % sizeT < sizeT := Nat.mod_lt _ sizeT_pos
  have hle : t.width % sizeT ≤ t.width := Nat.mod_le _ _
  rw [Housed, Grid.housed_iff_mod sizeT_pos hsmall, Grid.Packed, h.length]
  constructor
  · rintro (hw | hh | ⟨hlast, hrows⟩)
    · rw [hw, Nat.zero_mul]
      exact sizeT_pos
    · rw [hh, Nat.mul_zero]
      exact sizeT_pos
    · rcases Nat.eq_zero_or_pos t.height with hzero | hpos
      · rw [hzero, Nat.mul_zero]
        exact sizeT_pos
      obtain ⟨k, hk⟩ : ∃ k, t.height = k + 1 := ⟨t.height - 1, by omega⟩
      rcases hrows with hwidth | hone
      · rw [le_antisymm hle hwidth, hk, Nat.add_sub_cancel] at hlast
        rw [hk] at hmod ⊢
        have : t.width * (k + 1) = k * t.width + t.width := by ring
        omega
      · rw [hone] at hlast hmod ⊢
        omega
  · intro hlt
    rcases Nat.eq_zero_or_pos t.height with hzero | hpos
    · exact .inr (.inl hzero)
    obtain ⟨k, hk⟩ : ∃ k, t.height = k + 1 := ⟨t.height - 1, by omega⟩
    have hwidth : t.width < sizeT := lt_of_le_of_lt (Nat.le_mul_of_pos_right _ hpos) hlt
    refine .inr (.inr ⟨?_, .inl ?_⟩)
    · rw [Nat.mod_eq_of_lt hwidth, Nat.mod_eq_of_lt hlt, hk, Nat.add_sub_cancel]
      exact le_of_eq (by ring)
    · rw [Nat.mod_eq_of_lt hwidth]

/-- Inside of the vector an access goes through, and its index is let through up to the size. -/
theorem access_eq (t : Table D) (x y : ℕ) (d : Option D) : t.access x y d =
    if t.value.length < t.place x y then .error (.thrown s!"Table: bad accessor {x} x {y}")
    else match t.value[t.place x y]? with
      | some stored => t.through (t.place x y) d stored
      | none => .error .outOfRange := by
  unfold access through get assign checkPlace Storage.read Storage.write
  by_cases hlt : t.value.length < t.place x y
  · cases d <;> simp [hlt, Except.error_bind]
  · by_cases hin : t.place x y < t.value.length
    · cases d <;> simp [hlt, hin, Except.ok_bind, pure, Except.pure]
    · cases d <;> simp [hlt, hin, Except.ok_bind, Except.error_bind]

/-- An access is what it is to be exactly when the size of the vector does not let it through from
outside of the dimensions. -/
theorem checked_iff {t : Table D} (h : t.Housed) (x y : ℕ) (d : Option D) :
    t.Checked x y d ↔ (t.place x y ≤ t.value.length → x < t.width ∧ y < t.height) := by
  unfold Checked Checks
  rw [access_eq]
  by_cases hin : x < t.width ∧ y < t.height
  · have hlt : t.place x y < t.value.length := h.inside x y hin.1 hin.2
    refine iff_of_true ⟨fun _ => ⟨_, List.getElem?_eq_getElem hlt, ?_⟩, fun hn => absurd hin hn⟩
      fun _ => hin
    rw [if_neg (by omega), List.getElem?_eq_getElem hlt]
  · simp only [hin, false_implies, not_false_eq_true, true_implies, true_and, imp_false, not_le]
    constructor
    · rintro ⟨what, hrun⟩
      by_contra hge
      rw [if_neg hge] at hrun
      cases hstored : t.value[t.place x y]? with
      | none =>
        rw [hstored] at hrun
        cases hrun
      | some stored =>
        rw [hstored] at hrun
        cases d <;> cases hrun
    · intro hlt
      rw [if_pos hlt]
      exact ⟨_, rfl⟩

/-! ### What the operations keep -/

/-- A constructor gives a table its cells. -/
theorem formed_of_build [Zero D] {memory : ℕ} {k : Construction} {t : Table D}
    (hbuild : k.build memory = .ok t) : t.Formed := by
  cases k with
  | empty =>
    cases hbuild
    exact ⟨rfl, show 1 ≤ maxSize by decide⟩
  | ofSize width height =>
    obtain ⟨s, hs, ht⟩ := Except.bind_eq_ok.mp hbuild
    obtain ⟨hsize, rfl⟩ := numbers_eq_ok.mp hs
    split_ifs at ht with hnull
    cases ht
    exact ⟨List.length_replicate, by
      rw [List.length_replicate]
      exact hsize.trans (min_le_right _ _)⟩

/-- An assignment keeps the cells. -/
theorem Formed.assign {t t' : Table D} (h : t.Formed) {x y : ℕ} {d : D}
    (hrun : t.assign x y d = .ok t') :
    t'.Formed ∧ t'.width = t.width ∧ t'.height = t.height := by
  obtain ⟨_, -, hrun⟩ := Except.bind_eq_ok.mp hrun
  obtain ⟨s, hs, ht'⟩ := Except.bind_eq_ok.mp hrun
  obtain ⟨-, rfl⟩ := write_eq_ok.mp hs
  cases ht'
  exact ⟨⟨by rw [List.length_set, h.length], by rw [List.length_set]; exact h.small⟩, rfl, rfl⟩

/-- The copies of `resize` keep the length of the new vector. -/
theorem length_copyCells {t : Table D} {width height : ℕ} {tmp tmp' : List D}
    (hrun : t.copyCells width height tmp = .ok tmp') : tmp'.length = tmp.length := by
  refine Except.foldlM_keeps (p := fun s => s.length = tmp.length) ?_ hrun rfl
  intro s p s' hs hstep
  obtain ⟨d, -, hwrite⟩ := Except.bind_eq_ok.mp hstep
  obtain ⟨-, rfl⟩ := write_eq_ok.mp hwrite
  rw [List.length_set, hs]

/-- A `resize` gives a table its new cells. -/
theorem Formed.resize [Zero D] {t t' : Table D} (h : t.Formed) {memory width height : ℕ}
    (hrun : t.resize memory width height = .ok t') : t'.Formed := by
  unfold Table.resize at hrun
  split_ifs at hrun with hnull hsame
  · cases hrun
    exact h
  · obtain ⟨tmp, htmp, hrun⟩ := Except.bind_eq_ok.mp hrun
    obtain ⟨hsize, rfl⟩ := numbers_eq_ok.mp htmp
    obtain ⟨tmp', hcopy, ht'⟩ := Except.bind_eq_ok.mp hrun
    have hlen := length_copyCells hcopy
    rw [List.length_replicate] at hlen
    cases ht'
    exact ⟨hlen, hlen ▸ hsize.trans (min_le_right _ _)⟩

/-- The table that a run leaves, also when it throws. -/
def left {α : Type} : EStateM.Result Fault (Table D) α → Table D
  | .ok _ t => t
  | .error _ t => t

/-- `fill` keeps the cells, also when it throws. -/
theorem Formed.fillFrom {number : List Char → Option D} {words : List (List Char)} {i j : ℕ}
    {t : Table D} (h : t.Formed) : (left (Table.fillFrom number words i j t)).Formed := by
  induction words generalizing i j t with
  | nil => exact h
  | cons word words ih =>
    unfold Table.fillFrom
    cases number word with
    | none => exact h
    | some d =>
      dsimp only
      cases hassign : t.assign i j d with
      | error e => exact h
      | ok t₁ =>
        have h₁ := (h.assign hassign).1
        dsimp only
        split_ifs
        · exact h₁
        · exact ih h₁
        · exact ih h₁

/-- An access keeps the cells. -/
theorem Formed.access {t : Table D} (h : t.Formed) {x y : ℕ} {d : Option D}
    {r : Option D × Table D} (hrun : t.access x y d = .ok r) : r.2.Formed := by
  cases d with
  | none =>
    obtain ⟨stored, -, hr⟩ := Except.bind_eq_ok.mp hrun
    cases hr
    exact h
  | some d =>
    obtain ⟨t', hassign, hr⟩ := Except.bind_eq_ok.mp hrun
    cases hr
    exact (h.assign hassign).1

/-- Every operation leaves a table with its cells. -/
theorem Formed.next [Zero D] {t t' : Table D} (h : t.Formed) {memory : ℕ} {number : List Char → Option D}
    {e : Event D} (hnext : t.next memory number e = some t') : t'.Formed := by
  have hleft : (left (e.run memory number t)).Formed := by
    cases e with
    | resize width height =>
      cases hrun : t.resize memory width height with
      | ok t₁ => simpa only [Event.run, hrun, left] using h.resize hrun
      | error f => simpa only [Event.run, hrun, left] using h
    | fill str => exact h.fillFrom
    | clone =>
      unfold Event.run
      cases numbers memory t.value.length (0 : D) with
      | ok _ => exact h
      | error f => exact h
    | access x y d =>
      cases hrun : t.access x y d with
      | ok r => simpa only [Event.run, hrun, left] using h.access hrun
      | error f => simpa only [Event.run, hrun, left] using h
  unfold Table.next at hnext
  cases hrun : e.run memory number t with
  | ok a t₁ =>
    rw [hrun] at hnext hleft
    cases hnext
    exact hleft
  | error f t₁ =>
    rw [hrun] at hnext hleft
    cases f with
    | thrown what =>
      cases hnext
      exact hleft
    | outOfRange => cases hnext
    | null => cases hnext

/-- Along a run the accesses are what they are to be exactly when they avoid what the check lets
through. -/
theorem safe_along_iff [Zero D] {memory : ℕ} {number : List Char → Option D} {k : Construction} {t : Table D}
    (hbuild : k.build memory = .ok t) (es : List (Event D)) :
    Along (Table.next memory number) Table.Safe t es ↔
      Along (Table.next memory number) Table.Avoids t es := by
  refine along_iff (I := Formed) (E := fun _ _ => True) (fun t e h _ => ?_)
    (fun _ _ _ h _ _ hnext => h.next hnext) (formed_of_build hbuild) ?_
  · unfold Safe Avoids
    rw [h.housed_iff]
    refine and_congr_right fun hlt => forall₄_congr fun x y d _ => ?_
    exact checked_iff (h.housed_iff.mpr hlt) x y d
  · exact along_true _ _

end Table

/-! ## Tuples -/

/-- `value::Tuple`. -/
structure Tuple (D : Type) where
  value : List D
  deriving DecidableEq, Repr

namespace Tuple

/-- `pp_get`, for reading: `get`, `at`, `operator[]` and `operator()`. -/
def get (t : Tuple D) (i : ℕ) : Except Fault D := Value.tupleAt t.value i

/-- `pp_get`, with an assignment through the reference. -/
def assign (t : Tuple D) (i : ℕ) (d : D) : Except Fault (Tuple D) := do
  let _ ← t.get i
  return ⟨t.value.set i d⟩

/-- `add`, and each step of `fill`: one number more. -/
def add (memory : ℕ) (t : Tuple D) (d : D) : Except Fault (Tuple D) :=
  if maxSize < t.value.length + 1 then .error (.thrown "vector::_M_realloc_insert")
  else if memory < t.value.length + 1 then .error (.thrown "std::bad_alloc")
  else .ok ⟨t.value ++ [d]⟩

/-- `fill`, word after word. -/
def fillFrom (memory : ℕ) (number : List Char → Option D) :
    List (List Char) → EStateM Fault (Tuple D) Unit
  | [] => pure ()
  | word :: words =>
    match number word with
    | none => throw (notNumber word)
    | some d => fun t =>
      match t.add memory d with
      | .error e => .error e t
      | .ok t => fillFrom memory number words t

/-- `remove`, which does not check its index. -/
def remove (t : Tuple D) (i : ℕ) : Except Fault (Tuple D) :=
  if i < t.value.length then .ok ⟨t.value.eraseIdx i⟩ else .error .outOfRange

/-- The constructor with a size. -/
def ofSize (memory n : ℕ) (d : D) : Except Fault (Tuple D) := do
  let value ← numbers memory n d
  return ⟨value⟩

/-- `resize`. -/
def resize (memory : ℕ) (t : Tuple D) (n : ℕ) (d : D) : Except Fault (Tuple D) :=
  if n ≤ t.value.length then .ok ⟨t.value.take n⟩
  else do
    let _ ← numbers memory n d
    return ⟨t.value ++ List.replicate (n - t.value.length) d⟩

/-- A read or an assignment through the reference that an accessor gives. -/
def access (t : Tuple D) (i : ℕ) (d : Option D) : Except Fault (Option D × Tuple D) :=
  match d with
  | none => do
    let d ← t.get i
    return (some d, t)
  | some d => do
    let t ← t.assign i d
    return (none, t)

/-- What an access does with the number at an index. -/
def through (t : Tuple D) (i : ℕ) (d : Option D) (stored : D) : Except Fault (Option D × Tuple D) :=
  match d with
  | none => .ok (some stored, t)
  | some d => .ok (none, ⟨t.value.set i d⟩)

/-- An access is what it is to be. -/
def Checked (t : Tuple D) (i : ℕ) (d : Option D) : Prop :=
  Checks (i < t.value.length) t.value[i]? (t.access i d) (t.through i d)

/-- What is done with a tuple. -/
inductive Event (D : Type) where
  | add (d : D)
  | fill (str : List Char)
  | remove (i : ℕ)
  | resize (n : ℕ) (d : D)
  | access (i : ℕ) (d : Option D)

/-- The operations, with the tuple that each leaves, also when it throws. -/
def Event.run (memory : ℕ) (number : List Char → Option D) (t : Tuple D) :
    Event D → EStateM.Result Fault (Tuple D) Unit
  | .add d =>
    match t.add memory d with
    | .ok t => .ok () t
    | .error e => .error e t
  | .fill str => fillFrom memory number (fillWords str) t
  | .remove i =>
    match t.remove i with
    | .ok t => .ok () t
    | .error e => .error e t
  | .resize n d =>
    match t.resize memory n d with
    | .ok t => .ok () t
    | .error e => .error e t
  | .access i d =>
    match t.access i d with
    | .ok r => .ok () r.2
    | .error e => .error e t

/-- The tuple after an operation. There is none after an access outside of the vector. -/
def next (memory : ℕ) (number : List Char → Option D) (t : Tuple D) (e : Event D) :
    Option (Tuple D) :=
  match e.run memory number t with
  | .ok _ t => some t
  | .error (.thrown _) t => some t
  | .error _ _ => none

/-- The accesses of a run are what they are to be. -/
def Safe (t : Tuple D) (e : Event D) : Prop := ∀ i d, e = .access i d → t.Checked i d

/-- No access goes to the size of the tuple. -/
def Avoids (t : Tuple D) (e : Event D) : Prop := ∀ i d, e = .access i d → i ≠ t.value.length

/-- An access is what it is to be exactly when it is not at the size of the tuple. -/
theorem checked_iff (t : Tuple D) (i : ℕ) (d : Option D) : t.Checked i d ↔ i ≠ t.value.length := by
  unfold Checked Checks access assign get Value.tupleAt through
  rcases Nat.lt_trichotomy i t.value.length with hlt | heq | hgt
  · refine iff_of_true ⟨fun _ => ⟨_, List.getElem?_eq_getElem hlt, ?_⟩, fun hn => absurd hlt hn⟩ hlt.ne
    rw [if_neg (by omega), List.getElem?_eq_getElem hlt]
    cases d <;> rfl
  · have hnone : t.value[i]? = none := List.getElem?_eq_none heq.ge
    refine iff_of_false (fun h => ?_) (fun hne => hne heq)
    obtain ⟨what, hrun⟩ := h.2 heq.not_lt
    rw [if_neg (by omega), hnone] at hrun
    cases d <;> cases hrun
  · refine iff_of_true ⟨fun hlt => absurd hlt hgt.not_gt, fun _ => ?_⟩ hgt.ne'
    rw [if_pos hgt]
    cases d <;> exact ⟨_, rfl⟩

/-- Along a run the accesses are what they are to be exactly when none is at the size. -/
theorem safe_along_iff (memory : ℕ) (number : List Char → Option D) (t : Tuple D)
    (es : List (Event D)) : Along (Tuple.next memory number) Tuple.Safe t es ↔
      Along (Tuple.next memory number) Tuple.Avoids t es := by
  refine along_iff (I := fun _ => True) (E := fun _ _ => True) (fun t e _ _ => ?_)
    (fun _ _ _ _ _ _ _ => trivial) trivial (along_true _ _)
  exact forall₃_congr fun i d _ => checked_iff t i d

end Tuple

end Vle
