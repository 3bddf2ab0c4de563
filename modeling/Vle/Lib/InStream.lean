import Mathlib.Tactic

/-!
# Character streams

An input stream with one-character put-back: the characters before and after the position, and the
two flags that a reader can see. `get` past the end sets both, `unget` clears the flag of the end.
A `Reader` is a program over a stream that may fail, and leaves the stream where it was then.
`Reads f t a l` says that `f` reads exactly `t` in front of `l`, and gives `a`; it composes (`bind`).

`skipWhile` is the loop `while (in and p(get()));` and `getUntil` the loop that appends the characters
up to one that stops it, at least one of which is read.
-/

namespace Vle.Lib

/-- A stream: what has been read, last first, what is left, and `eofbit` and `failbit`. -/
structure InStream where
  before : List Char
  after : List Char
  eof : Bool := false
  fail : Bool := false
  deriving DecidableEq, Repr

namespace InStream

/-- A stream without flags. -/
abbrev good (before after : List Char) : InStream := { before, after }

/-- What is appended to a string for the value that `get` gives at the end. -/
def eofChar : Char := Char.ofNat 255

/-- `get`: the next character, or none at the end. -/
def get (s : InStream) : Option Char × InStream :=
  if s.eof || s.fail then
    (none, { s with fail := true })
  else
    match s.after with
    | [] => (none, { s with eof := true, fail := true })
    | c :: l => (some c, { s with before := c :: s.before, after := l })

/-- `unget`: back by one character, which fails in a stream that has failed. -/
def unget (s : InStream) : InStream :=
  if s.fail then
    { s with eof := false }
  else
    match s.before with
    | [] => { s with eof := false, fail := true }
    | c :: b => { s with eof := false, before := b, after := c :: s.after }

/-- The loop of `skipWhile` in a stream without flags. -/
def skipFrom (p : Char → Bool) : List Char → List Char → InStream
  | b, [] => { before := b, after := [], eof := true, fail := true }
  | b, c :: l => if p c then skipFrom p (c :: b) l else good (c :: b) l

/-- Read as long as the characters satisfy the test, and one more. -/
def skipWhile (p : Char → Bool) (s : InStream) : InStream :=
  if s.fail then s
  else if s.eof then { s with fail := true }
  else skipFrom p s.before s.after

/-- The loop of `getUntil` in a stream without flags. -/
def untilFrom (stop : Option Char → Bool) :
    List Char → List Char → List Char × Option Char × InStream
  | b, [] => (if stop none then [] else [eofChar], none,
      { before := b, after := [], eof := true, fail := true })
  | b, c :: l =>
    if stop (some c) then ([], some c, good (c :: b) l)
    else
      let (str, last, s) := untilFrom stop (c :: b) l
      (c :: str, last, s)

/-- Read up to a character that stops the loop: the string, the last character and the stream. -/
def getUntil (stop : Option Char → Bool) (s : InStream) : List Char × Option Char × InStream :=
  if s.eof || s.fail then
    (if stop none then [] else [eofChar], none, { s with fail := true })
  else
    untilFrom stop s.before s.after

@[simp] theorem get_good_cons (b l : List Char) (c : Char) :
    get (good b (c :: l)) = (some c, good (c :: b) l) := rfl

@[simp] theorem get_good_nil (b : List Char) :
    get (good b []) = (none, { before := b, after := [], eof := true, fail := true }) := rfl

@[simp] theorem unget_good_cons (b l : List Char) (c : Char) :
    unget (good (c :: b) l) = good b (c :: l) := rfl

/-- The loop of `skipWhile` goes past the characters that satisfy the test, and one more. -/
theorem skipWhile_good {p : Char → Bool} (t : List Char) (b l : List Char) (c : Char)
    (ht : ∀ x ∈ t, p x = true) (hc : p c = false) :
    skipWhile p (good b (t ++ c :: l)) = good (c :: (t.reverse ++ b)) l := by
  change skipFrom p b (t ++ c :: l) = _
  induction t generalizing b with
  | nil => simp [skipFrom, hc]
  | cons x t ih =>
    rw [List.cons_append, skipFrom, if_pos (ht x List.mem_cons_self),
      ih (x :: b) fun y hy => ht y (List.mem_cons_of_mem x hy)]
    simp

/-- The loop of `getUntil` gives what is in front of the character that stops it. -/
theorem getUntil_good {stop : Option Char → Bool} (t : List Char) (b l : List Char) (c : Char)
    (ht : ∀ x ∈ t, stop (some x) = false) (hc : stop (some c) = true) :
    getUntil stop (good b (t ++ c :: l)) = (t, some c, good (c :: (t.reverse ++ b)) l) := by
  change untilFrom stop b (t ++ c :: l) = _
  induction t generalizing b with
  | nil => simp [untilFrom, hc]
  | cons x t ih =>
    rw [List.cons_append, untilFrom, if_neg (by simp [ht x List.mem_cons_self]),
      ih (x :: b) fun y hy => ht y (List.mem_cons_of_mem x hy)]
    simp

/-- What `getUntil` gives has no character that stops it. -/
theorem mem_getUntil {stop : Option Char → Bool} (s : InStream) {x : Char}
    (hx : x ∈ (getUntil stop s).1) : stop (some x) = false ∨ x = eofChar := by
  have hnone : x ∈ (if stop none then [] else [eofChar]) → x = eofChar := by
    split_ifs <;> simp
  have hfrom : ∀ b l, x ∈ (untilFrom stop b l).1 → stop (some x) = false ∨ x = eofChar := by
    intro b l
    induction l generalizing b with
    | nil => exact fun h => .inr (hnone h)
    | cons c l ih =>
      intro h
      rw [untilFrom] at h
      split_ifs at h with hc
      · cases h
      · rcases List.mem_cons.mp h with rfl | h
        · exact .inl (by simpa using hc)
        · exact ih (c :: b) h
  unfold getUntil at hx
  split_ifs at hx
  all_goals first | exact hfrom _ _ hx | exact .inr (hnone (by simp_all))

end InStream

/-- A program that reads, and may fail. -/
def Reader (α : Type) := InStream → Option α × InStream

namespace Reader

open InStream

variable {α β : Type}

instance : Monad Reader where
  pure a s := (some a, s)
  bind f k s :=
    match f s with
    | (some a, s') => k a s'
    | (none, s') => (none, s')

/-- Fail. -/
def fail : Reader α := fun s => (none, s)

/-- Read a character. -/
def getc : Reader (Option Char) := fun s => (some (s.get).1, (s.get).2)

/-- Put a character back. -/
def unget : Reader Unit := fun s => (some (), s.unget)

/-- Whether the stream can be read. -/
def isGood : Reader Bool := fun s => (some (!s.fail), s)

/-- Whether a program succeeds, which leaves the stream as the program does. -/
def succeeds (f : Reader α) : Reader Bool := fun s => (some (f s).1.isSome, (f s).2)

def skipWhile (p : Char → Bool) : Reader Unit := fun s => (some (), s.skipWhile p)

def getUntil (stop : Option Char → Bool) : Reader (List Char × Option Char) := fun s =>
  (some ((s.getUntil stop).1, (s.getUntil stop).2.1), (s.getUntil stop).2.2)

/-- Go on when the test holds. -/
def guard (p : Bool) : Reader Unit := if p then pure () else fail

/-- A value, if there is one. -/
def ofOption (a : Option α) : Reader α := fun s => (a, s)

@[simp] theorem pure_run (a : α) (s : InStream) : (pure a : Reader α) s = (some a, s) := rfl

@[simp] theorem fail_run (s : InStream) : (fail : Reader α) s = (none, s) := rfl

/-- A sequence goes on from the stream that its first part leaves. -/
theorem bind_run {f : Reader α} {k : α → Reader β} {s s' : InStream} {a : α}
    (h : f s = (some a, s')) : (f >>= k) s = k a s' := by
  change (match f s with | (some a, s') => k a s' | (none, s') => (none, s')) = _
  rw [h]

/-- A sequence fails when its first part does. -/
theorem bind_none {f : Reader α} {k : α → Reader β} {s s' : InStream}
    (h : f s = (none, s')) : (f >>= k) s = (none, s') := by
  change (match f s with | (some a, s') => k a s' | (none, s') => (none, s')) = _
  rw [h]

@[simp] theorem pure_bind (a : α) (k : α → Reader β) : (pure a >>= k : Reader β) = k a := rfl

@[simp] theorem fail_bind (k : α → Reader β) : (fail >>= k) = fail := rfl

@[simp] theorem guard_true : guard true = pure () := rfl

@[simp] theorem guard_false : guard false = fail := rfl

@[simp] theorem getc_bind (k : Option Char → Reader α) (b l : List Char) (c : Char) :
    (getc >>= k) (good b (c :: l)) = k (some c) (good (c :: b) l) := rfl

@[simp] theorem unget_bind (k : Unit → Reader α) (b l : List Char) (c : Char) :
    (unget >>= k) (good (c :: b) l) = k () (good b (c :: l)) := rfl

@[simp] theorem isGood_bind (k : Bool → Reader α) (s : InStream) :
    (isGood >>= k) s = k (!s.fail) s := rfl

@[simp] theorem succeeds_bind (f : Reader α) (k : Bool → Reader β) (s : InStream) :
    (succeeds f >>= k) s = k (f s).1.isSome (f s).2 := rfl

/-- When a sequence succeeds, its parts do in turn. -/
theorem bind_eq_some {f : Reader α} {k : α → Reader β} {s s' : InStream} {b : β} :
    (f >>= k) s = (some b, s') ↔ ∃ a s₁, f s = (some a, s₁) ∧ k a s₁ = (some b, s') := by
  constructor
  · intro h
    rcases hf : f s with ⟨r, s₁⟩
    cases r with
    | none => rw [bind_none hf] at h; cases h
    | some a => exact ⟨a, s₁, rfl, by rwa [bind_run hf] at h⟩
  · rintro ⟨a, s₁, hf, hk⟩
    rw [bind_run hf, hk]

/-- The program reads exactly `t` in front of `l`, and gives `a`. -/
def Reads (f : Reader α) (t : List Char) (a : α) (l : List Char) : Prop :=
  ∀ b, f (good b (t ++ l)) = (some a, good (t.reverse ++ b) l)

theorem Reads.pure (a : α) (l : List Char) : Reads (pure a) [] a l := fun _ => rfl

/-- One text after the other. -/
theorem Reads.bind {f : Reader α} {k : α → Reader β} {t t' : List Char} {a : α} {b : β}
    {l : List Char} (hf : Reads f t a (t' ++ l)) (hk : Reads (k a) t' b l) :
    Reads (f >>= k) (t ++ t') b l := by
  intro before
  rw [List.append_assoc, bind_run (hf before), hk]
  simp

/-- A program that reads its text succeeds. -/
theorem Reads.succeeds {f : Reader α} {t : List Char} {a : α} {l : List Char} (h : Reads f t a l) :
    Reads (succeeds f) t true l := by
  intro b
  change (some (f _).1.isSome, (f _).2) = _
  rw [h b]
  rfl

/-- A program that fails does not succeed. -/
theorem succeeds_of_none {f : Reader α} {s s' : InStream} (h : f s = (none, s')) :
    Reader.succeeds f s = (some false, s') := by
  change (some (f s).1.isSome, (f s).2) = _
  rw [h]
  rfl

theorem reads_getc (c : Char) (l : List Char) : Reads getc [c] (some c) l := fun _ => rfl

end Reader

end Vle.Lib
