import Mathlib.Tactic

/-!
# Files read by lines

An input stream over a file, with the place that `tellg` gives and `seekg` takes. Every operation first
asks if the stream is good, and sets the flag of failure when it is not; `getline` then leaves its string
as it was. `seekg` clears the flag of the end, not the one of failure. `At s ls` says that the lines `ls`
are left to read, and the rules say what a line read from there leaves. A stream is `Dead` when it has
failed and does not say that it is at the end.
-/

namespace Vle.Lib

/-- A file, the place in it, and `eofbit` and `failbit`. -/
structure FileStream where
  text : List Char
  pos : ℕ := 0
  eof : Bool := false
  fail : Bool := false
  deriving DecidableEq, Repr

namespace FileStream

/-- The stream of a file, which has failed when the file cannot be opened. -/
def ofFile : Option String → FileStream
  | some str => { text := str.toList }
  | none => { text := [], fail := true }

def good (s : FileStream) : Bool := !s.eof && !s.fail

/-- What is left to read. -/
def rest (s : FileStream) : List Char := s.text.drop s.pos

/-- `tellg`: no place when the stream is not good. -/
def tellg (s : FileStream) : Option ℕ × FileStream :=
  if s.good then (some s.pos, s) else (none, { s with fail := true })

/-- `seekg`. -/
def seekg (s : FileStream) (place : Option ℕ) : FileStream :=
  if s.fail then { s with eof := false }
  else
    match place with
    | some pos => { s with eof := false, pos }
    | none => { s with eof := false, fail := true }

/-- `std::getline`, with the string before it: the string and the stream after it. -/
def getline (s : FileStream) (str : String) : String × FileStream :=
  if s.good then
    let line := s.rest.takeWhile (· ≠ '\n')
    if line.length < s.rest.length then
      (String.ofList line, { s with pos := s.pos + line.length + 1 })
    else
      (String.ofList line, { s with pos := s.text.length, eof := true, fail := line.isEmpty })
  else (str, { s with fail := true })

/-! ## Lines -/

/-- The lines of a text. The last one may be without its end. -/
def linesOf : List Char → List (List Char)
  | [] => []
  | c :: t =>
    if c = '\n' then [] :: linesOf t
    else
      match linesOf t with
      | [] => [[c]]
      | l :: ls => (c :: l) :: ls

/-- The first line, and where it ends. -/
theorem linesOf_eq_cons {t l : List Char} {ls : List (List Char)} (h : linesOf t = l :: ls) :
    t.takeWhile (· ≠ '\n') = l ∧
      ((∃ t', t = l ++ '\n' :: t' ∧ linesOf t' = ls) ∨ (t = l ∧ l ≠ [] ∧ ls = [])) := by
  induction t generalizing l ls with
  | nil => cases h
  | cons c t ih =>
    by_cases hc : c = '\n'
    · subst hc
      rw [linesOf, if_pos rfl] at h
      obtain ⟨rfl, rfl⟩ := List.cons.inj h
      exact ⟨by simp, .inl ⟨t, rfl, rfl⟩⟩
    · rw [linesOf, if_neg hc] at h
      cases hl : linesOf t with
      | nil =>
        rw [hl] at h
        obtain ⟨rfl, rfl⟩ := List.cons.inj h
        have ht : t = [] := by
          cases t with
          | nil => rfl
          | cons d t =>
            unfold linesOf at hl
            split_ifs at hl
            split at hl <;> cases hl
        subst ht
        exact ⟨by simp [hc], .inr ⟨rfl, by simp, rfl⟩⟩
      | cons l' ls' =>
        rw [hl] at h
        obtain ⟨rfl, rfl⟩ := List.cons.inj h
        obtain ⟨htake, hend⟩ := ih hl
        refine ⟨by rw [List.takeWhile_cons_of_pos (by simpa using hc), htake], ?_⟩
        rcases hend with ⟨t', rfl, ht'⟩ | ⟨rfl, -, rfl⟩
        · exact .inl ⟨t', rfl, ht'⟩
        · exact .inr ⟨rfl, by simp, rfl⟩

theorem linesOf_eq_nil {t : List Char} : linesOf t = [] ↔ t = [] := by
  constructor
  · intro h
    cases t with
    | nil => rfl
    | cons c t =>
      unfold linesOf at h
      split_ifs at h
      split at h <;> cases h
  · rintro rfl
    rfl

/-- The lines that are left to read. Without one, the stream may have found the end already. -/
def At (s : FileStream) : List String → Prop
  | [] => s.eof = true ∨ (s.good = true ∧ s.rest = [])
  | l :: ls => s.good = true ∧ (linesOf s.rest).map String.ofList = l :: ls

/-- A stream that has failed, and does not say that it is at the end. -/
def Dead (s : FileStream) : Prop := s.fail = true ∧ s.eof = false

variable {s : FileStream} {l : String} {ls : List String}

theorem at_ofFile (text : String) :
    (ofFile (some text)).At ((linesOf text.toList).map String.ofList) := by
  cases h : (linesOf text.toList).map String.ofList with
  | nil =>
    rw [List.map_eq_nil_iff, linesOf_eq_nil] at h
    exact .inr ⟨rfl, by simpa [ofFile, rest] using h⟩
  | cons l ls => exact ⟨rfl, by simpa [ofFile, rest] using h⟩

theorem not_good (h : s.Dead) : s.good = false := by simp [good, h.1]

/-- In a stream that is not good, nothing changes but the flag of failure. -/
theorem getline_of_not_good (str : String) (h : s.good = false) : s.getline str = (str, { s with fail := true }) := by
  rw [getline, if_neg (by simp [h])]

theorem tellg_of_not_good (h : s.good = false) : s.tellg = (none, { s with fail := true }) := by
  rw [tellg, if_neg (by simp [h])]

theorem tellg_of_good (h : s.good = true) : s.tellg = (some s.pos, s) := by rw [tellg, if_pos h]

/-- The way back, from a place where the stream has not failed. -/
theorem seekg_back (h : s.good = true) {s' : FileStream} (htext : s'.text = s.text)
    (hfail : s'.fail = false) : s'.seekg (some s.pos) = s := by
  obtain ⟨text, pos, eof, fail⟩ := s
  obtain ⟨text', pos', eof', fail'⟩ := s'
  simp only [good, Bool.and_eq_true, Bool.not_eq_true'] at h hfail htext
  obtain ⟨rfl, rfl⟩ := h
  subst htext hfail
  rfl

/-- A line read: it is the first one, the others are left, and the place before it leads back to it. -/
theorem getline_at (str : String) (h : s.At (l :: ls)) :
    ∃ s', s.getline str = (l, s') ∧ s'.At ls ∧ s'.seekg (some s.pos) = s ∧ (s'.eof = true → l ≠ "") := by
  obtain ⟨hgood, hlines⟩ := h
  have hflags : s.eof = false ∧ s.fail = false := by simpa [good] using hgood
  obtain ⟨l, ls, hl, rfl, rfl⟩ := List.map_eq_cons_iff.1 hlines
  obtain ⟨htake, hend⟩ := linesOf_eq_cons hl
  rcases hend with ⟨t', ht', hls⟩ | ⟨ht, hne, rfl⟩
  · have hlt : l.length < s.rest.length := by
      rw [ht']
      simp
    have hget : s.getline str = (String.ofList l, { s with pos := s.pos + l.length + 1 }) := by
      simp only [getline, if_pos hgood, htake, if_pos hlt]
    have hrest : rest { s with pos := s.pos + l.length + 1 } = t' := by
      have hdrop : rest { s with pos := s.pos + l.length + 1 } = s.rest.drop (l.length + 1) := by
        rw [rest, rest, List.drop_drop, Nat.add_assoc]
      rw [hdrop, ht', List.drop_append]
      simp
    refine ⟨_, hget, ?_, ?_, fun heof => absurd (hflags.1.symm.trans heof) (by simp)⟩
    · cases ls with
      | nil => exact .inr ⟨hgood, hrest.trans (linesOf_eq_nil.1 hls)⟩
      | cons l' ls => exact ⟨hgood, by rw [hrest, hls, List.map_cons]⟩
    · exact seekg_back hgood rfl hflags.2
  · have hlt : ¬ l.length < s.rest.length := by rw [ht]; omega
    have hget : s.getline str =
        (String.ofList l, { s with pos := s.text.length, eof := true, fail := l.isEmpty }) := by
      simp only [getline, if_pos hgood, htake, if_neg hlt]
    have hempty : l.isEmpty = false := by simpa using hne
    refine ⟨_, hget, .inl rfl, ?_, fun _ h => hne ?_⟩
    · exact seekg_back hgood rfl hempty
    · simpa using h

/-- The end found: the string is empty, and after going back the stream is dead. -/
theorem getline_end (str : String) (hgood : s.good = true) (hrest : s.rest = []) :
    ∃ s', s.getline str = ("", s') ∧ s'.eof = true ∧ ∀ place, (s'.seekg place).Dead := by
  have hget : s.getline str = ("", { s with pos := s.text.length, eof := true, fail := true }) := by
    simp [getline, hgood, hrest]
  exact ⟨_, hget, rfl, fun place => ⟨rfl, rfl⟩⟩

end FileStream

end Vle.Lib
