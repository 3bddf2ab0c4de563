import Vle.Utils.PackageParser

/-!
# Reading what was written

For each part of a record, what its reader makes of the text that `operator<<` writes for it. Where the
reader gives the part back, it reads exactly its text (`Reads`), so the readers of a record compose;
where it does not, it fails or gives something else, so no later reader can make up for it. Together
this says which databases survive being written and read (`extract_write_iff`).
-/

namespace Vle.Utils

open Vle.Lib Vle.Lib.Reader

/-- An identifier, as the parser reads one. -/
def IsIdentifier (name : String) : Prop :=
  ∃ c str, name.toList = c :: str ∧ c.isAlphanum = true ∧ ∀ x ∈ str, isIdentifierChar x = true

/-- A number that is defined, within `int32_t`. -/
def Defined (n : ℤ) : Prop := 0 ≤ n ∧ n < 2 ^ 31

/-- A version number, or `-1`. -/
def Optional (n : ℤ) : Prop := n = -1 ∨ Defined n

/-- A link to a package, whose version may be undefined from some number on. -/
structure PackageLinkId.Valid (b : PackageLinkId) : Prop where
  name : IsIdentifier b.name
  major : Optional b.major
  minor : Optional b.minor
  patch : Optional b.patch
  noMajor : b.major = -1 → b.minor = -1 ∧ b.op = .equal
  noMinor : b.minor = -1 → b.patch = -1

/-- A record: identifiers for names, a defined version, and tags that can be told apart. -/
structure PackageId.Valid (b : PackageId) : Prop where
  name : IsIdentifier b.name
  major : Defined b.major
  minor : Defined b.minor
  patch : Defined b.patch
  depends : ∀ l ∈ b.depends, l.Valid
  builddepends : ∀ l ∈ b.builddepends, l.Valid
  conflicts : ∀ l ∈ b.conflicts, l.Valid
  tags : ∀ t ∈ b.tags, ',' ∉ t.toList ∧ '\n' ∉ t.toList

/-! ## Characters -/

theorem isblank_of_isAlphanum {c : Char} (h : c.isAlphanum = true) : isblank c = false := by
  simp only [isblank, List.mem_cons, List.not_mem_nil, or_false, decide_eq_false_iff_not]
  rintro (rfl | rfl) <;> exact absurd h (by decide)

theorem isblank_of_isDigit {c : Char} (h : c.isDigit = true) : isblank c = false :=
  isblank_of_isAlphanum (by simp [Char.isAlphanum, h])

/-- A number that is not negative is printed in decimal. -/
theorem printed_natCast (n : ℕ) : printed n = Nat.toDigits 10 n := by
  change (Int.repr n).toList = _
  rw [← Nat.toList_repr]
  rfl

/-- The digits of a number, and the number again. -/
theorem printed_spec {n : ℤ} (hn : 0 ≤ n) : printed n ≠ [] ∧
    (∀ c ∈ printed n, c.isDigit = true) ∧ stoi (printed n) = n := by
  obtain ⟨k, rfl⟩ := Int.eq_ofNat_of_zero_le hn
  rw [printed_natCast]
  refine ⟨Nat.toDigits_ne_nil, fun c hc => ?_, ?_⟩
  · exact Nat.isDigit_of_mem_toDigits (by decide) (by decide) hc
  · rw [stoi, Nat.ofDigitChars_ten_toDigits]

namespace DescriptionParser

/-! ## The readers of words -/

/-- Skipping stops in front of the first character that does not satisfy the test. -/
theorem reads_skip {p : Char → Bool} (ws : List Char) (c : Char) (l : List Char)
    (hws : ∀ x ∈ ws, p x = true) (hc : p c = false) : Reads (skip p) ws () (c :: l) := by
  intro b
  have hskip : (Reader.skipWhile p) (.good b (ws ++ c :: l)) =
      (some (), .good (c :: (ws.reverse ++ b)) l) := by
    unfold Reader.skipWhile
    rw [InStream.skipWhile_good ws b l c hws hc]
  unfold skip
  rw [bind_run hskip]
  rfl

theorem reads_readBlank (ws : List Char) (c : Char) (l : List Char)
    (hws : ∀ x ∈ ws, isblank x = true) (hc : isblank c = false) :
    Reads readBlank ws () (c :: l) := reads_skip ws c l hws hc

theorem isblank_space : ∀ x ∈ [' '], isblank x = true :=
  List.forall_mem_singleton.mpr rfl

theorem reads_readChars (str l : List Char) : Reads (readChars str) str () l := by
  induction str with
  | nil => exact Reads.pure () l
  | cons c str ih =>
    intro b
    simp [readChars, ih (c :: b)]

/-- A word after blanks. -/
theorem reads_readWord {s : String} {c : Char} {cs : List Char} (ws l : List Char)
    (hstr : s.toList = c :: cs) (hws : ∀ x ∈ ws, isblank x = true) (hc : isblank c = false) :
    Reads (readWord s) (ws ++ s.toList) () l := by
  unfold readWord
  refine Reads.bind (a := ()) ?_ (reads_readChars s.toList l)
  rw [hstr]
  exact reads_readBlank ws c (cs ++ l) hws hc

/-- A word of one character that is not there takes one character. -/
theorem readWord_ne {s : String} {c x : Char} (b l : List Char) (hstr : s.toList = [c])
    (hx : isblank x = false) (hne : x ≠ c) :
    readWord s (.good b (x :: l)) = (none, .good (x :: b) l) := by
  have hblank := reads_readBlank [] x l (fun _ h => by cases h) hx b
  rw [List.nil_append] at hblank
  unfold readWord
  rw [bind_run hblank, hstr]
  simp [readChars, hne]

/-- The end of a line after blanks. -/
theorem reads_readNewline (ws l : List Char) (hws : ∀ x ∈ ws, isblank x = true) :
    Reads readNewline (ws ++ ['\n']) () l := by
  unfold readNewline
  refine Reads.bind (a := ()) (reads_skip ws '\n' l hws (by decide)) fun b => ?_
  rfl

/-- A line that goes on. -/
theorem readNewline_ne {x : Char} (b l : List Char) (hx : isblank x = false) (hne : x ≠ '\n') :
    readNewline (.good b (x :: l)) = (none, .good (x :: b) l) := by
  have hblank := reads_skip [] x l (fun _ h => by cases h) hx b
  rw [List.nil_append] at hblank
  unfold readNewline
  rw [bind_run hblank]
  simp [hne]

/-- The text up to the first character that stops. -/
theorem getUntil_run {p : Option Char → Bool} (t b l : List Char) (c : Char)
    (ht : ∀ x ∈ t, p (some x) = false) (hc : p (some c) = true) :
    (Reader.getUntil p) (.good b (t ++ c :: l)) =
      (some (t, some c), .good (c :: (t.reverse ++ b)) l) := by
  unfold Reader.getUntil
  rw [InStream.getUntil_good t b l c ht hc]

/-- An identifier after blanks, in front of a character that ends it. -/
theorem reads_readIdentifier {name : String} (ws l : List Char) (c : Char)
    (hname : IsIdentifier name) (hws : ∀ x ∈ ws, isblank x = true)
    (hc : isIdentifierChar c = false) : Reads readIdentifier (ws ++ name.toList) name (c :: l) := by
  obtain ⟨x, str, htoList, hx, hstr⟩ := hname
  have hofList : String.ofList (x :: str) = name := by rw [← htoList, String.ofList_toList]
  unfold readIdentifier
  rw [htoList]
  refine Reads.bind (a := ()) (reads_readBlank ws x (str ++ c :: l) hws (isblank_of_isAlphanum hx))
    fun b => ?_
  have hrun := getUntil_run (p := fun c => !c.any isIdentifierChar) str (x :: b) l c
    (fun y hy => by simp [hstr y hy]) (by simp [hc])
  rw [List.cons_append, getc_bind]
  simp only [hx, guard_true, Reader.pure_bind]
  rw [bind_run hrun]
  simp [hofList]

/-- A number after blanks, in front of a character that ends it. -/
theorem reads_readInteger {n : ℤ} (ws l : List Char) (c : Char) (hn : Defined n)
    (hws : ∀ x ∈ ws, isblank x = true) (hc : c.isDigit = false) :
    Reads readInteger (ws ++ printed n) n (c :: l) := by
  obtain ⟨hne, hdigits, hvalue⟩ := printed_spec hn.1
  obtain ⟨x, str, hstr⟩ := List.exists_cons_of_ne_nil hne
  unfold readInteger
  refine Reads.bind (a := ()) ?_ fun b => ?_
  · rw [hstr]
    exact reads_readBlank ws x (str ++ c :: l) hws
      (isblank_of_isDigit (hdigits x (hstr ▸ List.mem_cons_self)))
  · have hrun := getUntil_run (p := fun c => !c.any Char.isDigit) (printed n) b l c
      (fun y hy => by simp [hdigits y hy]) (by simp [hc])
    rw [bind_run hrun]
    simp [hne, hvalue, show n < 2147483648 from hn.2]

/-- A number starts with something that is not blank. -/
theorem reads_readBlank_printed {n : ℤ} (ws l : List Char) (hn : 0 ≤ n)
    (hws : ∀ x ∈ ws, isblank x = true) : Reads readBlank ws () (printed n ++ l) := by
  obtain ⟨hne, hdigits, -⟩ := printed_spec hn
  obtain ⟨x, str, hstr⟩ := List.exists_cons_of_ne_nil hne
  rw [hstr]
  exact reads_readBlank ws x (str ++ l) hws
    (isblank_of_isDigit (hdigits x (hstr ▸ List.mem_cons_self)))

theorem reads_point (l : List Char) : Reads (readWord ".") ['.'] () l :=
  reads_readWord [] l rfl (fun _ h => by cases h) (by decide)

/-- The three numbers of a version. -/
theorem reads_readVersion {major minor patch : ℤ} (l : List Char) (hmajor : Defined major)
    (hminor : Defined minor) (hpatch : Defined patch) :
    Reads readVersion ([' '] ++ (printed major ++ (['.'] ++ (printed minor ++ (['.'] ++
      (printed patch ++ ['\n'])))))) (major, minor, patch) l := by
  have hnil : ∀ x ∈ ([] : List Char), isblank x = true := fun _ h => by cases h
  unfold readVersion
  refine Reads.bind (a := ()) ?_ <| Reads.bind (a := major) ?_ <| Reads.bind (a := ()) ?_ <|
    Reads.bind (a := minor) ?_ <| Reads.bind (a := ()) ?_ <| Reads.bind (a := patch) ?_ ?_
  · rw [List.append_assoc]
    exact reads_readBlank_printed [' '] _ hmajor.1 isblank_space
  · exact reads_readInteger [] _ '.' hmajor hnil (by decide)
  · exact reads_point _
  · exact reads_readInteger [] _ '.' hminor hnil (by decide)
  · exact reads_point _
  · exact reads_readInteger [] _ '\n' hpatch hnil (by decide)
  · exact (List.append_nil ['\n']) ▸ (reads_readNewline [] l hnil).bind (Reads.pure _ l)

/-! ## Links -/

theorem reads_readOperator (op : PackageOperatorType) (l : List Char) :
    Reads readOperator op.sym op (' ' :: l) := by
  intro b
  unfold readOperator
  cases op with
  | equal => exact bind_run (reads_readBlank [] '=' _ (fun _ h => by cases h) (by decide) b)
  | less => exact bind_run (reads_readBlank [] '<' _ (fun _ h => by cases h) (by decide) b)
  | lessOrEqual => exact bind_run (reads_readBlank [] '<' _ (fun _ h => by cases h) (by decide) b)
  | greater => exact bind_run (reads_readBlank [] '>' _ (fun _ h => by cases h) (by decide) b)
  | greaterOrEqual => exact bind_run (reads_readBlank [] '>' _ (fun _ h => by cases h) (by decide) b)

/-- What is written of the numbers of a version after the first. -/
def minorText (minor patch : ℤ) : List Char :=
  if 0 ≤ minor then
    ['.'] ++ (printed minor ++ if 0 ≤ patch then ['.'] ++ printed patch else [])
  else []

/-- The numbers after the first one are read back when the minor one is defined. -/
theorem reads_readMinor {minor patch : ℤ} (l : List Char) (hminor : Defined minor)
    (hpatch : Optional patch) :
    Reads readMinor (minorText minor patch) (minor, patch) (')' :: l) := by
  have hnil : ∀ x ∈ ([] : List Char), isblank x = true := fun _ h => by cases h
  unfold readMinor minorText
  rw [if_pos hminor.1]
  refine Reads.bind (a := true) (reads_point _).succeeds ?_
  rw [if_pos rfl]
  rcases hpatch with rfl | hpatch
  · rw [if_neg (by decide)]
    refine Reads.bind (a := minor) (reads_readInteger [] _ ')' hminor hnil (by decide)) fun b => ?_
    refine (bind_run (succeeds_of_none
      (readWord_ne (s := ".") (x := ')') b l rfl (by decide) (by decide)))).trans ?_
    rfl
  · rw [if_pos hpatch.1]
    refine Reads.bind (a := minor) (reads_readInteger [] _ '.' hminor hnil (by decide)) ?_
    refine Reads.bind (a := true) (reads_point _).succeeds ?_
    rw [if_pos rfl, ← List.append_nil (printed patch)]
    exact (reads_readInteger [] _ ')' hpatch hnil (by decide)).bind (Reads.pure _ _)

/-- A version without minor number: the parenthesis that closes it is lost. -/
theorem readMinor_none (b l : List Char) :
    readMinor (.good b (')' :: l)) = (some (-1, -1), .good (')' :: b) l) := by
  unfold readMinor
  rw [bind_run (succeeds_of_none (readWord_ne (c := '.') b l rfl (by decide) (by decide)))]
  rfl

/-- What is written of the version of a link, between its parentheses. -/
def constraintText (b : PackageLinkId) : List Char :=
  b.op.sym ++ ([' '] ++ (printed b.major ++ (minorText b.minor b.patch ++ [')'])))

/-- A version is read back when its minor number is defined. -/
theorem reads_readConstraint {b : PackageLinkId} (l : List Char) (hb : b.Valid)
    (hmajor : Defined b.major) (hminor : Defined b.minor) :
    Reads (readConstraint b.name) (constraintText b) b l := by
  have hnil : ∀ x ∈ ([] : List Char), isblank x = true := fun _ h => by cases h
  unfold readConstraint constraintText
  refine Reads.bind (a := b.op) (reads_readOperator b.op _) ?_
  rw [← List.append_assoc]
  refine Reads.bind (a := b.major) ?_ <| Reads.bind (a := (b.minor, b.patch))
    (reads_readMinor l hminor hb.patch) ?_
  · have hdigit : minorText b.minor b.patch = '.' :: (minorText b.minor b.patch).tail := by
      rw [minorText, if_pos hminor.1]
      rfl
    rw [hdigit]
    exact reads_readInteger [' '] _ '.' hmajor isblank_space (by decide)
  · exact List.append_nil [')'] ▸
      (reads_readWord [] _ rfl hnil (by decide)).bind (a := ()) (Reads.pure b l)

/-- A version without minor number is refused. -/
theorem readConstraint_none {b : PackageLinkId} (before l : List Char) (x : Char)
    (hmajor : Defined b.major) (hminor : b.minor = -1) (hx : x = ',' ∨ x = '\n') :
    (readConstraint b.name (.good before (constraintText b ++ x :: l))).1 = none := by
  have hnil : ∀ x ∈ ([] : List Char), isblank x = true := fun _ h => by cases h
  have htext : constraintText b ++ x :: l =
      b.op.sym ++ (' ' :: ([] ++ (printed b.major ++ (')' :: x :: l)))) := by
    simp [constraintText, minorText, hminor]
  unfold readConstraint
  rw [htext, bind_run (reads_readOperator b.op _ before)]
  have hint := reads_readInteger [' '] (x :: l) ')' hmajor isblank_space (by decide)
    (b.op.sym.reverse ++ before)
  rw [List.append_assoc, List.singleton_append] at hint
  rw [List.nil_append, bind_run hint, bind_run (readMinor_none _ _)]
  have hword := readWord_ne (s := ")") (x := x)
    (')' :: (([' '] ++ printed b.major).reverse ++ (b.op.sym.reverse ++ before))) l rfl
    (by rcases hx with rfl | rfl <;> decide) (by rcases hx with rfl | rfl <;> decide)
  exact congrArg Prod.fst (bind_none hword)

end DescriptionParser

/-- A link that is read back: the minor number of its version is defined if the major one is. -/
def PackageLinkId.Kept (b : PackageLinkId) : Prop := 0 ≤ b.major → 0 ≤ b.minor

instance (b : PackageLinkId) : Decidable b.Kept := inferInstanceAs (Decidable (_ → _))

/-- The text of a link. -/
theorem PackageLinkId.write_eq (b : PackageLinkId) : b.write =
    b.name.toList ++ if 0 ≤ b.major then
      [' ', '('] ++ DescriptionParser.constraintText b else [] := by
  have hspace : " (".toList = [' ', '('] := rfl
  have hpoint : ".".toList = ['.'] := rfl
  have hclose : ")".toList = [')'] := rfl
  have hblank : " ".toList = [' '] := rfl
  rw [PackageLinkId.write, PackageLinkId.constraint, DescriptionParser.constraintText,
    DescriptionParser.minorText, hspace, hpoint, hclose, hblank]
  split_ifs <;> simp

/-- A defined number from one that is not `-1`. -/
theorem Optional.defined {n : ℤ} (h : Optional n) (hn : 0 ≤ n) : Defined n := by
  rcases h with rfl | h
  · exact absurd hn (by decide)
  · exact h

theorem Optional.undefined {n : ℤ} (h : Optional n) (hn : ¬ 0 ≤ n) : n = -1 := by
  rcases h with h | h
  · exact h
  · exact absurd h.1 hn

namespace DescriptionParser

/-- A link is read back when the minor number of its version is defined. -/
theorem reads_readLink {b : PackageLinkId} (ws l : List Char) (x : Char) (hb : b.Valid)
    (hkept : b.Kept) (hws : ∀ y ∈ ws, isblank y = true) (hx : x = ',' ∨ x = '\n') :
    Reads readLink (ws ++ b.write) b (x :: l) := by
  unfold readLink
  rw [PackageLinkId.write_eq, ← List.append_assoc]
  by_cases hmajor : 0 ≤ b.major
  · rw [if_pos hmajor]
    refine Reads.bind (a := b.name)
      (reads_readIdentifier ws _ ' ' hb.name hws (by decide)) ?_
    refine Reads.bind (a := true) (t := [' ', '('])
      (reads_readWord [' '] _ (s := "(") rfl isblank_space (by decide)).succeeds ?_
    rw [if_pos rfl]
    exact reads_readConstraint (x :: l) hb (hb.major.defined hmajor)
      (hb.minor.defined (hkept hmajor))
  · have hmaj := hb.major.undefined hmajor
    have heq : b = { name := b.name } := by
      obtain ⟨hmin, hop⟩ := hb.noMajor hmaj
      have hpat := hb.noMinor hmin
      obtain ⟨name, major, minor, patch, op⟩ := b
      simp_all
    rw [if_neg hmajor]
    refine Reads.bind (a := b.name)
      (reads_readIdentifier ws _ x hb.name hws (by rcases hx with rfl | rfl <;> decide)) fun before => ?_
    refine (bind_run (succeeds_of_none
      (readWord_ne (s := "(") (x := x) before l rfl
        (by rcases hx with rfl | rfl <;> decide) (by rcases hx with rfl | rfl <;> decide)))).trans ?_
    rw [if_neg (by decide), unget_bind, ← heq]
    rfl

/-- A link without minor number is refused. -/
theorem readLink_none {b : PackageLinkId} (ws before l : List Char) (x : Char) (hb : b.Valid)
    (hkept : ¬ b.Kept) (hws : ∀ y ∈ ws, isblank y = true) (hx : x = ',' ∨ x = '\n') :
    (readLink (.good before (ws ++ b.write ++ x :: l))).1 = none := by
  obtain ⟨hmajor, hminor⟩ := Classical.not_imp.mp hkept
  unfold readLink
  rw [PackageLinkId.write_eq, if_pos hmajor, ← List.append_assoc, List.append_assoc (ws ++ _)]
  refine (congrArg Prod.fst
    (bind_run (reads_readIdentifier ws _ ' ' hb.name hws (by decide) before))).trans ?_
  have hword := (reads_readWord [' '] (constraintText b ++ x :: l) (s := "(") rfl isblank_space
    (by decide)).succeeds ((ws ++ b.name.toList).reverse ++ before)
  refine (congrArg Prod.fst (bind_run hword)).trans ?_
  rw [if_pos rfl]
  exact readConstraint_none _ l x (hb.major.defined hmajor) (hb.minor.undefined hminor) hx

/-- The links after the first one, each after a comma. -/
def tailText (links : PackagesLinkId) : List Char :=
  links.flatMap fun b => [','] ++ ([' '] ++ b.write)

theorem writeLinks_cons (b : PackageLinkId) (links : PackagesLinkId) :
    writeLinks (b :: links) = b.write ++ tailText links := by
  induction links generalizing b with
  | nil => simp [writeLinks, formatCopy, tailText, List.intercalate]
  | cons b' links ih =>
    have hstep : writeLinks (b :: b' :: links) = b.write ++ (", ".toList ++ writeLinks (b' :: links)) := by
      simp [writeLinks, formatCopy, List.intercalate]
    rw [hstep, ih]
    simp [tailText]

/-- What follows a link is a comma or the end of the line. -/
theorem tailText_head (links : PackagesLinkId) (l : List Char) : ∃ x l', (x = ',' ∨ x = '\n') ∧
    tailText links ++ '\n' :: l = x :: l' := by
  cases links with
  | nil => exact ⟨'\n', l, .inr rfl, rfl⟩
  | cons b links => exact ⟨',', _, .inl rfl, rfl⟩

/-- A list of links is read back when each link is. -/
theorem reads_linkLoop (links : PackagesLinkId) {b : PackageLinkId} (ws l : List Char) (fuel : ℕ)
    (pkgs : PackagesLinkId) (hfuel : links.length < fuel) (hvalid : ∀ x ∈ b :: links, x.Valid)
    (hkept : ∀ x ∈ b :: links, x.Kept) (hws : ∀ y ∈ ws, isblank y = true) :
    Reads (linkLoop fuel pkgs) (ws ++ b.write ++ (tailText links ++ ['\n'])) (pkgs ++ b :: links) l := by
  induction links generalizing b ws fuel pkgs with
  | nil =>
    obtain ⟨fuel, rfl⟩ : ∃ k, fuel = k + 1 := ⟨fuel - 1, by simp at hfuel; omega⟩
    rw [linkLoop]
    refine Reads.bind (a := b) (reads_readLink ws l '\n' (hvalid b (by simp)) (hkept b (by simp)) hws
      (.inr rfl)) fun before => ?_
    refine (bind_run (succeeds_of_none
      (readWord_ne (s := ",") (x := '\n') before l rfl (by decide) (by decide)))).trans ?_
    rw [if_neg (by decide), unget_bind]
    exact (bind_run ((reads_readNewline [] l (fun _ h => by cases h)).succeeds before)).trans rfl
  | cons b' links ih =>
    obtain ⟨fuel, rfl⟩ : ∃ k, fuel = k + 1 := ⟨fuel - 1, by simp at hfuel; omega⟩
    rw [linkLoop]
    refine Reads.bind (a := b) (reads_readLink ws _ ',' (hvalid b (by simp)) (hkept b (by simp)) hws
      (.inl rfl)) ?_
    have htail : tailText (b' :: links) ++ ['\n'] =
        [','] ++ ([' '] ++ b'.write ++ (tailText links ++ ['\n'])) := by
      simp [tailText]
    rw [htail]
    refine Reads.bind (a := true)
      (reads_readWord [] _ (s := ",") rfl (fun _ h => by cases h) (by decide)).succeeds ?_
    rw [if_pos rfl]
    intro before
    have hpkgs : pkgs ++ b :: b' :: links = pkgs ++ [b] ++ b' :: links := by simp
    rw [isGood_bind, if_pos (by rfl), hpkgs]
    exact ih [' '] fuel (pkgs ++ [b]) (by simp at hfuel; omega)
      (fun x hx => hvalid x (List.mem_cons_of_mem b hx))
      (fun x hx => hkept x (List.mem_cons_of_mem b hx)) isblank_space before

/-- A list of links is refused when one of them is. -/
theorem linkLoop_none (links : PackagesLinkId) {b : PackageLinkId} (ws before l : List Char) (fuel : ℕ)
    (pkgs : PackagesLinkId) (hvalid : ∀ x ∈ b :: links, x.Valid)
    (hkept : ¬ ∀ x ∈ b :: links, x.Kept) (hws : ∀ y ∈ ws, isblank y = true) :
    (linkLoop fuel pkgs (.good before (ws ++ b.write ++ (tailText links ++ '\n' :: l)))).1 = none := by
  induction links generalizing b ws fuel pkgs before with
  | nil =>
    cases fuel with
    | zero => rfl
    | succ fuel =>
      have hb : ¬ b.Kept := by simpa using hkept
      rcases hlink : readLink (.good before (ws ++ b.write ++ (tailText [] ++ '\n' :: l))) with ⟨r, s⟩
      obtain rfl : r = none := by
        have := readLink_none ws before l '\n' (hvalid b (by simp)) hb hws (.inr rfl)
        exact (congrArg Prod.fst hlink).symm.trans this
      rw [linkLoop, bind_none hlink]
  | cons b' links ih =>
    cases fuel with
    | zero => rfl
    | succ fuel =>
      have htail : tailText (b' :: links) ++ '\n' :: l =
          ',' :: ([' '] ++ b'.write ++ (tailText links ++ '\n' :: l)) := by
        simp [tailText]
      rw [htail]
      by_cases hb : b.Kept
      · have hrest : ¬ ∀ x ∈ b' :: links, x.Kept := fun h => hkept (by simpa [hb] using h)
        have hread := reads_readLink ws ([' '] ++ b'.write ++ (tailText links ++ '\n' :: l)) ','
          (hvalid b (by simp)) hb hws (.inl rfl) before
        have hword := (reads_readWord [] ([' '] ++ b'.write ++ (tailText links ++ '\n' :: l))
          (s := ",") rfl (fun _ h => by cases h) (by decide)).succeeds ((ws ++ b.write).reverse ++ before)
        rw [linkLoop, bind_run hread]
        refine (congrArg Prod.fst (bind_run hword)).trans ?_
        rw [if_pos rfl]
        exact ih [' '] _ fuel (pkgs ++ [b]) (fun x hx => hvalid x (List.mem_cons_of_mem b hx)) hrest
          isblank_space
      · rcases hlink : readLink (.good before (ws ++ b.write ++
            ',' :: ([' '] ++ b'.write ++ (tailText links ++ '\n' :: l)))) with ⟨r, s⟩
        obtain rfl : r = none := by
          have := readLink_none ws before ([' '] ++ b'.write ++ (tailText links ++ '\n' :: l)) ','
            (hvalid b (by simp)) hb hws (.inl rfl)
          exact (congrArg Prod.fst hlink).symm.trans this
        rw [linkLoop, bind_none hlink]

/-- The start of a line of links: it is not the end of the line, and the first link follows. -/
theorem readLinkid_cons {b : PackageLinkId} (before l : List Char) (hb : IsIdentifier b.name) :
    readLinkid (.good before ([' '] ++ (b.write ++ l))) =
      linkLoop ((b.write ++ l).length + 1) [] (.good (' ' :: before) (b.write ++ l)) := by
  obtain ⟨x, str, hname, hx, -⟩ := hb
  have hwrite : b.write ++ l = x :: (str ++ (b.constraint ++ l)) := by
    simp [PackageLinkId.write, hname]
  have hblank := isblank_of_isAlphanum hx
  rw [hwrite]
  unfold readLinkid
  refine (bind_run (reads_readBlank [' '] x _ isblank_space hblank before)).trans ?_
  refine (bind_run (succeeds_of_none (readNewline_ne (' ' :: before) _ hblank ?_))).trans ?_
  · rintro rfl
    exact absurd hx (by decide)
  · rw [if_neg (by decide)]
    rfl

/-- The number of links is below the length of their text. -/
theorem length_tailText (links : PackagesLinkId) : links.length ≤ (tailText links).length := by
  induction links with
  | nil => exact le_rfl
  | cons b links ih =>
    simp only [tailText, List.flatMap_cons, List.length_append, List.length_cons] at ih ⊢
    omega

/-- A line of links is read back when each link is. -/
theorem reads_readLinkid (links : PackagesLinkId) (l : List Char) (hvalid : ∀ x ∈ links, x.Valid)
    (hkept : ∀ x ∈ links, x.Kept) :
    Reads readLinkid ([' '] ++ (writeLinks links ++ ['\n'])) links l := by
  intro before
  cases links with
  | nil =>
    unfold readLinkid
    refine (bind_run (reads_readBlank [' '] '\n' l isblank_space (by decide) before)).trans ?_
    exact (bind_run ((reads_readNewline [] l (fun _ h => by cases h)).succeeds _)).trans rfl
  | cons b links =>
    have hrun := reads_linkLoop links [] l ((b.write ++ (tailText links ++ '\n' :: l)).length + 1) []
      (by have := length_tailText links; simp; omega) hvalid hkept (fun _ h => by cases h)
      (' ' :: before)
    rw [writeLinks_cons, List.append_assoc, List.append_assoc, List.append_assoc, List.append_assoc]
    refine (readLinkid_cons before _ (hvalid b List.mem_cons_self).name).trans ?_
    simpa using hrun

/-- A line of links is refused when one of them is. -/
theorem readLinkid_none (links : PackagesLinkId) (before l : List Char)
    (hvalid : ∀ x ∈ links, x.Valid) (hkept : ¬ ∀ x ∈ links, x.Kept) :
    (readLinkid (.good before ([' '] ++ (writeLinks links ++ '\n' :: l)))).1 = none := by
  cases links with
  | nil => exact absurd (fun _ h => by cases h) hkept
  | cons b links =>
    rw [writeLinks_cons, List.append_assoc,
      readLinkid_cons before _ (hvalid b List.mem_cons_self).name]
    exact linkLoop_none links [] (' ' :: before) l _ [] hvalid hkept (fun _ h => by cases h)

/-! ## Lines of text -/

theorem mem_trim {l : List Char} {x : Char} (hx : x ∈ trim l) : x ∈ l :=
  (List.dropWhile_suffix _).subset ((List.rdropWhile_prefix _ _).subset hx)

/-- A trimmed text does not start with a space. -/
theorem not_isspace_of_trim {l : List Char} {x : Char} {t : List Char} (h : trim l = x :: t) :
    isspace x = false := by
  obtain ⟨t', ht'⟩ := List.rdropWhile_prefix isspace (l.dropWhile isspace)
  change trim l ++ t' = _ at ht'
  rw [h, List.cons_append] at ht'
  have := List.head?_dropWhile_not isspace l
  rw [← ht'] at this
  simpa using this

/-- Trimming leaves no white space around. -/
theorem trim_trim (l : List Char) : trim (trim l) = trim l := by
  have hhead : (trim l).dropWhile isspace = trim l := by
    cases h : trim l with
    | nil => rfl
    | cons x t => rw [List.dropWhile_cons_of_neg (by simp [not_isspace_of_trim h])]
  rw [trim, hhead]
  exact List.rdropWhile_idempotent _ _

theorem isblank_of_not_isspace {x : Char} (h : isspace x = false) : isblank x = false := by
  simp only [isspace, isblank, List.mem_cons, List.not_mem_nil, or_false, decide_eq_false_iff_not,
    not_or] at h ⊢
  exact ⟨h.1, h.2.1⟩

end DescriptionParser

/-- A line that is read back: there is something on it, without white space around. -/
def KeptLine (line : String) : Prop :=
  line.toList ≠ [] ∧ trim line.toList = line.toList ∧ '\n' ∉ line.toList ∧ '\r' ∉ line.toList

instance (line : String) : Decidable (KeptLine line) := inferInstanceAs (Decidable (_ ∧ _))

namespace DescriptionParser

/-- A line is read back when there is something on it, without white space around. -/
theorem reads_readMaintainer {line : String} (l : List Char) (h : KeptLine line) :
    Reads readMaintainer ([' '] ++ (line.toList ++ ['\n'])) line l := by
  obtain ⟨hne, htrim, hnl, hcr⟩ := h
  obtain ⟨x, t, hx⟩ := List.exists_cons_of_ne_nil hne
  unfold readMaintainer
  refine Reads.bind (a := ()) ?_ fun before => ?_
  · rw [hx]
    exact reads_readBlank [' '] x _ isblank_space
      (isblank_of_not_isspace (not_isspace_of_trim (htrim.trans hx)))
  · have hrun := getUntil_run (p := fun c => c = some '\n' ∨ c = some '\r') line.toList before l
      '\n' (fun y hy => by
        simp only [Option.some.injEq, decide_eq_false_iff_not, not_or]
        exact ⟨fun e => hnl (e ▸ hy), fun e => hcr (e ▸ hy)⟩) (by decide)
    rw [List.append_assoc, List.singleton_append, bind_run hrun]
    simp [htrim, hne]

/-- Nothing else is ever read as a line. -/
theorem readMaintainer_kept {line : String} {s s' : InStream}
    (h : readMaintainer s = (some line, s')) : KeptLine line := by
  obtain ⟨-, s₁, -, h₁⟩ := bind_eq_some.mp h
  obtain ⟨⟨str, last⟩, s₂, hstr, h₂⟩ := bind_eq_some.mp h₁
  obtain ⟨⟨⟩, s₃, hguard, h₃⟩ := bind_eq_some.mp h₂
  have hmem : ∀ x ∈ str, x ≠ '\n' ∧ x ≠ '\r' := by
    intro x hx
    have hstr' : str = (s₁.getUntil fun c => c = some '\n' ∨ c = some '\r').1 :=
      (congrArg Prod.fst (Option.some.inj (congrArg Prod.fst hstr))).symm
    rcases InStream.mem_getUntil s₁ (hstr' ▸ hx) with hx | rfl
    · simpa [not_or] using hx
    · exact ⟨by decide, by decide⟩
  have hne : trim str ≠ [] := by
    by_contra hnil
    simp [Reader.guard, hnil] at hguard
  obtain rfl : String.ofList (trim str) = line := Option.some.inj (congrArg Prod.fst h₃)
  refine ⟨by simpa using hne, by simp [trim_trim], fun hx => ?_, fun hx => ?_⟩
  · exact (hmem _ (mem_trim (by simpa using hx))).1 rfl
  · exact (hmem _ (mem_trim (by simpa using hx))).2 rfl

/-- A size is read back when it fits in a `long`. -/
theorem reads_readSize {size : ℕ} (l : List Char) (h : size < 2 ^ 63) :
    Reads readSize ([' '] ++ (printed size ++ ['\n'])) size l := by
  obtain ⟨hne, hdigits, hvalue⟩ := printed_spec (Int.natCast_nonneg size)
  unfold readSize
  refine Reads.bind (a := ()) ?_ fun before => ?_
  · rw [List.append_assoc]
    exact reads_readBlank_printed [' '] _ (Int.natCast_nonneg size) isblank_space
  · have hrun := getUntil_run (p := fun c => !c.any Char.isDigit) (printed size) before l '\n'
      (fun y hy => by simp [hdigits y hy]) (by decide)
    rw [List.append_assoc, List.singleton_append, bind_run hrun]
    have hnat : Nat.ofDigitChars 10 (printed size) 0 = size := by
      unfold stoi at hvalue
      exact_mod_cast hvalue
    have hlt : (size : ℤ) < 9223372036854775808 := by exact_mod_cast h
    simp [hne, hvalue, hnat, hlt]

/-- No size is read that does not fit in a `long`. -/
theorem readSize_lt {size : ℕ} {s s' : InStream} (h : readSize s = (some size, s')) :
    size < 2 ^ 63 := by
  obtain ⟨-, s₁, -, h₁⟩ := bind_eq_some.mp h
  obtain ⟨⟨str, last⟩, s₂, -, h₂⟩ := bind_eq_some.mp h₁
  obtain ⟨⟨⟩, s₃, hguard, h₃⟩ := bind_eq_some.mp h₂
  obtain rfl : Nat.ofDigitChars 10 str 0 = size := Option.some.inj (congrArg Prod.fst h₃)
  by_contra hge
  have hstoi : ¬ stoi str < 2 ^ 63 := by
    unfold stoi
    exact_mod_cast hge
  simp [Reader.guard, show ¬ stoi str < 9223372036854775808 from hstoi] at hguard

end DescriptionParser

/-- A tag that is read back: something, without white space around. -/
def KeptTag (tag : String) : Prop := tag.toList ≠ [] ∧ trim tag.toList = tag.toList

instance (tag : String) : Decidable (KeptTag tag) := inferInstanceAs (Decidable (_ ∧ _))

namespace DescriptionParser

/-! ## Tags -/

/-- The tags after the first one, each after a comma. -/
def tailTags (tags : Tags) : List Char := tags.flatMap fun t => [','] ++ ([' '] ++ t.toList)

theorem formatCopy_tags_cons (t : String) (tags : Tags) :
    formatCopy ((t :: tags).map String.toList) = t.toList ++ tailTags tags := by
  induction tags generalizing t with
  | nil => simp [formatCopy, tailTags, List.intercalate]
  | cons t' tags ih =>
    have hstep : formatCopy ((t :: t' :: tags).map String.toList) =
        t.toList ++ (", ".toList ++ formatCopy ((t' :: tags).map String.toList)) := by
      simp [formatCopy, List.intercalate]
    rw [hstep, ih]
    simp [tailTags]

theorem length_tailTags (tags : Tags) : tags.length ≤ (tailTags tags).length := by
  induction tags with
  | nil => exact le_rfl
  | cons t tags ih =>
    simp only [tailTags, List.flatMap_cons, List.length_append, List.length_cons] at ih ⊢
    omega

/-- One tag, up to what stops it. -/
theorem tag_run {t : String} (ws before l : List Char) (x : Char) (ht : ',' ∉ t.toList ∧ '\n' ∉ t.toList)
    (hws : ∀ y ∈ ws, y = ' ') (hx : x = ',' ∨ x = '\n') :
    (Reader.getUntil fun c => c = some ',' ∨ c = some '\n') (.good before (ws ++ t.toList ++ x :: l)) =
      (some (ws ++ t.toList, some x), .good (x :: ((ws ++ t.toList).reverse ++ before)) l) := by
  refine getUntil_run (ws ++ t.toList) before l x (fun y hy => ?_) (by rcases hx with rfl | rfl <;> rfl)
  simp only [Option.some.injEq, decide_eq_false_iff_not, not_or]
  rcases List.mem_append.mp hy with hy | hy
  · rw [hws y hy]
    exact ⟨by decide, by decide⟩
  · exact ⟨fun e => ht.1 (e ▸ hy), fun e => ht.2 (e ▸ hy)⟩

/-- Spaces in front of a tag are trimmed. -/
theorem trim_spaces {t : List Char} (ws : List Char) (hws : ∀ y ∈ ws, y = ' ') :
    trim (ws ++ t) = trim t := by
  induction ws with
  | nil => rfl
  | cons y ws ih =>
    obtain rfl := hws y List.mem_cons_self
    rw [← ih fun z hz => hws z (List.mem_cons_of_mem _ hz)]
    rfl

/-- Tags are read back when they are trimmed and not empty. -/
theorem reads_tagLoop (tags : Tags) {t : String} (ws l : List Char) (fuel : ℕ) (acc : Tags)
    (hfuel : tags.length < fuel)
    (hvalid : ∀ x ∈ t :: tags, ',' ∉ x.toList ∧ '\n' ∉ x.toList)
    (hkept : ∀ x ∈ t :: tags, KeptTag x) (hws : ∀ y ∈ ws, y = ' ') :
    Reads (tagLoop fuel acc) (ws ++ t.toList ++ (tailTags tags ++ ['\n'])) (acc ++ t :: tags) l := by
  induction tags generalizing t ws fuel acc with
  | nil =>
    obtain ⟨fuel, rfl⟩ : ∃ k, fuel = k + 1 := ⟨fuel - 1, by simp at hfuel; omega⟩
    obtain ⟨hne, htrim⟩ := hkept t List.mem_cons_self
    intro before
    rw [tagLoop, List.append_assoc]
    refine (bind_run (tag_run ws before l '\n' (hvalid t List.mem_cons_self) hws (.inr rfl))).trans ?_
    rw [if_pos rfl, pushTag, trim_spaces ws hws, htrim, if_neg hne]
    simp [tailTags]
  | cons t' tags ih =>
    obtain ⟨fuel, rfl⟩ : ∃ k, fuel = k + 1 := ⟨fuel - 1, by simp at hfuel; omega⟩
    obtain ⟨hne, htrim⟩ := hkept t List.mem_cons_self
    have htail : tailTags (t' :: tags) ++ ['\n'] =
        [','] ++ ([' '] ++ t'.toList ++ (tailTags tags ++ ['\n'])) := by
      simp [tailTags]
    have hacc : acc ++ t :: t' :: tags = acc ++ [t] ++ t' :: tags := by simp
    rw [htail, ← List.append_assoc, hacc]
    intro before
    have hih := ih (t := t') [' '] fuel (acc ++ [t]) (by simp at hfuel; omega)
      (fun x hx => hvalid x (List.mem_cons_of_mem t hx))
      (fun x hx => hkept x (List.mem_cons_of_mem t hx)) (fun y => List.mem_singleton.mp)
      (',' :: ((ws ++ t.toList).reverse ++ before))
    rw [tagLoop, List.append_assoc, List.append_assoc (ws ++ t.toList)]
    refine (bind_run (tag_run ws before _ ',' (hvalid t List.mem_cons_self) hws (.inl rfl))).trans ?_
    rw [if_neg (show ¬ some ',' = some '\n' by decide), if_pos rfl, pushTag, trim_spaces ws hws, htrim, if_neg hne,
      String.ofList_toList]
    refine hih.trans ?_
    simp

/-- A line of tags is read back when they are trimmed and not empty. -/
theorem reads_readTags (tags : Tags) (l : List Char)
    (hvalid : ∀ x ∈ tags, ',' ∉ x.toList ∧ '\n' ∉ x.toList) (hkept : ∀ x ∈ tags, KeptTag x) :
    Reads readTags ([' '] ++ (formatCopy (tags.map String.toList) ++ ['\n'])) tags l := by
  intro before
  unfold readTags
  cases tags with
  | nil => exact bind_run (reads_readBlank [' '] '\n' l isblank_space (by decide) before)
  | cons t tags =>
    obtain ⟨x, str, hx⟩ := List.exists_cons_of_ne_nil (hkept t List.mem_cons_self).1
    have hblank : isblank x = false := isblank_of_not_isspace
      (not_isspace_of_trim ((hkept t List.mem_cons_self).2.trans hx))
    have hread := reads_readBlank [' '] x (str ++ (tailTags tags ++ '\n' :: l)) isblank_space hblank before
    have hloop := reads_tagLoop tags [] l ((t.toList ++ (tailTags tags ++ '\n' :: l)).length + 1) []
      (by have := length_tailTags tags; simp; omega) hvalid hkept (fun _ h => by cases h)
      (' ' :: before)
    have htext : [' '] ++ (formatCopy ((t :: tags).map String.toList) ++ ['\n']) ++ l =
        [' '] ++ x :: (str ++ (tailTags tags ++ '\n' :: l)) := by
      rw [formatCopy_tags_cons, hx]
      simp
    rw [htext]
    refine (bind_run hread).trans ?_
    have htext' : x :: (str ++ (tailTags tags ++ '\n' :: l)) = t.toList ++ (tailTags tags ++ '\n' :: l) := by
      rw [hx, List.cons_append]
    rw [htext']
    rw [formatCopy_tags_cons]
    simpa using hloop

theorem pushTag_kept {tags : Tags} (str : List Char) (htags : ∀ x ∈ tags, KeptTag x) :
    ∀ x ∈ pushTag tags str, KeptTag x := by
  unfold pushTag
  split_ifs with hstr
  · exact htags
  · intro x hx
    rcases List.mem_append.mp hx with hx | hx
    · exact htags x hx
    · obtain rfl := List.mem_singleton.mp hx
      exact ⟨by simpa using hstr, by simp [trim_trim]⟩

/-- Nothing else is ever read as tags. -/
theorem tagLoop_kept {fuel : ℕ} {acc tags : Tags} {s s' : InStream} (hacc : ∀ x ∈ acc, KeptTag x)
    (h : tagLoop fuel acc s = (some tags, s')) : ∀ x ∈ tags, KeptTag x := by
  induction fuel generalizing acc s with
  | zero => cases h
  | succ fuel ih =>
    obtain ⟨r, s₁, -, h₁⟩ := bind_eq_some.mp h
    split_ifs at h₁ with hnl hcomma
    · obtain rfl : pushTag acc r.1 = tags := Option.some.inj (congrArg Prod.fst h₁)
      exact pushTag_kept r.1 hacc
    · exact ih (pushTag_kept r.1 hacc) h₁
    · cases h₁

theorem readTags_kept {tags : Tags} {s s' : InStream} (h : readTags s = (some tags, s')) :
    ∀ x ∈ tags, KeptTag x := by
  obtain ⟨-, s₁, -, h₁⟩ := bind_eq_some.mp h
  exact tagLoop_kept (fun _ h => by cases h) h₁

end DescriptionParser

/-- A text in which the ends of lines come in pairs of the same character, which the reader of
descriptions turns around one for the other. -/
def Folds : List Char → Bool
  | [] => true
  | [c] => c ≠ '\n' && c ≠ '\r'
  | c :: c2 :: l => if c = '\n' ∨ c = '\r' then c2 = c && Folds l else Folds (c2 :: l)

/-- A description that is read back. -/
def KeptDescription (description : String) : Prop :=
  trim description.toList = description.toList ∧ Folds description.toList = true

instance (description : String) : Decidable (KeptDescription description) :=
  inferInstanceAs (Decidable (_ ∧ _))

namespace DescriptionParser

/-! ## Descriptions -/

theorem Folds.tail {c : Char} {l : List Char} (hc : c ≠ '\n' ∧ c ≠ '\r') : Folds (c :: l) = Folds l := by
  cases l with
  | nil => simp [Folds, hc]
  | cons c2 l => rw [Folds, if_neg (by simp [hc])]

/-- A character that ends no line is appended. -/
theorem descriptionLoop_char {c : Char} (fuel : ℕ) (acc b l : List Char) (hc : c ≠ '\n' ∧ c ≠ '\r') :
    descriptionLoop (fuel + 1) acc (.good b (c :: l)) =
      descriptionLoop fuel (acc ++ [c]) (.good (c :: b) l) := by
  rw [descriptionLoop, getc_bind]
  simp [hc, charOf]

/-- After the end of a line, the next character comes first, unless it is a space. -/
theorem descriptionLoop_eol {c c2 : Char} (fuel : ℕ) (acc b l : List Char) (hc : c = '\n' ∨ c = '\r')
    (hc2 : c2 ≠ ' ') :
    descriptionLoop (fuel + 1) acc (.good b (c :: c2 :: l)) =
      descriptionLoop fuel (acc ++ [c2, c]) (.good (c2 :: c :: b) l) := by
  rw [descriptionLoop, getc_bind]
  simp [hc, hc2, charOf]

/-- After the end of a line and a space, the next character comes first, unless it is a point. -/
theorem descriptionLoop_eol_space {c c3 : Char} (fuel : ℕ) (acc b l : List Char)
    (hc : c = '\n' ∨ c = '\r') (hc3 : c3 ≠ '.') :
    descriptionLoop (fuel + 1) acc (.good b (c :: ' ' :: c3 :: l)) =
      descriptionLoop fuel (acc ++ [c3, c]) (.good (c3 :: ' ' :: c :: b) l) := by
  rw [descriptionLoop, getc_bind]
  simp [hc, hc3, charOf]

/-- A line that starts with a space and a point ends the description. -/
theorem descriptionLoop_end {c : Char} (fuel : ℕ) (acc b l : List Char) (hc : c = '\n' ∨ c = '\r') :
    descriptionLoop (fuel + 1) acc (.good b (c :: ' ' :: '.' :: l)) =
      (some acc, .good ('.' :: ' ' :: c :: b) l) := by
  rw [descriptionLoop, getc_bind]
  simp [hc]

/-- A description in which the ends of lines come in pairs is read up to its end. -/
theorem descriptionLoop_run {d : List Char} (l : List Char) (fuel : ℕ) (acc b : List Char)
    (hfuel : d.length < fuel) (hd : Folds d = true) :
    descriptionLoop fuel acc (.good b (d ++ '\n' :: ' ' :: '.' :: l)) =
      (some (acc ++ d), .good ('.' :: ' ' :: '\n' :: (d.reverse ++ b)) l) := by
  induction fuel generalizing d acc b with
  | zero => omega
  | succ fuel ih =>
    cases d with
    | nil => simpa using descriptionLoop_end fuel acc b l (.inl rfl)
    | cons c d =>
      by_cases hc : c = '\n' ∨ c = '\r'
      · cases d with
        | nil => rcases hc with rfl | rfl <;> simp [Folds] at hd
        | cons c2 d =>
          rw [Folds, if_pos hc, Bool.and_eq_true, decide_eq_true_eq] at hd
          obtain ⟨rfl, hd⟩ := hd
          rw [List.cons_append, List.cons_append, descriptionLoop_eol fuel acc b _ hc
            (by rcases hc with rfl | rfl <;> decide), ih (acc ++ [c2, c2]) (c2 :: c2 :: b)
            (by simp at hfuel; omega) hd]
          simp
      · rw [not_or] at hc
        rw [Folds.tail hc] at hd
        rw [List.cons_append, descriptionLoop_char fuel acc b _ hc, ih (acc ++ [c]) (c :: b)
          (by simpa using hfuel) hd]
        simp

/-- What is read of a description is only appended to. -/
theorem descriptionLoop_prefix {fuel : ℕ} {acc r : List Char} {s s' : InStream}
    (h : descriptionLoop fuel acc s = (some r, s')) : acc <+: r := by
  induction fuel generalizing acc s with
  | zero => cases h
  | succ fuel ih =>
    have hnext : ∀ (c : Option Char) (more : List Char) (s : InStream),
        (isGood >>= fun good => if good = true then descriptionLoop fuel (acc ++ more ++ [charOf c])
          else pure (acc ++ more ++ [charOf c])) s = (some r, s') → acc <+: r := by
      intro c more s hs
      rw [isGood_bind] at hs
      split_ifs at hs
      · exact (List.append_assoc acc more _ ▸ List.prefix_append acc _).trans (ih hs)
      · obtain rfl : acc ++ more ++ [charOf c] = r := Option.some.inj (congrArg Prod.fst hs)
        exact List.append_assoc acc more _ ▸ List.prefix_append acc _
    obtain ⟨c, s₁, -, h₁⟩ := bind_eq_some.mp h
    split_ifs at h₁ with hc
    · obtain ⟨c2, s₂, -, h₂⟩ := bind_eq_some.mp h₁
      split_ifs at h₂ with hc2
      · obtain ⟨c3, s₃, -, h₃⟩ := bind_eq_some.mp h₂
        split_ifs at h₃ with hc3
        · obtain rfl : acc = r := Option.some.inj (congrArg Prod.fst h₃)
          exact List.prefix_rfl
        · exact hnext c [charOf c3] s₃ h₃
      · exact hnext c [charOf c2] s₂ h₂
    · exact hnext c [] s₁ (by simpa using h₁)

/-- What is read of a description goes on as its text does only when the ends of lines come in pairs:
one that is alone is turned around with the next character. -/
theorem folds_of_descriptionLoop {d w r : List Char} {s' : InStream} (l : List Char) (fuel : ℕ)
    (acc b : List Char) (hlast : ∀ x ∈ d.getLast?, isspace x = false)
    (h : descriptionLoop fuel acc (.good b (d ++ '\n' :: ' ' :: '.' :: l)) = (some r, s'))
    (hr : r = acc ++ d ++ w) : Folds d = true := by
  induction fuel generalizing d acc b with
  | zero => cases h
  | succ fuel ih =>
    cases d with
    | nil => rfl
    | cons c d =>
      by_cases hc : c = '\n' ∨ c = '\r'
      · -- The last character is no white space, so `c` is not the last one.
        have hspace : isspace c = true := by rcases hc with rfl | rfl <;> decide
        cases d with
        | nil => simp [hspace] at hlast
        | cons c2 d =>
          by_cases hc2 : c2 = ' '
          · subst hc2
            cases d with
            | nil => simp [show isspace ' ' = true by decide] at hlast
            | cons c3 d =>
              by_cases hc3 : c3 = '.'
              · subst hc3
                rw [List.cons_append, List.cons_append, List.cons_append,
                  descriptionLoop_end fuel acc b _ hc] at h
                obtain rfl : acc = r := Option.some.inj (congrArg Prod.fst h)
                simp at hr
              · rw [List.cons_append, List.cons_append, List.cons_append,
                  descriptionLoop_eol_space fuel acc b _ hc hc3] at h
                obtain ⟨e, rfl⟩ := descriptionLoop_prefix h
                have heq : c3 :: c :: e = c :: ' ' :: (c3 :: d ++ w) := by simpa using hr
                rw [List.cons.injEq, List.cons.injEq] at heq
                rcases hc with rfl | rfl <;> exact absurd heq.2.1 (by decide)
          · rw [List.cons_append, List.cons_append, descriptionLoop_eol fuel acc b _ hc hc2] at h
            obtain ⟨e, he⟩ := descriptionLoop_prefix h
            have heq : c2 :: c :: e = c :: c2 :: (d ++ w) := by simpa [hr] using he
            rw [List.cons.injEq, List.cons.injEq] at heq
            obtain ⟨rfl, -, -⟩ := heq
            rw [Folds, if_pos hc, Bool.and_eq_true, decide_eq_true_eq]
            refine ⟨rfl, ih (acc ++ [c2, c2]) (c2 :: c2 :: b) (fun x hx => hlast x ?_) h (by simp [hr])⟩
            cases d with
            | nil => cases hx
            | cons y d => simpa using hx
      · rw [not_or] at hc
        rw [Folds.tail hc]
        rw [List.cons_append, descriptionLoop_char fuel acc b _ hc] at h
        refine ih (acc ++ [c]) (c :: b) (fun x hx => hlast x ?_) h (by simp [hr])
        cases d with
        | nil => cases hx
        | cons y d => simpa using hx

/-- A description is read back when it has no white space around and the ends of its lines come in
pairs. -/
theorem reads_readDescription {description : String} (l : List Char) (h : KeptDescription description) :
    Reads readDescription ([' '] ++ (description.toList ++ "\n .\n".toList)) description l := by
  obtain ⟨htrim, hfolds⟩ := h
  have hend : "\n .\n".toList = ['\n', ' ', '.', '\n'] := rfl
  unfold readDescription
  rw [hend]
  refine Reads.bind (a := ()) ?_ fun before => ?_
  · cases hd : description.toList with
    | nil => exact reads_readBlank [' '] '\n' _ isblank_space (by decide)
    | cons x t =>
      exact reads_readBlank [' '] x _ isblank_space
        (isblank_of_not_isspace (not_isspace_of_trim (htrim.trans hd)))
  · rw [List.append_assoc]
    refine (bind_run (descriptionLoop_run ('\n' :: l) _ [] before (by simp) hfolds)).trans ?_
    refine (bind_run (reads_readNewline [] l (fun _ h => by cases h) _)).trans ?_
    simp [htrim]

/-- A text that starts with no white space is its trimmed text and what was cut off its end. -/
theorem append_of_trim {r t : List Char} {c : Char} (hr : r = c :: t) (hc : isspace c = false) :
    ∃ ws, r = trim r ++ ws := by
  obtain ⟨ws, hws⟩ := List.rdropWhile_prefix isspace r
  have hdrop : r.dropWhile isspace = r := by rw [hr, List.dropWhile_cons_of_neg (by simp [hc])]
  exact ⟨ws, by rw [trim, hdrop, hws]⟩

/-- A trimmed text does not end with a space. -/
theorem not_isspace_getLast {l : List Char} (htrim : trim l = l) :
    ∀ x ∈ l.getLast?, isspace x = false := by
  intro x hx
  by_cases hne : trim l = []
  · rw [← htrim, hne] at hx
    cases hx
  · have hlast := List.rdropWhile_last_not isspace (l.dropWhile isspace) hne
    have hx' : (trim l).getLast? = some x := (congrArg List.getLast? htrim).trans hx
    rw [List.getLast?_eq_some_getLast hne, Option.some.injEq] at hx'
    exact Bool.eq_false_iff.mpr (hx' ▸ hlast)

/-- No other description is read back. -/
theorem readDescription_kept {description : String} {s' : InStream} (before l : List Char)
    (h : readDescription (.good before ([' '] ++ (description.toList ++ "\n .\n".toList) ++ l)) =
      (some description, s')) : KeptDescription description := by
  obtain ⟨⟨⟩, s₁, hblank, h₁⟩ := bind_eq_some.mp h
  obtain ⟨r, s₂, hloop, h₂⟩ := bind_eq_some.mp h₁
  obtain ⟨-, s₃, -, h₃⟩ := bind_eq_some.mp h₂
  have hr : trim r = description.toList := by
    rw [← Option.some.inj (congrArg Prod.fst h₃), String.toList_ofList]
  have htrim : trim description.toList = description.toList := by rw [← hr, trim_trim]
  refine ⟨htrim, ?_⟩
  cases hd : description.toList with
  | nil => rfl
  | cons x t =>
    have hx := not_isspace_of_trim (htrim.trans hd)
    have hxeol : x ≠ '\n' ∧ x ≠ '\r' := by
      constructor <;> rintro rfl <;> exact absurd hx (by decide)
    have hs₁ : s₁ = .good (' ' :: before) (x :: t ++ '\n' :: ' ' :: '.' :: '\n' :: l) := by
      have hread := reads_readBlank [' '] x (t ++ '\n' :: ' ' :: '.' :: '\n' :: l) isblank_space
        (isblank_of_not_isspace hx) before
      rw [hd, show "\n .\n".toList = ['\n', ' ', '.', '\n'] from rfl] at hblank
      have := hblank.symm.trans (by simpa using hread)
      exact congrArg Prod.snd this
    rw [hs₁] at hloop
    obtain ⟨e, he⟩ : [x] <+: r := by
      rw [List.cons_append, descriptionLoop_char _ _ _ _ hxeol] at hloop
      exact descriptionLoop_prefix hloop
    obtain ⟨ws, hws⟩ := append_of_trim (t := e) he.symm hx
    refine folds_of_descriptionLoop _ _ [] _ (hd ▸ not_isspace_getLast htrim) hloop (w := ws) ?_
    rw [List.nil_append, ← hd, ← hr]
    exact hws

end DescriptionParser

/-- A record that is read back. The minor numbers of its links are defined, there is something on each
of its lines, and `long` is enough for its size. -/
structure PackageId.Kept (b : PackageId) : Prop where
  depends : ∀ l ∈ b.depends, l.Kept
  builddepends : ∀ l ∈ b.builddepends, l.Kept
  conflicts : ∀ l ∈ b.conflicts, l.Kept
  maintainer : KeptLine b.maintainer
  description : KeptDescription b.description
  tags : ∀ t ∈ b.tags, KeptTag t
  url : KeptLine b.url
  size : b.size < 2 ^ 63
  md5sum : KeptLine b.md5sum

namespace DescriptionParser

/-! ## Records -/

theorem orElse_run {α β : Type} {code : ℤ} {f : Reader α}
    {next : α → InStream → Except ℤ β × InStream} {t l : List Char} {a : α} (h : Reads f t a l)
    (b : List Char) :
    orElse code f next (.good b (t ++ l)) = next a (.good (t.reverse ++ b) l) := by
  rw [orElse, h b]

theorem orElse_ok {α β : Type} {code : ℤ} {f : Reader α}
    {next : α → InStream → Except ℤ β × InStream} {s s' : InStream} {q : β} :
    orElse code f next s = (.ok q, s') ↔ ∃ a s₁, f s = (some a, s₁) ∧ next a s₁ = (.ok q, s') := by
  rcases hf : f s with ⟨_ | a, s₁⟩
  · simp [orElse, hf]
  · simp [orElse, hf]

/-- The word at the start of a line, then its reader. -/
theorem reads_word {word : String} {c : Char} {cs : List Char} (l : List Char)
    (hword : word.toList = c :: cs) (hc : isblank c = false) :
    Reads (readWord word) word.toList () l :=
  reads_readWord [] l hword (fun _ h => by cases h) hc

theorem reads_field {α : Type} {word : String} {f : Reader α} {c : Char} {cs t l : List Char} {a : α}
    (hword : word.toList = c :: cs) (hc : isblank c = false) (h : Reads f t a l) :
    Reads (field word f) (word.toList ++ t) a l :=
  (reads_word _ hword hc).bind h

theorem field_run {α : Type} {word : String} {f : Reader α} {c : Char} {cs : List Char} (b l : List Char)
    (hword : word.toList = c :: cs) (hc : isblank c = false) :
    field word f (.good b (word.toList ++ l)) = f (.good (word.toList.reverse ++ b) l) :=
  bind_run (reads_word l hword hc b)

theorem of_field {α : Type} {word : String} {f : Reader α} {s s' : InStream} {a : α}
    (h : field word f s = (some a, s')) : ∃ s₁, f s₁ = (some a, s') := by
  obtain ⟨⟨⟩, s₁, -, h₁⟩ := bind_eq_some.mp h
  exact ⟨s₁, h₁⟩

/-- The lines of a record. -/
def nameText (b : PackageId) : List Char := "Package:".toList ++ ([' '] ++ (b.name.toList ++ ['\n']))

def versionText (b : PackageId) : List Char :=
  "Version:".toList ++ ([' '] ++ (printed b.major ++ (['.'] ++ (printed b.minor ++ (['.'] ++
    (printed b.patch ++ ['\n']))))))

def linksText (word : String) (links : PackagesLinkId) : List Char :=
  word.toList ++ ([' '] ++ (writeLinks links ++ ['\n']))

def lineText (word line : String) : List Char := word.toList ++ ([' '] ++ (line.toList ++ ['\n']))

def descriptionText (b : PackageId) : List Char :=
  "Description:".toList ++ ([' '] ++ (b.description.toList ++ "\n .\n".toList))

def tagsText (b : PackageId) : List Char :=
  "Tags:".toList ++ ([' '] ++ (formatCopy (b.tags.map String.toList) ++ ['\n']))

def sizeText (b : PackageId) : List Char := "Size:".toList ++ ([' '] ++ (printed b.size ++ ['\n']))

/-- The text of a record, line by line. -/
theorem write_eq (b : PackageId) : b.write =
    nameText b ++ (versionText b ++ (linksText "Depends:" b.depends ++
      (linksText "Build-Depends:" b.builddepends ++ (linksText "Conflicts:" b.conflicts ++
        (lineText "Maintainer:" b.maintainer ++ (descriptionText b ++ (tagsText b ++
          (lineText "Url:" b.url ++ (sizeText b ++ lineText "MD5sum:" b.md5sum))))))))) := by
  have hend : "\n".toList = ['\n'] := rfl
  have hpoint : ".".toList = ['.'] := rfl
  have h0 : "Package: ".toList = "Package:".toList ++ [' '] := rfl
  have h1 : "Version: ".toList = "Version:".toList ++ [' '] := rfl
  have h2 : "Depends: ".toList = "Depends:".toList ++ [' '] := rfl
  have h3 : "Build-Depends: ".toList = "Build-Depends:".toList ++ [' '] := rfl
  have h4 : "Conflicts: ".toList = "Conflicts:".toList ++ [' '] := rfl
  have h5 : "Maintainer: ".toList = "Maintainer:".toList ++ [' '] := rfl
  have h6 : "Description: ".toList = "Description:".toList ++ [' '] := rfl
  have h7 : "Tags: ".toList = "Tags:".toList ++ [' '] := rfl
  have h8 : "Url: ".toList = "Url:".toList ++ [' '] := rfl
  have h9 : "Size: ".toList = "Size:".toList ++ [' '] := rfl
  have h10 : "MD5sum: ".toList = "MD5sum:".toList ++ [' '] := rfl
  unfold PackageId.write nameText versionText linksText lineText descriptionText tagsText sizeText
  rw [h0, h1, h2, h3, h4, h5, h6, h7, h8, h9, h10]
  simp only [-String.reduceToList, hend, hpoint, List.append_assoc]

theorem reads_nameText {b : PackageId} (l : List Char) (hb : b.Valid) :
    Reads (do let name ← field "Package:" readIdentifier; readNewline; return name) (nameText b)
      b.name l := by
  have hname : Reads (field "Package:" readIdentifier) ("Package:".toList ++ ([' '] ++ b.name.toList))
      b.name (['\n'] ++ l) :=
    reads_field rfl (by decide) (reads_readIdentifier [' '] l '\n' hb.name isblank_space (by decide))
  have hend : Reads (do readNewline; return b.name) ['\n'] b.name l :=
    (reads_readNewline [] ([] ++ l) (fun _ h => by cases h)).bind (Reads.pure b.name l)
  have hassoc : ∀ w n : List Char, w ++ ([' '] ++ (n ++ ['\n'])) = (w ++ ([' '] ++ n)) ++ ['\n'] := by
    simp
  have htext : nameText b = ("Package:".toList ++ ([' '] ++ b.name.toList)) ++ ['\n'] := hassoc _ _
  rw [htext]
  exact hname.bind hend

theorem reads_versionText {b : PackageId} (l : List Char) (hb : b.Valid) :
    Reads (field "Version:" readVersion) (versionText b) (b.major, b.minor, b.patch) l :=
  reads_field rfl (by decide) (reads_readVersion l hb.major hb.minor hb.patch)

theorem reads_linksText {word : String} {c : Char} {cs : List Char} {links : PackagesLinkId}
    (l : List Char) (hword : word.toList = c :: cs) (hc : isblank c = false)
    (hvalid : ∀ x ∈ links, x.Valid) (hkept : ∀ x ∈ links, x.Kept) :
    Reads (field word readLinkid) (linksText word links) links l :=
  reads_field hword hc (reads_readLinkid links l hvalid hkept)

theorem reads_lineText {word line : String} {c : Char} {cs : List Char}
    (l : List Char) (hword : word.toList = c :: cs) (hc : isblank c = false) (h : KeptLine line) :
    Reads (field word readMaintainer) (lineText word line) line l :=
  reads_field hword hc (reads_readMaintainer l h)

theorem reads_descriptionText {b : PackageId} (l : List Char) (h : KeptDescription b.description) :
    Reads (field "Description:" readDescription) (descriptionText b) b.description l :=
  reads_field rfl (by decide) (reads_readDescription l h)

theorem reads_tagsText {b : PackageId} (l : List Char) (hb : b.Valid) (h : ∀ t ∈ b.tags, KeptTag t) :
    Reads (field "Tags:" readTags) (tagsText b) b.tags l :=
  reads_field rfl (by decide) (reads_readTags b.tags l hb.tags h)

theorem reads_sizeText {b : PackageId} (l : List Char) (h : b.size < 2 ^ 63) :
    Reads (field "Size:" readSize) (sizeText b) b.size l :=
  reads_field rfl (by decide) (reads_readSize l h)

/-- A record that is kept is read back, up to its distribution, which is not written. -/
theorem readFields_run {b : PackageId} (pkg : PackageId) (before l : List Char) (hb : b.Valid)
    (hkept : b.Kept) :
    readFields pkg (.good before (b.write ++ l)) =
      (.ok { b with distribution := pkg.distribution }, .good (b.write.reverse ++ before) l) := by
  rw [write_eq]
  simp only [List.append_assoc]
  unfold readFields
  rw [orElse_run (reads_nameText _ hb), orElse_run (reads_versionText _ hb)]
  dsimp only
  rw [orElse_run (reads_linksText _ rfl (by decide) hb.depends hkept.depends),
    orElse_run (reads_linksText _ rfl (by decide) hb.builddepends hkept.builddepends),
    orElse_run (reads_linksText _ rfl (by decide) hb.conflicts hkept.conflicts),
    orElse_run (reads_lineText _ rfl (by decide) hkept.maintainer),
    orElse_run (reads_descriptionText _ hkept.description),
    orElse_run (reads_tagsText _ hb hkept.tags),
    orElse_run (reads_lineText _ rfl (by decide) hkept.url),
    orElse_run (reads_sizeText _ hkept.size),
    orElse_run (reads_lineText _ rfl (by decide) hkept.md5sum)]
  simp only [List.reverse_append, List.append_assoc]

/-- The stream after a part that is read back. -/
theorem eq_of_reads {α : Type} {f : Reader α} {t l b : List Char} {a a' : α} {s' : InStream}
    (h : Reads f t a l) (hrun : f (.good b (t ++ l)) = (some a', s')) :
    s' = .good (t.reverse ++ b) l :=
  (congrArg Prod.snd (hrun.symm.trans (h b)))

/-- A list of links is only read when each link is kept. -/
theorem links_kept {word : String} {c : Char} {cs before l : List Char} {links links' : PackagesLinkId}
    {s' : InStream} (hword : word.toList = c :: cs) (hc : isblank c = false)
    (hvalid : ∀ x ∈ links, x.Valid)
    (h : field word readLinkid (.good before (linksText word links ++ l)) = (some links', s')) :
    ∀ x ∈ links, x.Kept := by
  by_contra hkept
  have hnone := readLinkid_none links (word.toList.reverse ++ before) l hvalid hkept
  have htext : linksText word links ++ l =
      word.toList ++ ([' '] ++ (writeLinks links ++ '\n' :: l)) := by
    simp [linksText]
  rw [htext, field_run before _ hword hc] at h
  exact absurd (hnone.symm.trans (congrArg Prod.fst h)) (by simp)

/-- A description is only read as it was when it is kept. -/
theorem description_kept {word description : String} {c : Char} {cs before l : List Char}
    {s' : InStream} (hword : word.toList = c :: cs) (hc : isblank c = false)
    (h : field word readDescription (.good before
      (word.toList ++ ([' '] ++ (description.toList ++ "\n .\n".toList)) ++ l)) = (some description, s')) :
    KeptDescription description := by
  rw [List.append_assoc, field_run before _ hword hc] at h
  exact readDescription_kept _ l h

/-- A record that is not kept is refused, or another one is read. -/
theorem readFields_kept {b : PackageId} {pkg : PackageId} {before l : List Char} {s' : InStream}
    (hb : b.Valid) (h : readFields pkg (.good before (b.write ++ l)) = (.ok b, s')) : b.Kept := by
  rw [write_eq] at h
  simp only [List.append_assoc] at h
  obtain ⟨name, s₁, h₁, h⟩ := orElse_ok.mp h
  obtain ⟨⟨major, minor, patch⟩, s₂, h₂, h⟩ := orElse_ok.mp h
  obtain ⟨depends, s₃, h₃, h⟩ := orElse_ok.mp h
  obtain ⟨builddepends, s₄, h₄, h⟩ := orElse_ok.mp h
  obtain ⟨conflicts, s₅, h₅, h⟩ := orElse_ok.mp h
  obtain ⟨maintainer, s₆, h₆, h⟩ := orElse_ok.mp h
  obtain ⟨description, s₇, h₇, h⟩ := orElse_ok.mp h
  obtain ⟨tags, s₈, h₈, h⟩ := orElse_ok.mp h
  obtain ⟨url, s₉, h₉, h⟩ := orElse_ok.mp h
  obtain ⟨size, s₁₀, h₁₀, h⟩ := orElse_ok.mp h
  obtain ⟨md5sum, s₁₁, h₁₁, h⟩ := orElse_ok.mp h
  have hq : { pkg with
      name, major, minor, patch, depends, builddepends, conflicts
      maintainer, description, tags, url, size, md5sum } = b := Except.ok.inj (congrArg Prod.fst h)
  -- The lines in turn: each is only read in front of what comes after it.
  obtain rfl := eq_of_reads (reads_nameText _ hb) h₁
  obtain rfl := eq_of_reads (reads_versionText _ hb) h₂
  have hdepends := links_kept rfl (by decide) hb.depends h₃
  obtain rfl := eq_of_reads (reads_linksText _ rfl (by decide) hb.depends hdepends) h₃
  have hbuilddepends := links_kept rfl (by decide) hb.builddepends h₄
  obtain rfl := eq_of_reads (reads_linksText _ rfl (by decide) hb.builddepends hbuilddepends) h₄
  have hconflicts := links_kept rfl (by decide) hb.conflicts h₅
  obtain rfl := eq_of_reads (reads_linksText _ rfl (by decide) hb.conflicts hconflicts) h₅
  have hmaintainer : KeptLine b.maintainer := by
    obtain ⟨s, hs⟩ := of_field h₆
    exact hq ▸ readMaintainer_kept hs
  obtain rfl := eq_of_reads (reads_lineText _ rfl (by decide) hmaintainer) h₆
  have hdescription : KeptDescription b.description := by
    obtain rfl : description = b.description := congrArg PackageId.description hq
    exact description_kept rfl (by decide) h₇
  have htags : ∀ t ∈ b.tags, KeptTag t := by
    obtain ⟨s, hs⟩ := of_field h₈
    exact hq ▸ readTags_kept hs
  have hurl : KeptLine b.url := by
    obtain ⟨s, hs⟩ := of_field h₉
    exact hq ▸ readMaintainer_kept hs
  have hsize : b.size < 2 ^ 63 := by
    obtain ⟨s, hs⟩ := of_field h₁₀
    exact hq ▸ readSize_lt hs
  have hmd5sum : KeptLine b.md5sum := by
    obtain ⟨s, hs⟩ := of_field h₁₁
    exact hq ▸ readMaintainer_kept hs
  exact ⟨hdepends, hbuilddepends, hconflicts, hmaintainer, hdescription, htags, hurl, hsize, hmd5sum⟩

/-- What is read has the distribution that the caller gives. -/
theorem readFields_distribution {pkg q : PackageId} {s s' : InStream}
    (h : readFields pkg s = (.ok q, s')) : q.distribution = pkg.distribution := by
  obtain ⟨name, s₁, -, h⟩ := orElse_ok.mp h
  obtain ⟨⟨major, minor, patch⟩, s₂, -, h⟩ := orElse_ok.mp h
  obtain ⟨depends, s₃, -, h⟩ := orElse_ok.mp h
  obtain ⟨builddepends, s₄, -, h⟩ := orElse_ok.mp h
  obtain ⟨conflicts, s₅, -, h⟩ := orElse_ok.mp h
  obtain ⟨maintainer, s₆, -, h⟩ := orElse_ok.mp h
  obtain ⟨description, s₇, -, h⟩ := orElse_ok.mp h
  obtain ⟨tags, s₈, -, h⟩ := orElse_ok.mp h
  obtain ⟨url, s₉, -, h⟩ := orElse_ok.mp h
  obtain ⟨size, s₁₀, -, h⟩ := orElse_ok.mp h
  obtain ⟨md5sum, s₁₁, -, h⟩ := orElse_ok.mp h
  exact (congrArg PackageId.distribution (Except.ok.inj (congrArg Prod.fst h))).symm

/-! ## Databases -/

/-- The first character of a record. -/
theorem write_head (b : PackageId) : ∃ t, b.write = 'P' :: t := by
  have hword : nameText b = 'P' :: ("ackage:".toList ++ ([' '] ++ (b.name.toList ++ ['\n']))) := rfl
  rw [write_eq, hword]
  exact ⟨_, List.cons_append⟩

/-- A record starts right where the reader of spaces stops. -/
theorem readSpace_write (b : PackageId) (before l : List Char) :
    readSpace (.good before (b.write ++ l)) = (some (), .good before (b.write ++ l)) := by
  obtain ⟨t, ht⟩ := write_head b
  rw [ht]
  exact reads_skip [] 'P' (t ++ l) (fun _ h => by cases h) (by decide) before

theorem readPackage_write (b pkg : PackageId) (before l : List Char) :
    readPackage pkg (.good before (b.write ++ l)) =
      ((readFields pkg (.good before (b.write ++ l))).1.map some,
        (readFields pkg (.good before (b.write ++ l))).2) := by
  simp [readPackage, readSpace_write]

/-- There is no record at the end. -/
theorem readPackage_nil (pkg : PackageId) (before : List Char) :
    (readPackage pkg (.good before [])).1 = .ok none := rfl

/-- The records that are kept are read one after the other. -/
theorem packagesLoop_run (distribution : String) (ps : List PackageId) (fuel : ℕ) (before : List Char)
    (hfuel : ps.length < fuel) (hvalid : ∀ p ∈ ps, p.Valid) (hkept : ∀ p ∈ ps, p.Kept) :
    packagesLoop distribution fuel (.good before (ps.flatMap PackageId.write)) =
      (ps.map fun p => { p with distribution }, none) := by
  induction ps generalizing fuel before with
  | nil =>
    obtain ⟨fuel, rfl⟩ : ∃ k, fuel = k + 1 := ⟨fuel - 1, by simp at hfuel; omega⟩
    rfl
  | cons p ps ih =>
    obtain ⟨fuel, rfl⟩ : ∃ k, fuel = k + 1 := ⟨fuel - 1, by simp at hfuel; omega⟩
    rw [List.flatMap_cons, packagesLoop, readPackage_write,
      readFields_run _ _ _ (hvalid p List.mem_cons_self) (hkept p List.mem_cons_self)]
    have hrest := ih fuel (p.write.reverse ++ before) (by simp at hfuel; omega)
      (fun x hx => hvalid x (List.mem_cons_of_mem p hx)) fun x hx => hkept x (List.mem_cons_of_mem p hx)
    simp [Except.map, hrest]

/-- When the records come back as they were, each of them is kept. -/
theorem packagesLoop_kept {distribution : String} {ps : List PackageId} {fuel : ℕ}
    {before : List Char} (hvalid : ∀ p ∈ ps, p.Valid)
    (h : packagesLoop distribution fuel (.good before (ps.flatMap PackageId.write)) = (ps, none)) :
    ∀ p ∈ ps, p.Kept ∧ p.distribution = distribution := by
  induction ps generalizing fuel before with
  | nil => exact fun _ h => by cases h
  | cons p ps ih =>
    cases fuel with
    | zero => cases h
    | succ fuel =>
      have hp := hvalid p List.mem_cons_self
      rw [List.flatMap_cons, packagesLoop, readPackage_write] at h
      rcases hrun : readFields { distribution } (.good before (p.write ++ ps.flatMap PackageId.write))
        with ⟨code | q, s₁⟩
      · simp [hrun, Except.map] at h
      · rw [hrun] at h
        simp only [Except.map] at h
        have hqp : q = p := by
          split_ifs at h
          · exact (List.cons.inj (congrArg Prod.fst h)).1
          · exact (List.cons.inj (congrArg Prod.fst h)).1
        subst hqp
        have hkept := readFields_kept hp hrun
        have hdistribution := readFields_distribution hrun
        obtain rfl : s₁ = .good (q.write.reverse ++ before) (ps.flatMap PackageId.write) :=
          (congrArg Prod.snd (hrun.symm.trans (readFields_run _ _ _ hp hkept)))
        rw [if_neg (by simp)] at h
        have hrest := ih (fun x hx => hvalid x (List.mem_cons_of_mem q hx))
          (Prod.ext (List.cons.inj (congrArg Prod.fst h)).2 (congrArg Prod.snd h :))
        exact List.forall_mem_cons.mpr ⟨⟨hkept, hdistribution⟩, hrest⟩

end DescriptionParser

open DescriptionParser

/-- No record is written as nothing. -/
theorem length_flatMap_write (ps : List PackageId) : ps.length ≤ (ps.flatMap PackageId.write).length := by
  induction ps with
  | nil => exact le_rfl
  | cons p ps ih =>
    obtain ⟨t, ht⟩ := write_head p
    simp only [List.flatMap_cons, List.length_append, List.length_cons, ht]
    omega

/-- A database comes back from its text exactly when each of its records is kept, and has the
distribution that the caller gives. -/
theorem extract_write_iff (distribution : String) (ps : List PackageId) (hvalid : ∀ p ∈ ps, p.Valid) :
    extract distribution (ps.flatMap PackageId.write) = (ps, none) ↔
      ∀ p ∈ ps, p.Kept ∧ p.distribution = distribution := by
  constructor
  · exact packagesLoop_kept hvalid
  · intro h
    have hlength := length_flatMap_write ps
    refine (packagesLoop_run distribution ps _ [] (by omega) hvalid fun p hp => (h p hp).1).trans ?_
    have hmap : ps.map (fun p => { p with distribution }) = ps := by
      conv_rhs => rw [← List.map_id ps]
      refine List.map_congr_left fun p hp => ?_
      rw [← (h p hp).2]
      rfl
    rw [hmap]

/-- A record that is kept. -/
def keptRecord : PackageId where
  name := "vle.output"
  maintainer := "maintainer"
  description := "Output plug-ins"
  url := "http://www.vle-project.org"
  md5sum := "d41d8cd98f00b204e9800998ecf8427e"
  tags := ["output", "plug-ins"]
  depends := [{ name := "ext.muparser" }, { name := "vle.tester", major := 2, minor := 0, op := .greaterOrEqual }]
  major := 2
  minor := 0
  patch := 0

theorem keptRecord_valid : keptRecord.Valid where
  name := ⟨'v', "le.output".toList, rfl, by decide, List.all_eq_true.mp (by decide)⟩
  major := ⟨by decide, by decide⟩
  minor := ⟨by decide, by decide⟩
  patch := ⟨by decide, by decide⟩
  depends := by
    intro l hl
    rcases List.mem_pair.mp hl with rfl | rfl
    · exact ⟨⟨'e', "xt.muparser".toList, rfl, by decide, List.all_eq_true.mp (by decide)⟩, .inl rfl,
        .inl rfl, .inl rfl,
        by decide, by decide⟩
    · exact ⟨⟨'v', "le.tester".toList, rfl, by decide, List.all_eq_true.mp (by decide)⟩,
        .inr ⟨by decide, by decide⟩,
        .inr ⟨by decide, by decide⟩, .inl rfl, by decide, by decide⟩
  builddepends := fun _ h => by cases h
  conflicts := fun _ h => by cases h
  tags := by decide

theorem extract_write_keptRecord :
    extract "" ([keptRecord].flatMap PackageId.write) = ([keptRecord], none) := by
  refine (extract_write_iff "" [keptRecord] (List.forall_mem_singleton.mpr keptRecord_valid)).mpr ?_
  refine List.forall_mem_singleton.mpr ⟨⟨?_, ?_, ?_, ?_, ?_, ?_, ?_, ?_, ?_⟩, rfl⟩
  all_goals decide

/-- A record without maintainer, which is well formed, does not come back. -/
theorem not_extract_write : ¬ ∀ (distribution : String) (ps : List PackageId),
    (∀ p ∈ ps, p.Valid ∧ p.distribution = distribution) →
    extract distribution (ps.flatMap PackageId.write) = (ps, none) := by
  intro h
  let p : PackageId := { keptRecord with maintainer := "" }
  have hvalid : p.Valid := { keptRecord_valid with }
  have hkept := packagesLoop_kept (List.forall_mem_singleton.mpr hvalid)
    (h "" [p] (List.forall_mem_singleton.mpr ⟨hvalid, rfl⟩))
  exact (hkept p List.mem_cons_self).1.maintainer.1 rfl

end Vle.Utils
