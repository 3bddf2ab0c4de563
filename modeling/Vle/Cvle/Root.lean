import Mathlib.Tactic

/-!
# Reading the input of cvle in blocks

`Root` reads its input line by line. `read` cuts a block of at most `blocksize` lines from it, and a
blank line ends a block. The states of the stream are followed through `Left`, the pieces of the text
that are still to come: what is between two newlines, or between a newline and an end of the text.
In these terms `read` is `cut` (`Root.read_eq`), a function on lists of lines, up to the state in
which a last line without newline leaves the stream.
-/

namespace Vle.Cvle

/-- A text. -/
abbrev Text := List Char

/-- A `std::istream`: what is left to read, and the flags `eofbit` and `failbit`. -/
structure Stream where
  rest : Text
  eof : Bool := false
  fail : Bool := false

def Stream.good (is : Stream) : Bool := !is.eof && !is.fail

/-- The characters up to a newline, and those after it if there is one. -/
def splitLine : Text → Text × Option Text
  | [] => ([], none)
  | c :: cs => if c = '\n' then ([], some cs) else (c :: (splitLine cs).1, (splitLine cs).2)

/-- `std::getline` into an empty string. -/
def getline (is : Stream) : Text × Stream :=
  if is.good then
    match splitLine is.rest with
    | (line, some rest) => (line, { is with rest })
    | (line, none) => (line, { rest := [], eof := true, fail := line.isEmpty })
  else
    ([], { is with fail := true })

/-- The members of `Root` that reading changes, and the block size. -/
structure Root where
  is : Stream
  firstId : ℕ := 0
  lastId : ℕ := 0
  blocksize : ℕ

/-- A block of rows, with their identifiers. -/
structure Block where
  text : Text
  first : ℕ
  last : ℕ

/-- The loop of `read`, which has still `n` lines to read: whether there is a block, and the block. -/
def readLoop : ℕ → Root → Text → Bool × Text × Root
  | 0, r, block => (true, block, r)
  | n + 1, r, block =>
    if r.is.good then
      let (tmp, is) := getline r.is
      if tmp.isEmpty then
        (!block.isEmpty, block, { r with is })
      else
        readLoop n { r with is, lastId := r.lastId + 1 } (block ++ tmp ++ ['\n'])
    else
      (true, block, r)

namespace Root

def header (r : Root) : Text × Root :=
  let (header, is) := getline r.is
  (header, { r with is })

/-- Cut a block. A stream that failed gives none, and leaves the identifiers of the last one. -/
def read (r : Root) : Bool × Block × Root :=
  let r := { r with firstId := r.lastId }
  if r.is.fail then
    (false, ⟨[], r.firstId, r.lastId⟩, r)
  else
    let (found, block, r') := readLoop r.blocksize r []
    (found, ⟨block, r'.firstId, r'.lastId⟩, r')

end Root

/-! ## Lines -/

/-- The pieces of a text between its newlines. -/
def pieces : Text → List Text
  | [] => [[]]
  | c :: cs => if c = '\n' then [] :: pieces cs else (pieces cs).modifyHead (c :: ·)

/-- Whether the text ends with a newline. -/
def endsWithNewline (text : Text) : Prop := text.getLast? = some '\n'

instance (text : Text) : Decidable (endsWithNewline text) :=
  inferInstanceAs (Decidable (_ = _))

/-- The lines after the header that are not empty. -/
def dataLines (text : Text) : List Text := (pieces text).tail.filter (· ≠ [])

/-- A block as it is sent: its lines, each with its newline. -/
def unlines (lines : List Text) : Text := lines.flatMap (· ++ ['\n'])

theorem pieces_ne_nil (text : Text) : pieces text ≠ [] := by
  induction text with
  | nil => exact List.cons_ne_nil _ _
  | cons c cs ih =>
    rw [pieces]
    split_ifs
    · exact List.cons_ne_nil _ _
    · simpa [List.modifyHead_eq_nil_iff] using ih

/-- A newline ends the first piece; without one, the text is the only piece. -/
theorem pieces_eq (text : Text) : pieces text =
    (splitLine text).1 :: ((splitLine text).2.map pieces).getD [] := by
  induction text with
  | nil => rfl
  | cons c cs ih =>
    rw [pieces, splitLine]
    split_ifs with hc
    · rfl
    · rw [ih]
      rfl

/-- A text ends with a newline exactly when its last piece, not the first one, is empty. -/
theorem endsWithNewline_iff (text : Text) :
    endsWithNewline text ↔ (pieces text).tail.getLast? = some [] := by
  have hcons : ∀ (c : Char) {cs : Text}, cs ≠ [] → (endsWithNewline (c :: cs) ↔ endsWithNewline cs) :=
    fun c cs hcs => by
      obtain ⟨d, ds, rfl⟩ := List.exists_cons_of_ne_nil hcs
      rw [endsWithNewline, List.getLast?_cons_cons, endsWithNewline]
  induction text with
  | nil => simp [endsWithNewline, pieces]
  | cons c cs ih =>
    by_cases hcs : cs = []
    · subst hcs
      by_cases hc : c = '\n'
      · subst hc
        exact ⟨fun _ => rfl, fun _ => rfl⟩
      · simp [endsWithNewline, pieces, hc]
    · refine (hcons c hcs).trans (ih.trans ?_)
      rw [pieces]
      obtain ⟨p, ps, hp⟩ := List.exists_cons_of_ne_nil (pieces_ne_nil cs)
      split_ifs
      · rw [hp, List.tail_cons, List.tail_cons]
        cases ps with
        | nil =>
          -- The rest is one piece without newline, which is not empty.
          have hp' : p ≠ [] := by
            rintro rfl
            rw [pieces_eq] at hp
            obtain ⟨hfst, hsnd⟩ := List.cons.inj hp
            obtain ⟨d, ds, rfl⟩ := List.exists_cons_of_ne_nil hcs
            rw [splitLine] at hfst hsnd
            split_ifs at hfst hsnd
            exact pieces_ne_nil ds (by simpa using hsnd)
          simp [hp']
        | cons q qs => rw [List.getLast?_cons_cons]
      · rw [hp]
        rfl

/-! ## Reading as cutting lists of lines -/

/-- Cut at most `n` lines off, and stop at a blank one, which is dropped. -/
def cut : ℕ → List Text → List Text × List Text
  | 0, ls => ([], ls)
  | _ + 1, [] => ([], [])
  | n + 1, l :: ls => if l = [] then ([], ls) else (l :: (cut n ls).1, (cut n ls).2)

theorem cut_length (n : ℕ) (ls : List Text) : (cut n ls).2.length ≤ ls.length := by
  induction n generalizing ls with
  | zero => exact le_rfl
  | succ n ih =>
    cases ls with
    | nil => exact le_rfl
    | cons l ls =>
      rw [cut]
      split_ifs
      · exact Nat.le_succ _
      · exact (ih ls).trans (Nat.le_succ _)

/-- A cut takes no more lines than it may. -/
theorem cut_fst_length (n : ℕ) (ls : List Text) : (cut n ls).1.length ≤ n := by
  induction n generalizing ls with
  | zero => exact le_rfl
  | succ n ih =>
    cases ls with
    | nil => exact Nat.zero_le _
    | cons l ls =>
      rw [cut]
      split_ifs
      · exact Nat.zero_le _
      · exact Nat.succ_le_succ (ih ls)

/-- A cut makes progress. -/
theorem cut_lt {n : ℕ} (hn : 1 ≤ n) {ls : List Text} (hls : ls ≠ []) :
    (cut n ls).2.length < ls.length := by
  obtain ⟨n, rfl⟩ : ∃ k, n = k + 1 := ⟨n - 1, by omega⟩
  obtain ⟨l, ls, rfl⟩ := List.exists_cons_of_ne_nil hls
  rw [cut]
  split_ifs
  · exact Nat.lt_succ_self _
  · exact Nat.lt_succ_of_le (cut_length n ls)

/-- A cut keeps the lines that are not empty, in order. -/
theorem cut_filter (n : ℕ) (ls : List Text) :
    (cut n ls).1 ++ (cut n ls).2.filter (· ≠ []) = ls.filter (· ≠ []) := by
  induction n generalizing ls with
  | zero => rfl
  | succ n ih =>
    cases ls with
    | nil => rfl
    | cons l ls =>
      rw [cut]
      split_ifs with hl
      · simp [hl]
      · rw [List.cons_append, ih, List.filter_cons_of_pos (by simpa using hl)]

/-- What is left after a cut ends as before, unless nothing is left. -/
theorem cut_getLast? (n : ℕ) {ls : List Text} (h : (cut n ls).2 ≠ []) :
    (cut n ls).2.getLast? = ls.getLast? := by
  induction n generalizing ls with
  | zero => rfl
  | succ n ih =>
    cases ls with
    | nil => exact absurd rfl h
    | cons l ls =>
      have hcons : ls ≠ [] → (l :: ls).getLast? = ls.getLast? := fun hls => by
        obtain ⟨q, qs, rfl⟩ := List.exists_cons_of_ne_nil hls
        exact List.getLast?_cons_cons
      rw [cut] at h ⊢
      split_ifs at h ⊢
      · exact (hcons h).symm
      · have hls : ls ≠ [] := by
          rintro rfl
          cases n <;> exact h rfl
        exact (ih h).trans (hcons hls).symm

/-- The text of a block tells whether it has lines. -/
theorem unlines_eq_nil {lines : List Text} : unlines lines = [] ↔ lines = [] := by
  cases lines with
  | nil => exact ⟨fun _ => rfl, fun _ => rfl⟩
  | cons l ls => simp [unlines]

namespace Root

/-- The pieces that are still to be read. -/
def lines (r : Root) : List Text := if r.is.good then pieces r.is.rest else []

theorem good_iff (r : Root) : r.is.good = true ↔ r.lines ≠ [] := by
  rw [lines]
  split_ifs with h
  · exact ⟨fun _ => pieces_ne_nil _, fun _ => h⟩
  · exact ⟨fun h' => absurd h' h, fun h' => absurd rfl h'⟩

end Root

/-- `getline` takes the next piece, and fails when it is the last one and empty. -/
theorem getline_eq {r : Root} {p : Text} {ps : List Text} (h : r.lines = p :: ps) :
    (getline r.is).1 = p ∧ ({ r with is := (getline r.is).2 } : Root).lines = ps ∧
      ((getline r.is).2.fail = true ↔ ps = [] ∧ p = []) := by
  have hgood : r.is.good = true := r.good_iff.mpr (by rw [h]; exact List.cons_ne_nil _ _)
  have hfail : r.is.fail = false := by
    rw [Stream.good, Bool.and_eq_true] at hgood
    simpa using hgood.2
  rw [Root.lines, if_pos hgood, pieces_eq] at h
  obtain ⟨hp, hps⟩ := List.cons.inj h
  rw [getline, if_pos hgood]
  cases hsplit : splitLine r.is.rest with
  | mk line rest =>
    rw [hsplit] at hp hps
    obtain rfl : line = p := hp
    cases rest with
    | none =>
      obtain rfl : [] = ps := hps
      exact ⟨rfl, rfl, by simp⟩
    | some rest =>
      obtain rfl : pieces rest = ps := hps
      have hgood' : ({ r.is with rest } : Stream).good = true := hgood
      refine ⟨rfl, if_pos hgood', ?_⟩
      rw [hfail]
      exact ⟨nofun, fun h => absurd h.1 (pieces_ne_nil rest)⟩

/-- The loop of `read` cuts the lines. It finds a block unless it is empty, and it leaves the stream
failed exactly when the lines come to an end with an empty one. -/
theorem readLoop_eq (n : ℕ) (r : Root) (block : Text) (hr : r.is.fail = false)
    (hstart : block ≠ [] ∨ 1 ≤ n ∧ r.lines ≠ []) :
    (readLoop n r block).1 = !(readLoop n r block).2.1.isEmpty ∧
      (readLoop n r block).2.1 = block ++ unlines (cut n r.lines).1 ∧
      (readLoop n r block).2.2.lines = (cut n r.lines).2 ∧
      (readLoop n r block).2.2.lastId = r.lastId + (cut n r.lines).1.length ∧
      (readLoop n r block).2.2.firstId = r.firstId ∧
      (readLoop n r block).2.2.blocksize = r.blocksize ∧
      ((readLoop n r block).2.2.is.fail = true ↔
        (cut n r.lines).2 = [] ∧ r.lines.getLast? = some []) := by
  induction n generalizing r block with
  | zero =>
    have hblock : block ≠ [] := by
      rcases hstart with h | ⟨h, -⟩
      · exact h
      · omega
    refine ⟨by simpa [readLoop] using hblock, (List.append_nil _).symm, rfl, rfl, rfl, rfl, ?_⟩
    rw [readLoop, cut, hr]
    refine ⟨nofun, fun ⟨hnil, hlast⟩ => ?_⟩
    dsimp only at hnil
    rw [hnil] at hlast
    cases hlast
  | succ n ih =>
    rw [readLoop]
    cases hlines : r.lines with
    | nil =>
      -- The stream has ended: the loop stops at once.
      have hblock : block ≠ [] := by
        rcases hstart with h | ⟨-, h⟩
        · exact h
        · exact absurd hlines h
      rw [if_neg fun h => r.good_iff.mp h hlines]
      refine ⟨by simpa using hblock, (List.append_nil _).symm, hlines, rfl, rfl, rfl, ?_⟩
      rw [hr]
      exact ⟨nofun, fun h => by cases h.2⟩
    | cons p ps =>
      obtain ⟨hp, hps, hlast⟩ := getline_eq hlines
      rw [if_pos (r.good_iff.mpr (by rw [hlines]; exact List.cons_ne_nil _ _))]
      dsimp only
      rw [cut, hp]
      have hlast' : ps ≠ [] → (p :: ps).getLast? = ps.getLast? := fun hne => by
        obtain ⟨q, qs, rfl⟩ := List.exists_cons_of_ne_nil hne
        exact List.getLast?_cons_cons
      by_cases hnil : p = []
      · rw [if_pos (by simpa using hnil), if_pos hnil]
        refine ⟨rfl, (List.append_nil _).symm, hps, rfl, rfl, rfl, hlast.trans ?_⟩
        refine ⟨fun h => ⟨h.1, by simp [h.1, h.2]⟩, fun h => ⟨h.1, hnil⟩⟩
      · rw [if_neg (by simpa using hnil), if_neg hnil]
        -- A line that is not empty does not make the stream fail.
        have hr' : (getline r.is).2.fail = false :=
          Bool.eq_false_iff.mpr fun h => hnil (hlast.mp h).2
        obtain ⟨h1, h2, h3, h4, h5, h6, h7⟩ :=
          ih { r with is := (getline r.is).2, lastId := r.lastId + 1 } (block ++ p ++ ['\n']) hr'
            (.inl (by simp))
        have hps' : ({ r with is := (getline r.is).2, lastId := r.lastId + 1 } : Root).lines = ps :=
          hps
        rw [hps'] at h2 h3 h4 h7
        refine ⟨h1, ?_, h3, ?_, h5, h6, h7.trans ?_⟩
        · rw [h2, unlines, unlines, List.flatMap_cons]
          simp only [List.append_assoc]
        · rw [h4, List.length_cons]
          dsimp only
          omega
        · refine and_congr_right fun hrest => ?_
          by_cases hne : ps = []
          · subst hne
            simp [hnil]
          · rw [hlast' hne]

namespace Root

/-- The stream has come to its end without having failed: the last line had no newline. -/
def Unended (r : Root) : Prop := r.is.fail = false ∧ r.lines = []

/-- What a read does: it cuts the next lines, and has the identifiers follow on. It finds a block
when there is a line before the next blank one, and also in a stream that ended without failing. -/
structure Reads (r r' : Root) (found : Bool) (block : Block) : Prop where
  lines : r'.lines = (cut r.blocksize r.lines).2
  text : block.text = unlines (cut r.blocksize r.lines).1
  first : block.first = r.lastId
  last : block.last = r.lastId + (cut r.blocksize r.lines).1.length
  lastId : r'.lastId = block.last
  blocksize : r'.blocksize = r.blocksize
  found_iff : found = true ↔ (cut r.blocksize r.lines).1 ≠ [] ∨ r.Unended
  fail_iff : r'.is.fail = true ↔
    r.is.fail = true ∨ (cut r.blocksize r.lines).2 = [] ∧ r.lines.getLast? = some []

theorem cut_nil (n : ℕ) : cut n [] = ([], []) := by
  cases n <;> rfl

theorem lines_of_fail {r : Root} (h : r.is.fail = true) : r.lines = [] := by
  rw [lines, Stream.good, h]
  simp

/-- `read` cuts the next lines. -/
theorem read_eq (r : Root) (hb : 1 ≤ r.blocksize) : Reads r r.read.2.2 r.read.1 r.read.2.1 := by
  rw [read]
  by_cases hfail : r.is.fail = true
  · have hnil : r.lines = [] := lines_of_fail hfail
    rw [if_pos hfail]
    constructor <;> simp [hnil, cut_nil, hfail, unlines, Unended]
    · exact hnil
  · rw [if_neg hfail]
    have hfail' : r.is.fail = false := by simpa using hfail
    by_cases hnil : r.lines = []
    · -- The loop stops at once.
      obtain ⟨n, hn⟩ : ∃ n, r.blocksize = n + 1 := ⟨r.blocksize - 1, by omega⟩
      have hloop : readLoop r.blocksize { r with firstId := r.lastId } [] =
          (true, [], { r with firstId := r.lastId }) := by
        rw [hn, readLoop, if_neg fun h => r.good_iff.mp h hnil]
      dsimp only
      rw [hloop]
      constructor <;> simp [hnil, cut_nil, hfail', unlines, Unended]
      exact hnil
    · obtain ⟨h1, h2, h3, h4, h5, h6, h7⟩ :=
        readLoop_eq r.blocksize { r with firstId := r.lastId } [] hfail' (.inr ⟨hb, hnil⟩)
      have hlines : ({ r with firstId := r.lastId } : Root).lines = r.lines := rfl
      rw [hlines] at h2 h3 h4 h7
      rw [List.nil_append] at h2
      refine ⟨h3, h2, h5, h4, rfl, h6, ?_, ?_⟩
      · dsimp only
        rw [h1, h2]
        simp [unlines_eq_nil, Unended, hnil]
      · dsimp only
        rw [h7]
        simp [hfail']

end Root

/-! ## The blocks of an input -/

/-- The lines of the blocks that successive cuts give; one is empty where a blank line is met first.
The fuel bounds their number. -/
def blocks (n : ℕ) : ℕ → List Text → List (List Text)
  | 0, _ => []
  | _ + 1, [] => []
  | fuel + 1, l :: ls => (cut n (l :: ls)).1 :: blocks n fuel (cut n (l :: ls)).2

/-- The blocks of all the lines. -/
def allBlocks (n : ℕ) (ls : List Text) : List (List Text) := blocks n ls.length ls

/-- What follows the blocks of the first round: one for each worker, up to an empty one. -/
def afterFirstRound : ℕ → List (List Text) → List (List Text)
  | 0, bs => bs
  | _ + 1, [] => []
  | workers + 1, b :: bs => if b = [] then bs else afterFirstRound workers bs

/-- The first empty block comes after all the others. -/
def Exhausting (bs : List (List Text)) : Prop := ∀ b ∈ bs.dropWhile (· ≠ []), b = []

/-- An input that is read to its end: it ends with a newline and has a line right after its header,
and no blank line makes a read come back empty before the end, except for the read that ends the first
round. -/
def Readable (workers blocksize : ℕ) (text : Text) : Prop :=
  endsWithNewline text ∧ (cut blocksize (pieces text).tail).1 ≠ [] ∧
    Exhausting (afterFirstRound workers (allBlocks blocksize (pieces text).tail))

@[simp] theorem allBlocks_nil (n : ℕ) : allBlocks n [] = [] := rfl

instance (bs : List (List Text)) : Decidable (Exhausting bs) :=
  inferInstanceAs (Decidable (∀ b ∈ bs.dropWhile (· ≠ []), b = []))

instance (workers blocksize : ℕ) (text : Text) : Decidable (Readable workers blocksize text) :=
  inferInstanceAs (Decidable (_ ∧ _ ∧ _))

/-- Enough fuel gives all the blocks. -/
theorem blocks_eq {n : ℕ} (hn : 1 ≤ n) (fuel : ℕ) (ls : List Text) (hfuel : ls.length ≤ fuel) :
    blocks n fuel ls = allBlocks n ls := by
  suffices h : ∀ k (ls : List Text), ls.length ≤ k → ∀ fuel fuel', ls.length ≤ fuel →
      ls.length ≤ fuel' → blocks n fuel ls = blocks n fuel' ls from
    h ls.length ls le_rfl fuel ls.length hfuel le_rfl
  intro k
  induction k with
  | zero =>
    intro ls hk fuel fuel' _ _
    obtain rfl := List.eq_nil_of_length_eq_zero (Nat.le_zero.mp hk)
    cases fuel <;> cases fuel' <;> rfl
  | succ k ih =>
    intro ls hk fuel fuel' hfuel hfuel'
    cases ls with
    | nil => cases fuel <;> cases fuel' <;> rfl
    | cons l ls =>
      obtain ⟨fuel, rfl⟩ : ∃ m, fuel = m + 1 := ⟨fuel - 1, by simp at hfuel; omega⟩
      obtain ⟨fuel', rfl⟩ : ∃ m, fuel' = m + 1 := ⟨fuel' - 1, by simp at hfuel'; omega⟩
      have hlt := cut_lt hn (List.cons_ne_nil l ls)
      rw [blocks, blocks, ih _ (by omega) fuel fuel' (by omega) (by omega)]

theorem allBlocks_eq {n : ℕ} (hn : 1 ≤ n) {ls : List Text} (hls : ls ≠ []) :
    allBlocks n ls = (cut n ls).1 :: allBlocks n (cut n ls).2 := by
  obtain ⟨l, ls, rfl⟩ := List.exists_cons_of_ne_nil hls
  have hlt := cut_lt hn (List.cons_ne_nil l ls)
  rw [allBlocks, List.length_cons, blocks, blocks_eq hn _ _ (by simp at hlt; omega)]

/-- The blocks hold the lines that are not empty. -/
theorem allBlocks_flatten {n : ℕ} (hn : 1 ≤ n) (ls : List Text) :
    (allBlocks n ls).flatten = ls.filter (· ≠ []) := by
  induction hlen : ls.length using Nat.strong_induction_on generalizing ls with
  | _ k ih =>
    subst hlen
    by_cases hls : ls = []
    · subst hls
      rfl
    · rw [allBlocks_eq hn hls, List.flatten_cons, ih _ (cut_lt hn hls) _ rfl, cut_filter]

/-- All the blocks are empty exactly when all the lines are. -/
theorem allBlocks_eq_nil_iff {n : ℕ} (hn : 1 ≤ n) (ls : List Text) :
    (∀ b ∈ allBlocks n ls, b = []) ↔ ls.filter (· ≠ []) = [] := by
  rw [← allBlocks_flatten hn ls, List.flatten_eq_nil_iff]

namespace Root

/-- From here the stream comes to its end by failing, and the blocks to come are as `P` says. -/
def Ends (P : List (List Text) → Prop) (r : Root) : Prop :=
  r.is.fail = true ∨ r.lines.getLast? = some [] ∧ P (allBlocks r.blocksize r.lines)

/-- Where a read leads, for a stream that was good before it. -/
theorem Reads.ends_iff {P : List (List Text) → Prop} (hP : P []) {r r' : Root} {found : Bool}
    {block : Block} (h : Reads r r' found block) (hr : r.lines ≠ []) :
    Ends P r' ↔ r.lines.getLast? = some [] ∧ P (allBlocks r.blocksize (cut r.blocksize r.lines).2) := by
  have hfail : ¬ r.is.fail = true := fun hf => hr (lines_of_fail hf)
  rw [Ends, h.fail_iff, h.lines, h.blocksize]
  by_cases hnil : (cut r.blocksize r.lines).2 = []
  · rw [hnil]
    simpa [hfail] using fun _ => hP
  · rw [cut_getLast? _ hnil]
    simp [hfail, hnil]

/-- A read of the steady state: from an exhausting input, it finds a block and leaves such an input,
or finds none and leaves no line. -/
theorem Reads.exhausting {r r' : Root} {found : Bool} {block : Block} (h : Reads r r' found block)
    (hb : 1 ≤ r.blocksize) : Ends Exhausting r ↔
      if found then block.text ≠ [] ∧ Ends Exhausting r' else r'.lines.filter (· ≠ []) = [] := by
  have hexh : Exhausting [] := nofun
  by_cases hr : r.lines = []
  · have hfound := h.found_iff
    have hfail := h.fail_iff
    have htext := h.text
    have hlines := h.lines
    rw [hr, cut_nil] at hfound hfail htext hlines
    by_cases hf : r.is.fail = true
    · have : found = false := by
        rw [← Bool.not_eq_true, hfound]
        simp [Unended, hf]
      simp [this, hlines, Ends, hf]
    · have : found = true := hfound.mpr (.inr ⟨by simpa using hf, hr⟩)
      simp [this, htext, unlines, Ends, hf, hr]
  · have hU : ¬ r.Unended := fun hU => hr hU.2
    have hf : ¬ r.is.fail = true := fun hf => hr (lines_of_fail hf)
    have hfound : found = true ↔ (cut r.blocksize r.lines).1 ≠ [] := by simpa [hU] using h.found_iff
    rw [Ends, allBlocks_eq hb hr, h.ends_iff hexh hr, h.text, h.lines]
    by_cases hc : (cut r.blocksize r.lines).1 = []
    · have : found = false := by simpa [hc] using hfound
      have hall : Exhausting ([] :: allBlocks r.blocksize (cut r.blocksize r.lines).2) ↔
          ∀ b ∈ allBlocks r.blocksize (cut r.blocksize r.lines).2, b = [] := by
        simp [Exhausting]
      rw [this, hc, hall, allBlocks_eq_nil_iff hb]
      simp only [hf, false_or, Bool.false_eq_true, if_false]
      refine and_iff_right_of_imp fun hnil => ?_
      -- The last line is the blank one, or one of those left, which are all empty.
      have hall : ∀ l ∈ r.lines, l = [] := by
        have := cut_filter r.blocksize r.lines
        rw [hc, hnil] at this
        simpa using this.symm
      rw [List.getLast?_eq_some_getLast hr, hall _ (List.getLast_mem hr)]
    · have : found = true := hfound.mpr hc
      simp [this, hf, unlines_eq_nil, hc, Exhausting]

/-- A read of the first round, with `workers + 1` workers to serve. -/
theorem Reads.firstRound {r r' : Root} {found : Bool} {block : Block} (h : Reads r r' found block)
    (hb : 1 ≤ r.blocksize) (workers : ℕ) :
    Ends (fun bs => Exhausting (afterFirstRound (workers + 1) bs)) r ↔
      if found then Ends (fun bs => Exhausting (afterFirstRound workers bs)) r'
      else Ends Exhausting r' := by
  have hexh : Exhausting [] := nofun
  have hexh' : Exhausting (afterFirstRound workers []) := by cases workers <;> exact nofun
  by_cases hr : r.lines = []
  · have hfound := h.found_iff
    have hfail := h.fail_iff
    have hlines := h.lines
    rw [hr, cut_nil] at hfound hfail hlines
    by_cases hf : r.is.fail = true
    · have : found = false := by
        rw [← Bool.not_eq_true, hfound]
        simp [Unended, hf]
      simp [this, Ends, hf, hfail]
    · have : found = true := hfound.mpr (.inr ⟨by simpa using hf, hr⟩)
      simp [this, Ends, hf, hr, hlines, hfail]
  · have hU : ¬ r.Unended := fun hU => hr hU.2
    have hf : ¬ r.is.fail = true := fun hf => hr (lines_of_fail hf)
    have hfound : found = true ↔ (cut r.blocksize r.lines).1 ≠ [] := by simpa [hU] using h.found_iff
    rw [Ends, allBlocks_eq hb hr, h.ends_iff hexh hr, h.ends_iff hexh' hr, afterFirstRound]
    by_cases hc : (cut r.blocksize r.lines).1 = []
    · have : found = false := by simpa [hc] using hfound
      simp [this, hc, hf]
    · have : found = true := hfound.mpr hc
      simp [this, hc, hf]

end Root

end Vle.Cvle
