import Vle.Lib.Except

/-!
# Shell quoting

`utils::details::ShellUtils`: a command line is cut into tokens, which keep their quotes and their
backslashes, and the tokens are unquoted. A string is a list of characters, which stand for its bytes.
The character at the end of a string is read as the null character.

`gShellQuote` puts a string in single quotes. `parse_quoted` says that the tokenizer and the unquoter
undo it.
-/

namespace Vle.Utils.ShellUtils

open Lib

/-! ## Unquoting -/

/-- The texts of the exceptions. -/
def unmatched (retval : List Char) : String :=
  "Unmatched quotation mark in command line or other shell-quoted text: " ++ String.ofList retval

def endedAfterBackslash : String := "Text ended just after a '\\' character."

def endedBeforeQuote : String := "Text ended before matching quote was found"

def textWasEmpty : String := "Text was empty (or contained only whitespace)"

/-- The loop of `unquote_string_inplace` for a double quote. A backslash is dropped before the
characters that it escapes. -/
def unquoteDouble (retval : List Char) : List Char → Except String (List Char × List Char)
  | [] => .error (unmatched retval)
  | c :: it =>
    if c = '"' then .ok (retval, it)
    else if c = '\\' then
      match it with
      | [] => .error (unmatched (retval ++ ['\\']))
      | d :: it' =>
        if d ∈ ['"', '\\', '`', '$', '\n'] then unquoteDouble (retval ++ [d]) it'
        else unquoteDouble (retval ++ ['\\']) (d :: it')
    else unquoteDouble (retval ++ [c]) it

/-- The loop for a single quote. -/
def unquoteSingle (retval : List Char) : List Char → Except String (List Char × List Char)
  | [] => .error (unmatched retval)
  | c :: it => if c = '\'' then .ok (retval, it) else unquoteSingle (retval ++ [c]) it

/-- `unquote_string_inplace`: the text in quotes, and what comes after the closing one. -/
def unquoteStringInplace : List Char → Except String (List Char × List Char)
  | [] => .error "Quoted text doesn't begin with a quotation mark"
  | quote_char :: it =>
    if quote_char = '"' then unquoteDouble [] it
    else if quote_char = '\'' then unquoteSingle [] it
    else .error "Quoted text doesn't begin with a quotation mark"

/-- The loop of `g_shell_unquote` over the characters that are not in quotes. -/
def unquoted (retval : List Char) : List Char → List Char × List Char
  | [] => (retval, [])
  | c :: it =>
    if c = '"' ∨ c = '\'' then (retval, c :: it)
    else if c = '\\' then
      match it with
      | [] => (retval, [])
      | d :: it' => if d = '\n' then unquoted retval it' else unquoted (retval ++ [d]) it'
    else unquoted (retval ++ [c]) it

/-- What is left is less than what there was. -/
theorem length_unquoteDouble {retval l : List Char} {r : List Char × List Char}
    (h : unquoteDouble retval l = .ok r) : r.2.length < l.length := by
  fun_induction unquoteDouble retval l with
  | case1 => cases h
  | case2 => cases h; exact Nat.lt_succ_self _
  | case3 => cases h
  | case4 _ _ _ _ _ ih => exact (ih h).trans (by simp)
  | case5 _ _ _ _ _ ih => exact (ih h).trans (by simp)
  | case6 _ _ _ _ _ ih => exact (ih h).trans (by simp)

theorem length_unquoteSingle {retval l : List Char} {r : List Char × List Char}
    (h : unquoteSingle retval l = .ok r) : r.2.length < l.length := by
  fun_induction unquoteSingle retval l with
  | case1 => cases h
  | case2 => cases h; exact Nat.lt_succ_self _
  | case3 _ _ _ _ ih => exact (ih h).trans (by simp)

/-- What is in quotes is not empty with its quotes. -/
theorem length_unquoteStringInplace {l : List Char} {r : List Char × List Char}
    (h : unquoteStringInplace l = .ok r) : r.2.length < l.length := by
  cases l with
  | nil => cases h
  | cons c it =>
    simp only [unquoteStringInplace] at h
    split_ifs at h
    · exact (length_unquoteDouble h).trans (Nat.lt_succ_self _)
    · exact (length_unquoteSingle h).trans (Nat.lt_succ_self _)

theorem length_unquoted (retval l : List Char) : (unquoted retval l).2.length ≤ l.length := by
  fun_induction unquoted retval l with
  | case1 => exact le_rfl
  | case2 => exact le_rfl
  | case3 => exact Nat.zero_le _
  | case4 _ _ _ ih => exact ih.trans (Nat.le_add_right _ 2)
  | case5 _ _ _ _ _ ih => exact ih.trans (Nat.le_add_right _ 2)
  | case6 _ _ _ _ _ ih => exact ih.trans (Nat.le_succ _)

/-- The loop of `g_shell_unquote`. -/
def unquoteFrom (retval start : List Char) : Except String (List Char) :=
  if start = [] then .ok retval
  else
    let p := unquoted retval start
    if p.2 = [] then .ok p.1
    else
      match h : unquoteStringInplace p.2 with
      | .error e => .error e
      | .ok res =>
        have := (length_unquoteStringInplace h).trans_le (length_unquoted retval start)
        unquoteFrom (p.1 ++ res.1) res.2
termination_by start.length

/-- A round of the loop. -/
theorem unquoteFrom_eq (retval : List Char) {start : List Char} (h : start ≠ []) :
    unquoteFrom retval start =
      if (unquoted retval start).2 = [] then .ok (unquoted retval start).1
      else unquoteStringInplace (unquoted retval start).2 >>= fun res =>
        unquoteFrom ((unquoted retval start).1 ++ res.1) res.2 := by
  rw [unquoteFrom, if_neg h]
  simp only
  split_ifs
  · rfl
  · split
    · rename_i hquoted
      rw [hquoted, Except.error_bind]
    · rename_i hquoted
      rw [hquoted, Except.ok_bind]

/-- `g_shell_unquote`. -/
def gShellUnquote (quoted_string : List Char) : Except String (List Char) :=
  unquoteFrom [] quoted_string

/-! ## Quoting -/

/-- A character in single quotes: a quote is put between them. -/
def quoteChar (c : Char) : List Char := if c = '\'' then ['\'', '\\', '\'', '\''] else [c]

/-- `g_shell_quote`. -/
def gShellQuote (unquoted_string : List Char) : List Char :=
  '\'' :: unquoted_string.flatMap quoteChar ++ ['\'']

/-- What is in single quotes up to a quote that is not quoted. -/
theorem unquoteSingle_append {t : List Char} (ht : '\'' ∉ t) (retval rest : List Char) :
    unquoteSingle retval (t ++ '\'' :: rest) = .ok (retval ++ t, rest) := by
  induction t generalizing retval with
  | nil => rw [List.nil_append, unquoteSingle, if_pos rfl, List.append_nil]
  | cons c t ih =>
    rw [List.mem_cons, not_or] at ht
    rw [List.cons_append, unquoteSingle, if_neg (Ne.symm ht.1), ih ht.2, List.append_assoc]
    rfl

/-- The unquoter goes on after a text in single quotes. -/
theorem unquoteFrom_single {t : List Char} (ht : '\'' ∉ t) (retval rest : List Char) :
    unquoteFrom retval ('\'' :: t ++ '\'' :: rest) = unquoteFrom (retval ++ t) rest := by
  have hquoted : unquoteStringInplace ('\'' :: (t ++ '\'' :: rest)) = .ok (t, rest) := by
    rw [unquoteStringInplace, if_neg (by decide), if_pos rfl]
    exact unquoteSingle_append ht [] rest
  have hplain : unquoted retval ('\'' :: (t ++ '\'' :: rest)) =
      (retval, '\'' :: (t ++ '\'' :: rest)) := by
    unfold unquoted
    exact if_pos (.inr rfl)
  rw [List.cons_append, unquoteFrom_eq _ (List.cons_ne_nil _ _), hplain,
    if_neg (List.cons_ne_nil _ _), hquoted, Except.ok_bind]

/-- The unquoter goes on after an escaped quote that is before another one. -/
theorem unquoteFrom_escaped (retval rest : List Char) :
    unquoteFrom retval ('\\' :: '\'' :: '\'' :: rest) =
      unquoteFrom (retval ++ ['\'']) ('\'' :: rest) := by
  have hplain : unquoted retval ('\\' :: '\'' :: '\'' :: rest) =
      unquoted (retval ++ ['\'']) ('\'' :: rest) := by
    rw [unquoted, if_neg (by decide), if_pos rfl]
    exact if_neg (by decide)
  rw [unquoteFrom_eq _ (List.cons_ne_nil _ _), unquoteFrom_eq _ (List.cons_ne_nil _ _), hplain]

/-- Unquoting undoes quoting. -/
theorem unquote_quote (s : List Char) : gShellUnquote (gShellQuote s) = .ok s := by
  -- `t` is the text in the quotes that are open
  have hopen : ∀ (s t retval : List Char), '\'' ∉ t →
      unquoteFrom retval ('\'' :: t ++ (s.flatMap quoteChar ++ ['\''])) = .ok (retval ++ t ++ s) := by
    intro s
    induction s with
    | nil =>
      intro t retval ht
      rw [List.flatMap_nil, List.nil_append, unquoteFrom_single ht, unquoteFrom, if_pos rfl,
        List.append_nil]
    | cons c s ih =>
      intro t retval ht
      rw [List.flatMap_cons, quoteChar]
      by_cases hc : c = '\''
      · subst hc
        rw [if_pos rfl]
        have hstep := (unquoteFrom_single ht retval
          ('\\' :: '\'' :: '\'' :: (s.flatMap quoteChar ++ ['\'']))).trans
          (unquoteFrom_escaped _ _)
        have hih := ih [] (retval ++ t ++ ['\'']) List.not_mem_nil
        rw [List.append_nil, List.append_assoc _ ['\''] s] at hih
        exact hstep.trans hih
      · rw [if_neg hc]
        have hih := ih (t ++ [c]) retval fun h => by
          rcases List.mem_append.mp h with h | h
          · exact ht h
          · exact hc (List.mem_singleton.mp h).symm
        simpa only [List.append_assoc, List.cons_append, List.nil_append] using hih
  exact hopen s [] [] List.not_mem_nil

/-! ## Tokens -/

/-- The variables of `tokenize_command_line`: `previous` is the character before the one to be read, and
a comment that is read is `discarding`. -/
structure Tokenizer where
  retval : List (List Char)
  current_quote : Char
  current_token : List Char
  current_token_exist : Bool
  quoted : Bool
  previous : Option Char
  discarding : Bool
  deriving DecidableEq, Repr

namespace Tokenizer

/-- A token ends. -/
def push (t : Tokenizer) : Tokenizer :=
  { t with retval := t.retval ++ [t.current_token], current_token := [], current_token_exist := false }

/-- A part of a token. -/
def append (t : Tokenizer) (s : List Char) : Tokenizer :=
  { t with current_token := t.current_token ++ s, current_token_exist := true }

/-- What a character that is not in quotes does. -/
def plain (t : Tokenizer) (c : Char) : Tokenizer :=
  if c = '\n' then t.push
  else if c = ' ' ∨ c = '\t' then if t.current_token ≠ [] then t.push else t
  else if c = '\'' ∨ c = '"' then { t.append [c] with current_quote := c }
  else if c = '\\' then { t with current_quote := c }
  else if c = '#' ∧ (t.previous = none ∨ t.previous ∈ [some ' ', some '\n', some '\x00']) then
    { t with current_quote := c }
  else t.append [c]

/-- What a character does outside of comments. The backslashes before a character are counted. -/
def step (t : Tokenizer) (c : Char) : Tokenizer :=
  let t :=
    if t.current_quote = '\\' then
      { (if c = '\n' then t else t.append ['\\', c]) with current_quote := '\x00' }
    else if t.current_quote ≠ '\x00' then
      if c = t.current_quote ∧ ¬ (t.current_quote = '"' ∧ t.quoted = true) then
        { t.append [c] with current_quote := '\x00' }
      else { t with current_token := t.current_token ++ [c] }
    else t.plain c
  { t with quoted := if c = '\\' then !t.quoted else false, previous := some c }

/-- The loop of `tokenize_command_line`. A comment goes to the end of its line, or to the null character
at the end of the string. -/
def run (t : Tokenizer) : List Char → Tokenizer
  | [] => if t.discarding then { t with current_quote := '\x00' } else t
  | c :: p =>
    if t.current_quote = '#' then
      if c = '\x00' then { t with current_quote := '\x00' }
      else if c = '\n' then
        run { t with
          current_quote := '\x00', quoted := false, previous := some c, discarding := false } p
      else run { t with discarding := true } p
    else run (t.step c) p

end Tokenizer

/-- `tokenize_command_line`. -/
def tokenizeCommandLine (retval : List (List Char)) (cmd : List Char) :
    Except String (List (List Char)) :=
  let t := Tokenizer.run ⟨retval, '\x00', [], false, false, none, false⟩ cmd
  let retval := if t.current_token_exist then t.retval ++ [t.current_token] else t.retval
  if t.current_quote = '\\' then .error endedAfterBackslash
  else if t.current_quote ≠ '\x00' then .error endedBeforeQuote
  else if retval = [] then .error textWasEmpty
  else .ok retval

/-- `g_shell_parse_argv`, with what it returns in `argcp` and `argvp`. -/
def gShellParseArgv (cmd : List Char) (argcp : ℕ) (argvp : List (List Char)) :
    Except String (Bool × ℕ × List (List Char)) := do
  let tokens ← tokenizeCommandLine [] cmd
  if tokens = [] then return (false, argcp, argvp)
  else
    let argvp ← tokens.mapM gShellUnquote
    return (true, tokens.length, argvp)

namespace Tokenizer

/-- Nothing is open: neither quotes, nor an escape, nor a comment. -/
structure Idle (t : Tokenizer) : Prop where
  current_quote : t.current_quote = '\x00'
  discarding : t.discarding = false

/-- A single quote that is open. -/
structure Open (t : Tokenizer) : Prop where
  current_quote : t.current_quote = '\''
  discarding : t.discarding = false

/-- The tokenizer with more in its token. -/
structure Appended (t : Tokenizer) (s : List Char) (t' : Tokenizer) : Prop where
  retval : t'.retval = t.retval
  current_token : t'.current_token = t.current_token ++ s

theorem run_cons {t : Tokenizer} (h : t.current_quote ≠ '#') (c : Char) (p : List Char) :
    t.run (c :: p) = (t.step c).run p := by
  rw [run, if_neg h]

/-- A quote opens. -/
theorem step_open {t : Tokenizer} (h : t.Idle) : (t.step '\'').Open ∧ t.Appended ['\''] (t.step '\'') := by
  have hstep : t.step '\'' = { t.append ['\''] with
      current_quote := '\'', quoted := false, previous := some '\'' } := by
    simp [step, h.current_quote, plain]
  rw [hstep]
  exact ⟨⟨rfl, h.discarding⟩, rfl, rfl⟩

/-- A quote closes. -/
theorem step_close {t : Tokenizer} (h : t.Open) : (t.step '\'').Idle ∧
    t.Appended ['\''] (t.step '\'') ∧ (t.step '\'').current_token_exist = true := by
  have hstep : t.step '\'' = { t.append ['\''] with
      current_quote := '\x00', quoted := false, previous := some '\'' } := by
    simp [step, h.current_quote]
  rw [hstep]
  exact ⟨⟨rfl, h.discarding⟩, ⟨rfl, rfl⟩, rfl⟩

/-- A character in single quotes. -/
theorem step_quoted {t : Tokenizer} (h : t.Open) {c : Char} (hc : c ≠ '\'') :
    (t.step c).Open ∧ t.Appended [c] (t.step c) := by
  have hstep : t.step c = { t with
      current_token := t.current_token ++ [c]
      quoted := if c = '\\' then !t.quoted else false
      previous := some c } := by
    simp [step, h.current_quote, hc]
  rw [hstep]
  exact ⟨⟨h.current_quote, h.discarding⟩, rfl, rfl⟩

/-- A quote that is escaped. -/
theorem step_escaped {t : Tokenizer} (h : t.Idle) : ((t.step '\\').step '\'').Idle ∧
    t.Appended ['\\', '\''] ((t.step '\\').step '\'') ∧ (t.step '\\').current_quote ≠ '#' := by
  have hstep : t.step '\\' = { t with
      current_quote := '\\', quoted := !t.quoted, previous := some '\\' } := by
    simp [step, h.current_quote, plain]
  have hstep' : (t.step '\\').step '\'' = { t.append ['\\', '\''] with
      current_quote := '\x00', quoted := false, previous := some '\'' } := by
    rw [hstep]
    simp [step, append]
  rw [hstep', hstep]
  exact ⟨⟨rfl, h.discarding⟩, ⟨rfl, rfl⟩, show '\\' ≠ '#' by decide⟩

theorem Appended.trans {t t' t'' : Tokenizer} {s s' : List Char} (h : t.Appended s t')
    (h' : t'.Appended s' t'') : t.Appended (s ++ s') t'' :=
  ⟨h'.retval.trans h.retval, by rw [h'.current_token, h.current_token, List.append_assoc]⟩

theorem Idle.ne {t : Tokenizer} (h : t.Idle) : t.current_quote ≠ '#' := by
  rw [h.current_quote]
  decide

theorem Open.ne {t : Tokenizer} (h : t.Open) : t.current_quote ≠ '#' := by
  rw [h.current_quote]
  decide

/-- The rest of a quoted string is appended to the token, and ends with nothing open. -/
theorem run_rest (s : List Char) {t : Tokenizer} (h : t.Open) (rest : List Char) :
    ∃ t', t.run (s.flatMap quoteChar ++ '\'' :: rest) = t'.run rest ∧ t'.Idle ∧
      t.Appended (s.flatMap quoteChar ++ ['\'']) t' ∧ t'.current_token_exist = true := by
  induction s generalizing t with
  | nil =>
    obtain ⟨hidle, happended, hexist⟩ := step_close h
    exact ⟨t.step '\'', run_cons h.ne _ _, hidle, happended, hexist⟩
  | cons c s ih =>
    rw [List.flatMap_cons, quoteChar]
    by_cases hc : c = '\''
    · subst hc
      -- the quote closes, an escaped one comes, and a quote opens again
      obtain ⟨hidle₁, happended₁, -⟩ := step_close h
      obtain ⟨hidle₂, happended₂, hne⟩ := step_escaped hidle₁
      obtain ⟨hopen₃, happended₃⟩ := step_open hidle₂
      obtain ⟨t', hrun, hidle, happended, hexist⟩ := ih hopen₃
      refine ⟨t', ?_, hidle, ?_, hexist⟩
      · rw [if_pos rfl, List.append_assoc, List.cons_append, run_cons h.ne, List.cons_append,
          run_cons hidle₁.ne, List.cons_append, run_cons hne, List.cons_append, run_cons hidle₂.ne,
          List.nil_append, hrun]
      · exact ((happended₁.trans happended₂).trans happended₃).trans happended
    · obtain ⟨hopen, happended₁⟩ := step_quoted h hc
      obtain ⟨t', hrun, hidle, happended, hexist⟩ := ih hopen
      refine ⟨t', ?_, hidle, ?_, hexist⟩
      · rw [if_neg hc, List.append_assoc, List.cons_append, run_cons h.ne, List.nil_append, hrun]
      · rw [if_neg hc]
        exact happended₁.trans happended

/-- A quoted string is appended to the token. -/
theorem run_quote (s : List Char) {t : Tokenizer} (h : t.Idle) (rest : List Char) :
    ∃ t', t.run (gShellQuote s ++ rest) = t'.run rest ∧ t'.Idle ∧ t.Appended (gShellQuote s) t' ∧
      t'.current_token_exist = true := by
  obtain ⟨hopen, happended₁⟩ := step_open h
  obtain ⟨t', hrun, hidle, happended, hexist⟩ := run_rest s hopen rest
  refine ⟨t', ?_, hidle, happended₁.trans happended, hexist⟩
  rw [gShellQuote, List.append_assoc, List.cons_append, run_cons h.ne]
  exact hrun

/-- A blank ends a token. -/
theorem step_blank {t : Tokenizer} (h : t.Idle) (ht : t.current_token ≠ []) : (t.step ' ').Idle ∧
    (t.step ' ').retval = t.retval ++ [t.current_token] ∧ (t.step ' ').current_token = [] := by
  have hstep : t.step ' ' = { t.push with quoted := false, previous := some ' ' } := by
    simp [step, h.current_quote, plain, ht]
  rw [hstep]
  exact ⟨⟨h.current_quote, h.discarding⟩, rfl, rfl⟩

/-- Quoted strings with blanks between them are tokens. -/
theorem run_quotes (s : List Char) (ss : List (List Char)) {t : Tokenizer} (h : t.Idle)
    (ht : t.current_token = []) : ∃ t', t.run (List.intercalate [' '] ((s :: ss).map gShellQuote)) = t' ∧
      t'.current_quote = '\x00' ∧ t'.current_token_exist = true ∧
      t'.retval ++ [t'.current_token] = t.retval ++ (s :: ss).map gShellQuote := by
  induction ss generalizing s t with
  | nil =>
    obtain ⟨t', hrun, hidle, happended, hexist⟩ := run_quote s h []
    have hend : t'.run [] = t' := by rw [run, hidle.discarding]; rfl
    refine ⟨t', ?_, hidle.current_quote, hexist, ?_⟩
    · rw [List.map_singleton, List.intercalate_singleton, ← hend, ← hrun, List.append_nil]
    · rw [happended.retval, happended.current_token, ht]
      rfl
  | cons s' ss ih =>
    obtain ⟨t₁, hrun₁, hidle₁, happended₁, -⟩ := run_quote s h
      (' ' :: List.intercalate [' '] ((s' :: ss).map gShellQuote))
    have htoken : t₁.current_token = gShellQuote s := by rw [happended₁.current_token, ht]; rfl
    obtain ⟨hidle₂, hretval₂, htoken₂⟩ := step_blank hidle₁ (by rw [htoken]; exact List.cons_ne_nil _ _)
    obtain ⟨t', hrun, hquote, hexist, hretval⟩ := ih s' hidle₂ htoken₂
    refine ⟨t', ?_, hquote, hexist, ?_⟩
    · rw [List.map_cons, List.map_cons, List.intercalate_cons_cons, List.append_assoc,
        List.singleton_append, ← List.map_cons, hrun₁, run_cons hidle₁.ne, hrun]
    · rw [hretval, hretval₂, happended₁.retval, htoken, List.append_assoc]
      rfl

end Tokenizer

/-- A command line of quoted strings is split into them, and unquoting undoes quoting. -/
theorem parse_quoted :
    (∀ s ss argcp argvp,
      gShellParseArgv (List.intercalate [' '] ((s :: ss).map gShellQuote)) argcp argvp =
        .ok (true, (s :: ss).length, s :: ss)) ∧
      ∀ s, gShellUnquote (gShellQuote s) = .ok s := by
  refine ⟨fun s ss argcp argvp => ?_, unquote_quote⟩
  obtain ⟨t, hrun, hquote, hexist, hretval⟩ :=
    Tokenizer.run_quotes s ss (t := ⟨[], '\x00', [], false, false, none, false⟩) ⟨rfl, rfl⟩ rfl
  have htokens : tokenizeCommandLine [] (List.intercalate [' '] ((s :: ss).map gShellQuote)) =
      .ok ((s :: ss).map gShellQuote) := by
    rw [tokenizeCommandLine, hrun]
    simp only [hquote, hexist, hretval, if_true]
    rw [if_neg (by decide), if_neg (by decide), if_neg (by simp)]
    rfl
  have hunquoted : ((s :: ss).map gShellQuote).mapM gShellUnquote = .ok (s :: ss) := by
    rw [List.mapM_map]
    have := Except.mapM_eq_ok (f := gShellUnquote ∘ gShellQuote) (g := id) (l := s :: ss)
      fun s _ => unquote_quote s
    rwa [List.map_id] at this
  rw [gShellParseArgv, htokens, Except.ok_bind, if_neg (by simp), hunquoted, Except.ok_bind,
    List.length_map]
  rfl

end Vle.Utils.ShellUtils
