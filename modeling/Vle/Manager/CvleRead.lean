import Vle.Lib.Decimal
import Vle.Lib.FileStream
import Vle.Lib.Settles
import Vle.Manager.Output

/-!
# The results of a distributed plan

`cvle_read` reads the file that the workers have written: for every simulation a line `id_i_j` and its
views, each a line `view:name`, a line of column names and rows of numbers. The loops of the source go on
while a line is empty, or while a row has the right number of words, and ask for the end of the file at
some places only.

`scan` is the same file gone through line by line. The reader comes to what `scan` gives
(`cvle_read_settles`), and to nothing when the file ends inside of a view or cannot be opened: in a
stream that has failed `std::getline` leaves its string as it was, so the same line is tested again.
What it returns is right exactly for the files of `Meets` (`cvle_read_iff`).
-/

namespace Vle.Manager.CvleFile

open Lib Lib.Except

/-- Why the reader stops without returning: an exception, or the number of turns of its loops. -/
inductive Stop where
  | thrown (fault : Fault)
  | unfinished

/-- The functions of C that the reader calls: `strtod`, with none for zero out of range, and the largest
double. -/
structure Numbers where
  strtod : String → Option ℚ
  max : ℚ

/-- The stream and the string that lines are read to. -/
structure Reader where
  outFile : FileStream
  line : String

/-- `std::stoi`. -/
def stoi (token : String) : Except Stop ℤ :=
  match decimal token.toList with
  | some n => if -2 ^ 31 ≤ n ∧ n < 2 ^ 31 then .ok n else .error (.thrown (.thrown "stoi"))
  | none => .error (.thrown (.thrown "stoi"))

/-- `stream_place = outFile.tellg(); std::getline(outFile, line);` -/
def advance (r : Reader) : Reader × Option ℕ :=
  let (stream_place, outFile) := r.outFile.tellg
  let (line, outFile) := outFile.getline r.line
  (⟨outFile, line⟩, stream_place)

/-! ## Headers -/

/-- The beginning of the readers of headers: the loop over empty lines, which stops at the end. -/
def skipLines (fuel : ℕ) (r : Reader) : Except Stop (Reader × Option ℕ) :=
  whileLoop .unfinished (fun s => s.1.line.isEmpty && !s.1.outFile.eof) (fun s => .ok (advance s.1)) fuel
    (advance r)

/-- The test of `cvle_read_IdHeader` on a line. -/
def idHeader (line : String) : Except Stop (Option (ℤ × ℤ)) := do
  match tokenize line "_" false with
  | [id, inputId, inputRepl] =>
    if id = "id" then return some (← stoi inputId, ← stoi inputRepl) else return none
  | _ => return none

/-- The test of `cvle_read_ViewHeader` on a line. -/
def viewHeader (line : String) : Except Stop (Option String) :=
  match tokenize line ":" false with
  | [view, viewName] => if view = "view" then .ok (some viewName) else .ok none
  | _ => .ok none

/-- `cvle_read_IdHeader` and `cvle_read_ViewHeader`, for the test of the line: what is in the header, or
none with the stream back at the line. -/
def readHeader {α : Type} (test : String → Except Stop (Option α)) (fuel : ℕ) (r : Reader) :
    Except Stop (Option α × Reader) := do
  if r.outFile.eof then
    return (none, r)
  let (r, stream_place) ← skipLines fuel r
  if r.line.isEmpty then
    return (none, r)
  match ← test r.line with
  | some a => return (some a, r)
  | none => return (none, { r with outFile := r.outFile.seekg stream_place })

/-- `cvle_read_IdHeader`. -/
def cvle_read_IdHeader : ℕ → Reader → Except Stop (Option (ℤ × ℤ) × Reader) := readHeader idHeader

/-- `cvle_read_ViewHeader`. -/
def cvle_read_ViewHeader : ℕ → Reader → Except Stop (Option String × Reader) := readHeader viewHeader

/-! ## Matrices -/

variable (N : Numbers)

/-- A fault as an exception. -/
def lift {α : Type} : Except Fault α → Except Stop α
  | .ok a => .ok a
  | .error fault => .error (.thrown fault)

/-- The number in a word of a row. -/
def number (c : ℕ) (token : String) : Except Stop ℚ :=
  if c = 0 ∧ token = "inf" then .ok N.max
  else
    match N.strtod token with
    | some value => .ok value
    | none => .error (.thrown (.thrown "Out of range value in cvle"))

/-- The matrix with the column names. -/
def headerMatrix (tokens : List String) : Except Stop Matrix :=
  tokens.zipIdx.foldlM (fun m x => lift (m.set x.2 0 (some (.string x.1))))
    { columns := tokens.length, rows := 1, cell := fun _ _ => none }

/-- `addRow`, and the loop over the words of the row. -/
def addRow (m : Matrix) (tokens : List String) : Except Stop Matrix :=
  tokens.zipIdx.foldlM
    (fun m x => do lift (m.set x.2 (m.rows - 1) (some (.double (← number N x.2 x.1)))))
    (m.resize m.columns (m.rows + 1))

/-- The state of the loop over the rows. -/
structure RowState where
  reader : Reader
  viewMatrix : Matrix
  stop : Bool := false

/-- One turn of the loop over the rows. -/
def readRow (s : RowState) : Except Stop RowState := do
  let (r, stream_place) := advance s.reader
  let tokens := tokenize r.line " " true
  if tokens.length ≠ s.viewMatrix.columns then
    return { s with reader := { r with outFile := r.outFile.seekg stream_place }, stop := true }
  else
    return { s with reader := r, viewMatrix := ← addRow N s.viewMatrix tokens }

/-- `cvle_read_Matrix`, whose loop over empty lines does not stop at the end. -/
def cvle_read_Matrix (fuel : ℕ) (r : Reader) : Except Stop (Matrix × Reader) := do
  let (r, _) ← whileLoop .unfinished (fun s => s.1.line.isEmpty) (fun s => .ok (advance s.1)) fuel
    (advance r)
  let viewMatrix ← headerMatrix (tokenize r.line " " true)
  let s ← whileLoop .unfinished (fun s => !s.stop) (readRow N) fuel { reader := r, viewMatrix }
  return (s.viewMatrix, s.reader)

/-! ## The file -/

/-- The turn of the loop over the columns for an output: the view is inserted if the column is its
port. -/
def insertColumn (o : ManOutput) (viewMatrix : Matrix) (inputId : ℤ) (inputSize repSize : ℕ)
    (acc : Option OutputState × Outputs) (p : ℕ) : Except Fault (Option OutputState × Outputs) := do
  if (← viewMatrix.getString p 0) = o.absolutePort then
    let (state, aggrValue) ← o.insertReplicate acc.1 (fun _ => some viewMatrix)
      (inputId % 2 ^ 32).toNat inputSize repSize
    match aggrValue with
    | some aggrValue => return (some state, { acc.2 with
        results := Function.update acc.2.results o.id (some aggrValue)
        received := acc.2.received ++ [(o.id, aggrValue)] })
    | none => return (some state, acc.2)
  else
    return acc

/-- The loop over the outputs after a view has been read. -/
def insertView (viewName : String) (viewMatrix : Matrix) (inputId : ℤ) (inputSize repSize : ℕ)
    (outputs : Outputs) : Except Fault Outputs :=
  outputs.states.foldlM (fun acc x => do
    if x.1.view = viewName then
      let (state, acc) ← (List.range viewMatrix.columns).foldlM
        (insertColumn x.1 viewMatrix inputId inputSize repSize) (x.2, acc)
      return { acc with states := acc.states ++ [(x.1, state)] }
    else
      return { acc with states := acc.states ++ [x] }) { outputs with states := [] }

/-- The size of a plan. -/
structure Size where
  inputSize : ℕ
  repSize : ℕ

/-- The state of the loop over the views. -/
structure ViewState where
  reader : Reader
  outputs : Outputs
  finishViews : Bool := false

/-- One turn of the loop over the views. -/
def readView (P : Size) (inputId : ℤ) (fuel : ℕ) (s : ViewState) : Except Stop ViewState := do
  match ← cvle_read_ViewHeader fuel s.reader with
  | (none, r) => return { s with reader := r, finishViews := true }
  | (some viewName, r) =>
    let (viewMatrix, r) ← cvle_read_Matrix N fuel r
    let outputs ← lift (insertView viewName viewMatrix inputId P.inputSize P.repSize s.outputs)
    return { s with reader := r, outputs }

/-- The state of the loop over the simulations; `reads` records the simulations that have been read. -/
structure SimuState where
  reader : Reader
  outputs : Outputs
  inputId : ℤ := -1
  inputRepl : ℤ := -1
  nbSimus : ℕ := 0
  finishIds : Bool := false
  reads : List (ℤ × ℤ) := []

/-- One turn of the loop over the simulations. -/
def readSimu (P : Size) (fuel : ℕ) (s : SimuState) : Except Stop SimuState := do
  match ← cvle_read_IdHeader fuel s.reader with
  | (none, r) => return { s with reader := r, finishIds := true }
  | (some (inputId, inputRepl), r) =>
    let v ← whileLoop .unfinished (fun v => !v.finishViews) (readView N P inputId fuel) fuel
      { reader := r, outputs := s.outputs }
    return {
      reader := v.reader
      outputs := v.outputs
      inputId
      inputRepl
      nbSimus := (s.nbSimus + 1) % 2 ^ 32
      finishIds := s.finishIds
      reads := s.reads ++ [(inputId, inputRepl)] }

/-- The state of the loop that puts the lines up to the next simulation into the message. -/
structure MessageState where
  reader : Reader
  message : String
  stop : Bool := false

/-- One turn of the loop over the lines of the message. -/
def readMessage (s : MessageState) : MessageState :=
  let (line, outFile) := s.reader.outFile.getline s.reader.line
  let isId := "id_".toList.isPrefixOf line.toList
  { reader := ⟨outFile, line⟩
    message := if isId then s.message else s.message ++ line ++ " "
    stop := isId || outFile.eof }

/-- What `cvle_read` returns: the results with the simulations that have been read, or an error. -/
inductive Outcome where
  | results (outputs : Outputs) (reads : List (ℤ × ℤ))
  | error (err : Error)

/-- `cvle_read`, called without an error. -/
def cvle_read (P : Size) (mOutputs : List ManOutput) (file : Option String) (fuel : ℕ) :
    Except Stop Outcome := do
  let s ← whileLoop .unfinished (fun s => !s.finishIds) (readSimu N P fuel) fuel
    { reader := ⟨.ofFile file, ""⟩, outputs := .start mOutputs }
  if s.nbSimus ≠ P.inputSize * P.repSize % 2 ^ 32 then
    let m ← whileLoop .unfinished (fun m => !m.stop) (fun m => .ok (readMessage m)) fuel
      { reader := s.reader
        message := s!"[Manager] Error in simu id={s.inputId}, repl={s.inputRepl} " }
    return .error ⟨-1, m.message⟩
  else
    return .results s.outputs s.reads

/-! ## The lines of the file -/

/-- What has been read of a file. -/
structure Progress where
  outputs : Outputs
  reads : List (ℤ × ℤ) := []

/-- What a line is read as: a header of a simulation, a header of a view, the column names of a view, or
a row of a view. -/
inductive Mode where
  | simu
  | view (id : ℤ × ℤ)
  | columns (id : ℤ × ℤ) (viewName : String)
  | rows (id : ℤ × ℤ) (viewName : String) (viewMatrix : Matrix)

/-- A line between the simulations; without a mode, the reading stops. -/
def simuStep (p : Progress) (line : String) : Option (Option Mode × Progress) :=
  if line = "" then some (some .simu, p)
  else (idHeader line).toOption.map fun h => (h.map .view, p)

/-- A line between the views of a simulation. -/
def viewStep (id : ℤ × ℤ) (p : Progress) (line : String) : Option (Option Mode × Progress) :=
  if line = "" then some (some (.view id), p)
  else
    (viewHeader line).toOption.bind fun
      | some viewName => some (some (.columns id viewName), p)
      | none => simuStep { p with reads := p.reads ++ [id] } line

/-- The next mode after a line. -/
def step (P : Size) : Mode → Progress → String → Option (Option Mode × Progress)
  | .simu, p, line => simuStep p line
  | .view id, p, line => viewStep id p line
  | .columns id viewName, p, line =>
    if line = "" then some (some (.columns id viewName), p)
    else (headerMatrix (tokenize line " " true)).toOption.map fun m => (some (.rows id viewName m), p)
  | .rows id viewName m, p, line =>
    if (tokenize line " " true).length ≠ m.columns then
      (insertView viewName m id.1 P.inputSize P.repSize p.outputs).toOption.bind fun outputs =>
        viewStep id { p with outputs } line
    else (addRow N m (tokenize line " " true)).toOption.map fun m => (some (.rows id viewName m), p)

/-- The file gone through line by line: nothing when there is an exception, and when it ends inside of a
view. -/
def scan (P : Size) : Mode → Progress → List String → Option Progress
  | .simu, p, [] => some p
  | .view id, p, [] => some { p with reads := p.reads ++ [id] }
  | .columns _ _, _, [] => none
  | .rows _ _ _, _, [] => none
  | mode, p, line :: lines =>
    (step N P mode p line).bind fun
      | (some mode, p) => scan P mode p lines
      | (none, p) => some p

section Scan

variable {N} {P : Size} {id : ℤ × ℤ} {p : Progress} {line viewName : String} {lines : List String}

theorem scan_cons (mode : Mode) : scan N P mode p (line :: lines) =
    (step N P mode p line).bind fun
      | (some mode, p) => scan N P mode p lines
      | (none, p) => some p := by
  cases mode <;> rfl

/-- A mode that skips empty lines does not see them. -/
theorem scan_dropWhile {mode : Mode} (h : step N P mode p "" = some (some mode, p)) :
    scan N P mode p (lines.dropWhile (· = "")) = scan N P mode p lines := by
  induction lines with
  | nil => rfl
  | cons line lines ih =>
    by_cases hline : line = ""
    · rw [List.dropWhile_cons_of_pos (by simpa using hline), ih, scan_cons, hline, h]
      rfl
    · rw [List.dropWhile_cons_of_neg (by simpa using hline)]

/-- A line that is no header of a view is one between the simulations. -/
theorem scan_view_of_none (hline : line ≠ "") (h : (viewHeader line).toOption = some none) :
    scan N P (.view id) p (line :: lines) =
      scan N P .simu { p with reads := p.reads ++ [id] } (line :: lines) := by
  rw [scan_cons, scan_cons]
  simp [step, viewStep, hline, h]

/-- A line that is no row is one between the views. -/
theorem scan_rows_of_ne {m : Matrix} (h : (tokenize line " " true).length ≠ m.columns) :
    scan N P (.rows id viewName m) p (line :: lines) =
      (insertView viewName m id.1 P.inputSize P.repSize p.outputs).toOption.bind fun outputs =>
        scan N P (.view id) { p with outputs } (line :: lines) := by
  rw [scan_cons]
  simp only [step, if_pos h, Option.bind_assoc]
  congr 1

end Scan

/-! ## Lines of a stream -/

section Advance

variable {r : Reader} {l : String} {ls : List String}

/-- The next line. -/
theorem advance_at (h : r.outFile.At (l :: ls)) :
    ∃ r', advance r = (r', some r.outFile.pos) ∧ r'.line = l ∧ r'.outFile.At ls ∧
      r'.outFile.seekg (some r.outFile.pos) = r.outFile ∧ (r'.outFile.eof = true → l ≠ "") := by
  obtain ⟨s', hs', hat, hback, heof⟩ := FileStream.getline_at r.line h
  refine ⟨⟨s', l⟩, ?_, rfl, hat, hback, heof⟩
  simp only [advance, FileStream.tellg_of_good h.1, hs']

/-- No line is left, and the stream finds the end. -/
theorem advance_end (hgood : r.outFile.good = true) (hrest : r.outFile.rest = []) :
    ∃ r', advance r = (r', some r.outFile.pos) ∧ r'.line = "" ∧ r'.outFile.eof = true ∧
      (r'.outFile.seekg (some r.outFile.pos)).Dead := by
  obtain ⟨s', hs', heof, hdead⟩ := FileStream.getline_end r.line hgood hrest
  refine ⟨⟨s', ""⟩, ?_, rfl, heof, hdead _⟩
  simp only [advance, FileStream.tellg_of_good hgood, hs']

/-- In a stream that is not good, the line stays. -/
theorem advance_of_not_good (h : r.outFile.good = false) :
    advance r = (⟨{ r.outFile with fail := true }, r.line⟩, none) := by
  have hgood : FileStream.good { r.outFile with fail := true } = false := by simp [FileStream.good]
  simp only [advance, FileStream.tellg_of_not_good h, FileStream.getline_of_not_good _ hgood]

end Advance

/-! ## The headers -/

section Header

variable {α : Type} {test : String → Except Stop (Option α)} {r : Reader} {ls : List String}

/-- The loop over empty lines ends with the first line that is not empty, or at the end. -/
theorem skipLines_spec (h : r.outFile.At ls) (heof : r.outFile.eof = false) :
    ∃ r' place, LoopSettles Stop.unfinished (fun s => s.1.line.isEmpty && !s.1.outFile.eof)
      (fun _ s => .ok (advance s.1)) (advance r) (some (r', place)) ∧
      ((ls.dropWhile (· = "") = [] ∧ r'.line = "" ∧ r'.outFile.eof = true) ∨
        ∃ l ls', ls.dropWhile (· = "") = l :: ls' ∧ l ≠ "" ∧ r'.line = l ∧ r'.outFile.At ls' ∧
          (r'.outFile.seekg place).At (l :: ls')) := by
  induction ls generalizing r with
  | nil =>
    obtain ⟨hgood, hrest⟩ := h.resolve_left (by simp [heof])
    obtain ⟨r', hr', hline, heof', -⟩ := advance_end hgood hrest
    refine ⟨r', some r.outFile.pos, ?_, .inl ⟨rfl, hline, heof'⟩⟩
    rw [hr']
    exact .done (by simp [heof'])
  | cons l ls ih =>
    obtain ⟨r', hr', rfl, hat, hback, hend⟩ := advance_at h
    by_cases hl : r'.line = ""
    · have heof' : r'.outFile.eof = false := by
        by_contra hne
        exact hend (by simpa using hne) hl
      obtain ⟨r'', place, hloop, hcases⟩ := ih hat heof'
      refine ⟨r'', place, ?_, ?_⟩
      · rw [hr']
        exact .step (by simp [hl, heof']) (.of_ok fun _ => rfl) hloop
      · rw [List.dropWhile_cons_of_pos (by simpa using hl)]
        exact hcases
    · refine ⟨r', some r.outFile.pos, ?_, .inr ⟨r'.line, ls, ?_, hl, rfl, hat, ?_⟩⟩
      · rw [hr']
        exact .done (by simp [hl])
      · rw [List.dropWhile_cons_of_neg (by simpa using hl)]
      · rw [hback]
        exact h

/-- At the end of the file there is no header. -/
theorem readHeader_end (test : String → Except Stop (Option α)) (h : r.outFile.At ls)
    (hls : ls.dropWhile (· = "") = []) :
    ∃ r', Settles (fun m => readHeader test m r) (some (none, r')) ∧ r'.outFile.At [] := by
  by_cases heof : r.outFile.eof = true
  · refine ⟨r, ?_, .inl heof⟩
    simp only [readHeader, if_pos heof]
    exact .of_ok fun _ => rfl
  · obtain ⟨r', place, hloop, hcases⟩ := skipLines_spec h (by simpa using heof)
    obtain ⟨-, hline, heof'⟩ | ⟨l, ls', hcons, -⟩ := hcases
    · refine ⟨r', ?_, .inl heof'⟩
      simp only [readHeader, if_neg heof]
      refine Settles.bind hloop.settles ?_
      simp only [hline]
      exact .of_ok fun _ => rfl
    · rw [hls] at hcons
      cases hcons

/-- The first line that is not empty is tested for a header. -/
theorem readHeader_line (test : String → Except Stop (Option α)) (h : r.outFile.At ls) {l : String}
    {ls' : List String} (hls : ls.dropWhile (· = "") = l :: ls') :
    l ≠ "" ∧
      (∀ e, test l = .error e → Settles (fun m => readHeader test m r) none) ∧
      (test l = .ok none → ∃ r', Settles (fun m => readHeader test m r) (some (none, r')) ∧
        r'.outFile.At (l :: ls')) ∧
      ∀ a, test l = .ok (some a) → ∃ r', Settles (fun m => readHeader test m r) (some (some a, r')) ∧
        r'.line = l ∧ r'.outFile.At ls' := by
  have heof : ¬ r.outFile.eof = true := by
    intro heof
    cases ls with
    | nil => cases hls
    | cons l₀ ls =>
      have hgood := h.1
      simp [FileStream.good, heof] at hgood
  obtain ⟨r', place, hloop, hcases⟩ := skipLines_spec h (by simpa using heof)
  obtain ⟨hnil, -⟩ | ⟨l', ls'', hcons, hne, hline, hat, hback⟩ := hcases
  · rw [hls] at hnil
    cases hnil
  obtain ⟨rfl, rfl⟩ := List.cons.inj (hls.symm.trans hcons)
  have hempty : ¬ l.isEmpty = true := by simpa using hne
  refine ⟨hne, fun e he => ?_, fun ht => ?_, fun a ha => ?_⟩
  · simp only [readHeader, if_neg heof]
    refine Settles.bind hloop.settles ?_
    simp only [hline, if_neg hempty, he]
    exact .of_error fun _ => rfl
  · refine ⟨{ r' with outFile := r'.outFile.seekg place }, ?_, hback⟩
    simp only [readHeader, if_neg heof]
    refine Settles.bind hloop.settles ?_
    simp only [hline, if_neg hempty, ht]
    exact .of_ok fun _ => rfl
  · refine ⟨r', ?_, hline, hat⟩
    simp only [readHeader, if_neg heof]
    refine Settles.bind hloop.settles ?_
    simp only [hline, if_neg hempty, ha]
    exact .of_ok fun _ => rfl

/-- In a stream that is dead, the loop over empty lines never ends. -/
theorem readHeader_dead (test : String → Except Stop (Option α)) (h : r.outFile.Dead)
    (hline : r.line = "") :
    Settles (fun m => readHeader test m r) none := by
  have heof : ¬ r.outFile.eof = true := by simp [h.2]
  have hloop : LoopSettles Stop.unfinished (fun s => s.1.line.isEmpty && !s.1.outFile.eof)
      (fun _ s => .ok (advance s.1)) (advance r) none := by
    refine .forever (fun s => s.1.outFile.Dead ∧ s.1.line = "") ?_ ?_ ?_
    · rintro s ⟨hdead, hs⟩
      simp [hs, hdead.2]
    · rintro m s s' ⟨hdead, hs⟩ hs'
      obtain rfl := Except.ok.inj hs'
      rw [advance_of_not_good (FileStream.not_good hdead)]
      exact ⟨⟨rfl, hdead.2⟩, hs⟩
    · rw [advance_of_not_good (FileStream.not_good h)]
      exact ⟨⟨rfl, h.2⟩, hline⟩
  simp only [readHeader, if_neg heof]
  exact Settles.bind_none _ hloop.settles

end Header

/-! ## The matrices -/

section Matrix

variable {N} {P : Size} {id : ℤ × ℤ} {p : Progress} {viewName : String} {ls : List String} {r : Reader}

theorem columns_set {m m' : Matrix} {c i : ℕ} {v : Option (Value ℚ)} (h : lift (m.set c i v) = .ok m') :
    m'.columns = m.columns := by
  unfold Matrix.set at h
  split_ifs at h
  · obtain rfl := Except.ok.inj h
    rfl
  · cases h

theorem columns_headerMatrix {tokens : List String} {m : Matrix} (h : headerMatrix tokens = .ok m) :
    m.columns = tokens.length := by
  refine foldlM_keeps (p := fun m : Matrix => m.columns = tokens.length) ?_ h rfl
  intro m x m' hm hset
  exact (columns_set hset).trans hm

theorem columns_addRow {tokens : List String} {m m' : Matrix} (h : addRow N m tokens = .ok m') :
    m'.columns = m.columns := by
  refine foldlM_keeps (p := fun m' : Matrix => m'.columns = m.columns) ?_ h rfl
  intro m₁ x m₂ hm hstep
  obtain ⟨v, -, hset⟩ := bind_eq_ok.mp hstep
  exact (columns_set hset).trans hm

/-- A turn with a row. -/
theorem readRow_row {s : RowState} {r' : Reader} {place : Option ℕ} (h : advance s.reader = (r', place))
    (hrow : (tokenize r'.line " " true).length = s.viewMatrix.columns) :
    readRow N s = addRow N s.viewMatrix (tokenize r'.line " " true) >>=
      fun m => .ok { s with reader := r', viewMatrix := m } := by
  simp only [readRow, h, hrow, ne_eq, not_true_eq_false, if_false]
  rfl

/-- A turn with another line. -/
theorem readRow_stop {s : RowState} {r' : Reader} {place : Option ℕ} (h : advance s.reader = (r', place))
    (hrow : (tokenize r'.line " " true).length ≠ s.viewMatrix.columns) :
    readRow N s = .ok { s with
      reader := { r' with outFile := r'.outFile.seekg place }
      stop := true } := by
  simp only [readRow, h, if_pos hrow]
  rfl

/-- In a stream that is not good, a line that is a row is read again and again. -/
theorem readRow_forever {s : RowState} (hgood : s.reader.outFile.good = false) (hstop : s.stop = false)
    (hline : (tokenize s.reader.line " " true).length = s.viewMatrix.columns) :
    LoopSettles .unfinished (fun s => !s.stop) (fun _ => readRow N) s none := by
  refine .forever (fun s => s.reader.outFile.good = false ∧ s.stop = false ∧
    (tokenize s.reader.line " " true).length = s.viewMatrix.columns) ?_ ?_ ⟨hgood, hstop, hline⟩
  · rintro s ⟨-, hs, -⟩
    simp [hs]
  · rintro m s s' ⟨hgood, hstop, hline⟩ hs'
    rw [readRow_row (advance_of_not_good hgood) hline] at hs'
    obtain ⟨m', hm', hs'⟩ := bind_eq_ok.mp hs'
    obtain rfl := Except.ok.inj hs'
    exact ⟨by simp [FileStream.good], hstop, hline.trans (columns_addRow hm').symm⟩

/-- The loop over the rows comes to nothing, or to a dead stream at the end of the file, when the file
has only rows left. Else it ends at the first line that is no row. -/
theorem readRows_spec {s : RowState} (hstop : s.stop = false) (h : s.reader.outFile.At ls)
    (heof : s.reader.outFile.eof = true →
      (tokenize s.reader.line " " true).length = s.viewMatrix.columns) :
    ∃ res, LoopSettles .unfinished (fun s => !s.stop) (fun _ => readRow N) s res ∧
      ((scan N P (.rows id viewName s.viewMatrix) p ls = none ∧
          ∀ s', res = some s' → s'.reader.outFile.Dead ∧ s'.reader.line = "") ∨
        ∃ s' l ls', res = some s' ∧ s'.reader.outFile.At (l :: ls') ∧ ls'.length < ls.length ∧
          (tokenize l " " true).length ≠ s'.viewMatrix.columns ∧
          scan N P (.rows id viewName s.viewMatrix) p ls =
            scan N P (.rows id viewName s'.viewMatrix) p (l :: ls')) := by
  have hcond : (!s.stop) = true := by simp [hstop]
  induction ls generalizing s with
  | nil =>
    by_cases hend : s.reader.outFile.eof = true
    · exact ⟨none, readRow_forever (by simp [FileStream.good, hend]) hstop (heof hend),
        .inl ⟨rfl, fun _ hs' => by cases hs'⟩⟩
    obtain ⟨hgood, hrest⟩ := h.resolve_left hend
    obtain ⟨r', hr', hline, heof', hdead⟩ := advance_end hgood hrest
    by_cases hrow : (tokenize r'.line " " true).length = s.viewMatrix.columns
    -- The end of the file is a row without words.
    · refine ⟨none, ?_, .inl ⟨rfl, fun _ h => by cases h⟩⟩
      have hrun := readRow_row (N := N) hr' hrow
      cases hadd : addRow N s.viewMatrix (tokenize r'.line " " true) with
      | error e => exact .step_none hcond (.of_error fun _ => by rw [hrun, hadd]; rfl)
      | ok m =>
        have hturn : readRow N s = .ok { s with reader := r', viewMatrix := m } := by
          rw [hrun, hadd]
          rfl
        refine .step hcond (.of_ok fun _ => hturn) (readRow_forever ?_ hstop ?_)
        · simp [FileStream.good, heof']
        · exact hrow.trans (columns_addRow hadd).symm
    · refine ⟨_, .step hcond (.of_ok fun _ => readRow_stop hr' hrow) (.done rfl), .inl ⟨rfl, ?_⟩⟩
      rintro s' ⟨⟩
      exact ⟨hdead, hline⟩
  | cons l ls ih =>
    obtain ⟨r', hr', rfl, hat, hback, hend⟩ := advance_at h
    by_cases hrow : (tokenize r'.line " " true).length = s.viewMatrix.columns
    · have hrun := readRow_row (N := N) hr' hrow
      cases hadd : addRow N s.viewMatrix (tokenize r'.line " " true) with
      | error e =>
        refine ⟨none, .step_none hcond (.of_error fun _ => by rw [hrun, hadd]; rfl),
          .inl ⟨?_, fun _ h => by cases h⟩⟩
        rw [scan_cons]
        simp [step, hrow, hadd, Except.toOption]
      | ok m =>
        have hscan : scan N P (.rows id viewName s.viewMatrix) p (r'.line :: ls) =
            scan N P (.rows id viewName m) p ls := by
          rw [scan_cons]
          simp [step, hrow, hadd, Except.toOption]
        obtain ⟨res, hloop, hcases⟩ := @ih { s with reader := r', viewMatrix := m } hstop hat
          (fun _ => hrow.trans (columns_addRow hadd).symm) hcond
        have hturn : readRow N s = .ok { s with reader := r', viewMatrix := m } := by
          rw [hrun, hadd]
          rfl
        refine ⟨res, .step hcond (.of_ok fun _ => hturn) hloop, ?_⟩
        rw [hscan]
        rcases hcases with hnone | ⟨s', l, ls', hres, hat', hlen, hne, hscan'⟩
        · exact .inl hnone
        · exact .inr ⟨s', l, ls', hres, hat', by rw [List.length_cons]; omega, hne, hscan'⟩
    · refine ⟨_, .step hcond (.of_ok fun _ => readRow_stop hr' hrow) (.done rfl), .inr ?_⟩
      exact ⟨_, r'.line, ls, rfl, by rw [hback]; exact h, by simp, hrow, rfl⟩

/-- The loop over empty lines in front of the column names ends with a line only. -/
theorem skipEmpty_spec (h : r.outFile.At ls) (heof : r.outFile.eof = false) :
    ∃ res, LoopSettles Stop.unfinished (fun s => s.1.line.isEmpty) (fun _ s => .ok (advance s.1))
      (advance r) res ∧
      ((ls.dropWhile (· = "") = [] ∧ res = none) ∨
        ∃ r' place l ls', res = some (r', place) ∧ ls.dropWhile (· = "") = l :: ls' ∧ l ≠ "" ∧
          r'.line = l ∧ r'.outFile.At ls') := by
  induction ls generalizing r with
  | nil =>
    obtain ⟨hgood, hrest⟩ := h.resolve_left (by simp [heof])
    obtain ⟨r', hr', hline, heof', -⟩ := advance_end hgood hrest
    refine ⟨none, ?_, .inl ⟨rfl, rfl⟩⟩
    rw [hr']
    refine .forever (fun s => s.1.outFile.good = false ∧ s.1.line = "") ?_ ?_ ?_
    · rintro s ⟨-, hs⟩
      simp [hs]
    · rintro m s s' ⟨hgood, hs⟩ hs'
      obtain rfl := Except.ok.inj hs'
      rw [advance_of_not_good hgood]
      exact ⟨by simp [FileStream.good], hs⟩
    · exact ⟨by simp [FileStream.good, heof'], hline⟩
  | cons l ls ih =>
    obtain ⟨r', hr', rfl, hat, -, hend⟩ := advance_at h
    by_cases hl : r'.line = ""
    · have heof' : r'.outFile.eof = false := by
        by_contra hne
        exact hend (by simpa using hne) hl
      obtain ⟨res, hloop, hcases⟩ := ih hat heof'
      refine ⟨res, ?_, ?_⟩
      · rw [hr']
        exact .step (by simp [hl]) (.of_ok fun _ => rfl) hloop
      · rw [List.dropWhile_cons_of_pos (by simpa using hl)]
        exact hcases
    · refine ⟨_, ?_, .inr ⟨r', some r.outFile.pos, r'.line, ls, rfl, ?_, hl, rfl, hat⟩⟩
      · rw [hr']
        exact .done (by simp [hl])
      · rw [List.dropWhile_cons_of_neg (by simpa using hl)]

/-- A matrix is read up to the first line that is no row; without one, the reading comes to nothing, or
to a dead stream. -/
theorem cvle_read_Matrix_spec (h : r.outFile.At ls) (hline : r.line ≠ "") :
    ∃ res, Settles (fun m => cvle_read_Matrix N m r) res ∧
      ((scan N P (.columns id viewName) p ls = none ∧
          ∀ m r', res = some (m, r') → r'.outFile.Dead ∧ r'.line = "") ∨
        ∃ m r' l ls', res = some (m, r') ∧ r'.outFile.At (l :: ls') ∧ ls'.length < ls.length ∧
          scan N P (.columns id viewName) p ls =
            (insertView viewName m id.1 P.inputSize P.repSize p.outputs).toOption.bind fun outputs =>
              scan N P (.view id) { p with outputs } (l :: ls')) := by
  by_cases heof : r.outFile.eof = true
  -- The header of the view is the last line, and it is read as column names and as rows.
  · have hls : ls = [] := by
      cases ls with
      | nil => rfl
      | cons l ls =>
        have hgood := h.1
        simp [FileStream.good, heof] at hgood
    subst hls
    have hgood : r.outFile.good = false := by simp [FileStream.good, heof]
    refine ⟨none, ?_, .inl ⟨rfl, fun _ _ h => by cases h⟩⟩
    have hskip : LoopSettles Stop.unfinished (fun s => s.1.line.isEmpty) (fun _ s => .ok (advance s.1))
        (advance r) (some (advance r)) := .done (by simp [advance_of_not_good hgood, hline])
    refine Settles.bind hskip.settles ?_
    simp only [advance_of_not_good hgood]
    cases hm : headerMatrix (tokenize r.line " " true) with
    | error e => exact .of_error fun _ => rfl
    | ok m =>
      refine Settles.bind (.of_ok fun _ => rfl) (Settles.bind_none _ (LoopSettles.settles ?_))
      refine readRow_forever ?_ rfl (columns_headerMatrix hm).symm
      simp [FileStream.good]
  obtain ⟨res, hskip, hcases⟩ := skipEmpty_spec h (by simpa using heof)
  have hscan : scan N P (.columns id viewName) p (ls.dropWhile (· = "")) =
      scan N P (.columns id viewName) p ls := scan_dropWhile rfl
  rcases hcases with ⟨hnil, rfl⟩ | ⟨r', place, l, ls', rfl, hcons, hne, hl, hat⟩
  · rw [hnil] at hscan
    exact ⟨none, Settles.bind_none _ hskip.settles, .inl ⟨hscan.symm, fun _ _ h => by cases h⟩⟩
  have hlen : ls'.length < ls.length := by
    have := List.length_dropWhile_le (· = "") ls
    rw [hcons, List.length_cons] at this
    omega
  rw [hcons, scan_cons] at hscan
  cases hm : headerMatrix (tokenize l " " true) with
  | error e =>
    refine ⟨none, Settles.bind hskip.settles ?_, .inl ⟨?_, fun _ _ h => by cases h⟩⟩
    · simp only [hl, hm]
      exact .of_error fun _ => rfl
    · rw [← hscan]
      simp [step, hne, hm, Except.toOption]
  | ok m =>
    replace hscan : scan N P (.rows id viewName m) p ls' = scan N P (.columns id viewName) p ls := by
      rw [← hscan]
      simp [step, hne, hm, Except.toOption]
    obtain ⟨res, hrows, hcases⟩ := @readRows_spec N P id p viewName ls' { reader := r', viewMatrix := m }
      rfl hat fun _ => by rw [hl]; exact (columns_headerMatrix hm).symm
    have hbody : ∀ {x : Option (Matrix × Reader)}, res.map (fun s => (s.viewMatrix, s.reader)) = x →
        Settles (fun m => cvle_read_Matrix N m r) x := by
      rintro x rfl
      refine Settles.bind hskip.settles ?_
      simp only [hl, hm]
      refine Settles.bind (.of_ok fun _ => rfl) ?_
      cases res with
      | none => exact Settles.bind_none _ hrows.settles
      | some s => exact Settles.bind hrows.settles (.of_ok fun _ => rfl)
    refine ⟨_, hbody rfl, ?_⟩
    rcases hcases with ⟨hnone, hdead⟩ | ⟨s', l', ls'', rfl, hat', hlen', hne', hscan'⟩
    · refine .inl ⟨hscan ▸ hnone, fun m' r'' h' => ?_⟩
      obtain ⟨s', hs', heq⟩ := Option.map_eq_some_iff.1 h'
      obtain ⟨rfl, rfl⟩ := Prod.ext_iff.1 heq
      exact hdead s' hs'
    · refine .inr ⟨s'.viewMatrix, s'.reader, l', ls'', rfl, hat', by omega, ?_⟩
      rw [← hscan, hscan', scan_rows_of_ne hne']

end Matrix

/-! ## The loops over the views and the simulations -/

section Views

variable {N} {P : Size} {id : ℤ × ℤ} {reads : List (ℤ × ℤ)} {ls : List String}

/-- In a stream that is dead, there is no turn over the views that returns. -/
theorem readView_dead {s : ViewState} (h : s.reader.outFile.Dead) (hline : s.reader.line = "")
    (inputId : ℤ) : Settles (fun m => readView N P inputId m s) none :=
  Settles.bind_none _ (readHeader_dead viewHeader h hline)

/-- The loop over the views ends at the first line that is no header of a view. -/
theorem readViews_spec {s : ViewState} (hfinish : s.finishViews = false) (h : s.reader.outFile.At ls) :
    ∃ res, LoopSettles .unfinished (fun v => !v.finishViews) (readView N P id.1) s res ∧
      ((scan N P (.view id) ⟨s.outputs, reads⟩ ls = none ∧ res = none) ∨
        ∃ s' ls', res = some s' ∧ s'.reader.outFile.At ls' ∧ ls'.length ≤ ls.length ∧
          scan N P (.view id) ⟨s.outputs, reads⟩ ls =
            scan N P .simu ⟨s'.outputs, reads ++ [id]⟩ ls') := by
  induction hk : ls.length using Nat.strong_induction_on generalizing s ls with
  | _ k ih =>
  subst hk
  have hcond : (!s.finishViews) = true := by simp [hfinish]
  have hskip : scan N P (.view id) ⟨s.outputs, reads⟩ (ls.dropWhile (· = "")) =
      scan N P (.view id) ⟨s.outputs, reads⟩ ls := scan_dropWhile rfl
  have hdrop := List.length_dropWhile_le (· = "") ls
  cases hls : ls.dropWhile (· = "") with
  | nil =>
    obtain ⟨r', hheader, hat⟩ := readHeader_end viewHeader h hls
    have hturn : Settles (fun m => readView N P id.1 m s)
        (some { s with reader := r', finishViews := true }) :=
      Settles.bind hheader (.of_ok fun _ => rfl)
    refine ⟨_, .step hcond hturn (.done rfl), .inr ⟨_, [], rfl, hat, Nat.zero_le _, ?_⟩⟩
    rw [← hskip, hls]
    rfl
  | cons l ls₁ =>
    rw [hls] at hskip
    rw [hls, List.length_cons] at hdrop
    obtain ⟨hne, herror, hno, hyes⟩ := readHeader_line viewHeader h hls
    rw [← hskip]
    cases hv : viewHeader l with
    | error e =>
      refine ⟨none, .step_none hcond (Settles.bind_none _ (herror e hv)), .inl ⟨?_, rfl⟩⟩
      rw [scan_cons]
      simp [step, viewStep, hne, hv, Except.toOption]
    | ok o =>
      cases o with
      | none =>
        obtain ⟨r', hheader, hat⟩ := hno hv
        have hturn : Settles (fun m => readView N P id.1 m s)
            (some { s with reader := r', finishViews := true }) :=
          Settles.bind hheader (.of_ok fun _ => rfl)
        refine ⟨_, .step hcond hturn (.done rfl), .inr ⟨_, l :: ls₁, rfl, hat, hdrop, ?_⟩⟩
        exact scan_view_of_none hne (by rw [hv]; rfl)
      | some viewName =>
        obtain ⟨r', hheader, hline, hat⟩ := hyes viewName hv
        have hscan : scan N P (.view id) ⟨s.outputs, reads⟩ (l :: ls₁) =
            scan N P (.columns id viewName) ⟨s.outputs, reads⟩ ls₁ := by
          rw [scan_cons]
          simp [step, viewStep, hne, hv, Except.toOption]
        rw [hscan]
        obtain ⟨res, hmatrix, hcases⟩ := @cvle_read_Matrix_spec N P id ⟨s.outputs, reads⟩ viewName ls₁ r'
          hat (by rw [hline]; exact hne)
        have hturn : ∀ m r'', res = some (m, r'') → Settles (fun k => readView N P id.1 k s)
            ((insertView viewName m id.1 P.inputSize P.repSize s.outputs).toOption.map fun outputs =>
              { s with reader := r'', outputs }) := by
          rintro m r'' rfl
          refine Settles.bind hheader (Settles.bind hmatrix ?_)
          cases hins : insertView viewName m id.1 P.inputSize P.repSize s.outputs with
          | error e => exact .of_error fun _ => by simp only [hins]; rfl
          | ok outputs => exact .of_ok fun _ => by simp only [hins]; rfl
        rcases hcases with ⟨hnone, hdead⟩ | ⟨m, r'', l', ls', rfl, hat', hlen, hscan'⟩
        · refine ⟨none, ?_, .inl ⟨hnone, rfl⟩⟩
          cases res with
          | none => exact .step_none hcond (Settles.bind hheader (Settles.bind_none _ hmatrix))
          | some x =>
            obtain ⟨m, r''⟩ := x
            obtain ⟨hd, hl⟩ := hdead m r'' rfl
            have hone := hturn m r'' rfl
            cases hins : insertView viewName m id.1 P.inputSize P.repSize s.outputs with
            | error e =>
              rw [hins] at hone
              exact .step_none hcond hone
            -- The view at the end is inserted, and the next header is looked for without an end.
            | ok outputs =>
              rw [hins] at hone
              exact .step hcond hone (.step_none hcond (readView_dead hd hl _))
        · have hone := hturn m r'' rfl
          cases hins : insertView viewName m id.1 P.inputSize P.repSize s.outputs with
          | error e =>
            rw [hins] at hone
            refine ⟨none, .step_none hcond hone, .inl ⟨?_, rfl⟩⟩
            rw [hscan']
            simp [hins, Except.toOption]
          | ok outputs =>
            rw [hins] at hone
            have hnext : scan N P (.columns id viewName) ⟨s.outputs, reads⟩ ls₁ =
                scan N P (.view id) ⟨outputs, reads⟩ (l' :: ls') := by
              rw [hscan']
              simp [hins, Except.toOption]
            rw [hnext]
            obtain ⟨res, hloop, hcases⟩ := @ih (l' :: ls').length (by rw [List.length_cons]; omega)
              (l' :: ls') { s with reader := r'', outputs } hfinish hat' rfl
            refine ⟨res, .step hcond hone hloop, ?_⟩
            rcases hcases with hnone | ⟨s', ls'', hres, hat'', hlen'', heq⟩
            · exact .inl hnone
            · refine .inr ⟨s', ls'', hres, hat'', ?_, heq⟩
              rw [List.length_cons] at hlen''
              omega

/-- The loop over the simulations ends at the first line that is no header, with what the lines have been
read as. -/
theorem readSimus_spec {s : SimuState} (hfinish : s.finishIds = false) (h : s.reader.outFile.At ls)
    (hcount : s.nbSimus = s.reads.length % 2 ^ 32) :
    ∃ res, LoopSettles .unfinished (fun s => !s.finishIds) (readSimu N P) s res ∧
      ((scan N P .simu ⟨s.outputs, s.reads⟩ ls = none ∧ res = none) ∨
        ∃ s' ls', res = some s' ∧ s'.reader.outFile.At ls' ∧ s'.nbSimus = s'.reads.length % 2 ^ 32 ∧
          scan N P .simu ⟨s.outputs, s.reads⟩ ls = some ⟨s'.outputs, s'.reads⟩) := by
  induction hk : ls.length using Nat.strong_induction_on generalizing s ls with
  | _ k ih =>
  subst hk
  have hcond : (!s.finishIds) = true := by simp [hfinish]
  have hskip : scan N P .simu ⟨s.outputs, s.reads⟩ (ls.dropWhile (· = "")) =
      scan N P .simu ⟨s.outputs, s.reads⟩ ls := scan_dropWhile rfl
  have hdrop := List.length_dropWhile_le (· = "") ls
  cases hls : ls.dropWhile (· = "") with
  | nil =>
    obtain ⟨r', hheader, hat⟩ := readHeader_end idHeader h hls
    have hturn : Settles (fun m => readSimu N P m s) (some { s with reader := r', finishIds := true }) :=
      Settles.bind hheader (.of_ok fun _ => rfl)
    refine ⟨_, .step hcond hturn (.done rfl), .inr ⟨_, [], rfl, hat, hcount, ?_⟩⟩
    rw [← hskip, hls]
    rfl
  | cons l ls₁ =>
    rw [hls] at hskip
    rw [hls, List.length_cons] at hdrop
    obtain ⟨hne, herror, hno, hyes⟩ := readHeader_line idHeader h hls
    rw [← hskip]
    cases hv : idHeader l with
    | error e =>
      refine ⟨none, .step_none hcond (Settles.bind_none _ (herror e hv)), .inl ⟨?_, rfl⟩⟩
      rw [scan_cons]
      simp [step, simuStep, hne, hv, Except.toOption]
    | ok o =>
      cases o with
      | none =>
        obtain ⟨r', hheader, hat⟩ := hno hv
        have hturn : Settles (fun m => readSimu N P m s)
            (some { s with reader := r', finishIds := true }) :=
          Settles.bind hheader (.of_ok fun _ => rfl)
        refine ⟨_, .step hcond hturn (.done rfl), .inr ⟨_, l :: ls₁, rfl, hat, hcount, ?_⟩⟩
        rw [scan_cons]
        simp [step, simuStep, hne, hv, Except.toOption]
      | some id =>
        obtain ⟨r', hheader, -, hat⟩ := hyes id hv
        have hscan : scan N P .simu ⟨s.outputs, s.reads⟩ (l :: ls₁) =
            scan N P (.view id) ⟨s.outputs, s.reads⟩ ls₁ := by
          rw [scan_cons]
          simp [step, simuStep, hne, hv, Except.toOption]
        rw [hscan]
        obtain ⟨res, hviews, hcases⟩ := @readViews_spec N P id s.reads ls₁
          { reader := r', outputs := s.outputs } rfl hat
        rcases hcases with ⟨hnone, rfl⟩ | ⟨v, ls', rfl, hat', hlen, heq⟩
        · refine ⟨none, .step_none hcond ?_, .inl ⟨hnone, rfl⟩⟩
          exact Settles.bind hheader (Settles.bind_none _ hviews.settles)
        · set s₁ : SimuState := {
            reader := v.reader
            outputs := v.outputs
            inputId := id.1
            inputRepl := id.2
            nbSimus := (s.nbSimus + 1) % 2 ^ 32
            finishIds := s.finishIds
            reads := s.reads ++ [id] } with hs₁
          have hturn : Settles (fun m => readSimu N P m s) (some s₁) :=
            Settles.bind hheader (Settles.bind hviews.settles (.of_ok fun _ => rfl))
          have hcount' : (s.nbSimus + 1) % 2 ^ 32 = (s.reads ++ [id]).length % 2 ^ 32 := by
            rw [hcount, List.length_append, List.length_singleton]
            omega
          obtain ⟨res, hloop, hcases⟩ := @ih ls'.length (by omega) ls' s₁ hfinish hat' hcount' rfl
          refine ⟨res, .step hcond hturn hloop, ?_⟩
          rw [heq]
          exact hcases

end Views

/-! ## The whole file -/

section File

variable {N} {P : Size} {mOutputs : List ManOutput}

/-- The loop of the message ends at the next simulation or at the end of the file. -/
theorem readMessages_spec {s : MessageState} {ls : List String} (hstop : s.stop = false)
    (h : s.reader.outFile.At ls) :
    ∃ s', LoopSettles Stop.unfinished (fun m => !m.stop) (fun _ m => .ok (readMessage m)) s
      (some s') := by
  have hcond : (!s.stop) = true := by simp [hstop]
  induction ls generalizing s with
  | nil =>
    have hdone : (readMessage s).stop = true := by
      rcases h with heof | ⟨hgood, hrest⟩
      · have hgood : s.reader.outFile.good = false := by simp [FileStream.good, heof]
        simp [readMessage, FileStream.getline_of_not_good _ hgood, heof]
      · obtain ⟨s', hs', heof, -⟩ := FileStream.getline_end s.reader.line hgood hrest
        simp [readMessage, hs', heof]
    exact ⟨_, .step hcond (.of_ok fun _ => rfl) (.done (by simp [hdone]))⟩
  | cons l ls ih =>
    obtain ⟨s', hs', hat, -⟩ := FileStream.getline_at s.reader.line h
    cases hdone : (readMessage s).stop with
    | true => exact ⟨_, .step hcond (.of_ok fun _ => rfl) (.done (by simp [hdone]))⟩
    | false =>
      have hat' : (readMessage s).reader.outFile.At ls := by
        simp only [readMessage, hs']
        exact hat
      obtain ⟨s'', hloop⟩ := ih hdone hat' (by simp [hdone])
      exact ⟨s'', .step hcond (.of_ok fun _ => rfl) hloop⟩

/-- The lines of a file, read for a plan. -/
def scanFile (N : Numbers) (P : Size) (mOutputs : List ManOutput) (text : String) : Option Progress :=
  scan N P .simu ⟨.start mOutputs, []⟩ ((FileStream.linesOf text.toList).map String.ofList)

/-- A file that cannot be opened is read for ever. -/
theorem cvle_read_closed : Settles (cvle_read N P mOutputs none) none := by
  refine Settles.bind_none _ (LoopSettles.settles (.step_none rfl ?_))
  exact Settles.bind_none _ (readHeader_dead idHeader ⟨rfl, rfl⟩ rfl)

/-- The reader comes to what the lines of the file are read as. -/
theorem cvle_read_settles (text : String) :
    ∃ res, Settles (cvle_read N P mOutputs (some text)) res ∧
      ((scanFile N P mOutputs text = none ∧ res = none) ∨
        ∃ p, scanFile N P mOutputs text = some p ∧
          if p.reads.length % 2 ^ 32 = P.inputSize * P.repSize % 2 ^ 32 then
            res = some (.results p.outputs p.reads)
          else ∃ err, res = some (.error err)) := by
  obtain ⟨res, hloop, hcases⟩ := @readSimus_spec N P _
    { reader := ⟨.ofFile (some text), ""⟩, outputs := .start mOutputs } rfl
    (FileStream.at_ofFile text) rfl
  rcases hcases with ⟨hnone, rfl⟩ | ⟨s, ls, rfl, hat, hcount, hscan⟩
  · exact ⟨none, Settles.bind_none _ hloop.settles, .inl ⟨hnone, rfl⟩⟩
  · by_cases hsize : s.nbSimus = P.inputSize * P.repSize % 2 ^ 32
    · refine ⟨some (.results s.outputs s.reads), Settles.bind hloop.settles ?_, .inr ⟨_, hscan, ?_⟩⟩
      · refine .of_ok fun _ => ?_
        simp only [hsize, ne_eq, not_true_eq_false, if_false]
        rfl
      · rw [if_pos (hcount ▸ hsize)]
    · obtain ⟨m, hmessage⟩ := @readMessages_spec {
        reader := s.reader
        message := s!"[Manager] Error in simu id={s.inputId}, repl={s.inputRepl} " } ls rfl hat
      refine ⟨some (.error ⟨-1, m.message⟩), Settles.bind hloop.settles ?_, .inr ⟨_, hscan, ?_⟩⟩
      · simp only [if_pos hsize]
        exact Settles.bind hmessage.settles (.of_ok fun _ => rfl)
      · rw [if_neg (hcount ▸ hsize)]
        exact ⟨_, rfl⟩

/-- The reader returns, and what it returns are results only if all simulations have been read. -/
def Complete (N : Numbers) (P : Size) (mOutputs : List ManOutput) (file : Option String) : Prop :=
  ∃ fuel outcome, cvle_read N P mOutputs file fuel = .ok outcome ∧
    ∀ outputs reads, outcome = .results outputs reads →
      ∀ i < P.inputSize, ∀ j < P.repSize, ((i : ℤ), (j : ℤ)) ∈ reads

/-- The files that are read completely: the file can be opened, its lines are read without an exception,
it does not end inside of a view, and when it has as many simulations as the plan they are those of the
plan. -/
def Meets (N : Numbers) (P : Size) (mOutputs : List ManOutput) (file : Option String) : Prop :=
  ∃ text p, file = some text ∧ scanFile N P mOutputs text = some p ∧
    (p.reads.length % 2 ^ 32 = P.inputSize * P.repSize % 2 ^ 32 →
      ∀ i < P.inputSize, ∀ j < P.repSize, ((i : ℤ), (j : ℤ)) ∈ p.reads)

/-- The reader returns with complete results, or with an error, exactly for the files of `Meets`. -/
theorem cvle_read_iff (N : Numbers) (P : Size) (mOutputs : List ManOutput) (file : Option String) :
    Complete N P mOutputs file ↔ Meets N P mOutputs file := by
  cases file with
  | none =>
    constructor
    · rintro ⟨fuel, outcome, hrun, -⟩
      cases cvle_read_closed.sound fuel outcome hrun
    · rintro ⟨text, p, hfile, -⟩
      cases hfile
  | some text =>
    obtain ⟨res, hres, ⟨hnone, rfl⟩ | ⟨p, hp, hcases⟩⟩ := @cvle_read_settles N P mOutputs text
    · constructor
      · rintro ⟨fuel, outcome, hrun, -⟩
        cases hres.sound fuel outcome hrun
      · rintro ⟨_, p, ⟨⟩, hp, -⟩
        rw [hnone] at hp
        cases hp
    · split_ifs at hcases with hsize
      · subst hcases
        constructor
        · rintro ⟨fuel, outcome, hrun, hall⟩
          obtain rfl := Option.some.inj (hres.sound fuel outcome hrun)
          exact ⟨text, p, rfl, hp, fun _ => hall _ _ rfl⟩
        · rintro ⟨_, p', ⟨⟩, hp', hall⟩
          obtain rfl := Option.some.inj (hp.symm.trans hp')
          obtain ⟨fuel, hfuel⟩ := hres.exists_ok_iff.2 rfl
          refine ⟨fuel, _, hfuel, ?_⟩
          rintro outputs reads ⟨⟩
          exact hall hsize
      · obtain ⟨err, rfl⟩ := hcases
        constructor
        · intro _
          exact ⟨text, p, rfl, hp, fun h => absurd h hsize⟩
        · intro _
          obtain ⟨fuel, hfuel⟩ := hres.exists_ok_iff.2 rfl
          refine ⟨fuel, _, hfuel, ?_⟩
          rintro outputs reads ⟨⟩

/-- A file that ends after the header of a view is read for ever. -/
theorem not_complete_cut :
    ¬ Complete ⟨fun _ => some 0, 0⟩ ⟨1, 1⟩ [] (some "id_0_0\nview:top\n") := by
  rintro ⟨fuel, outcome, hrun, -⟩
  have hscan : scanFile ⟨fun _ => some 0, 0⟩ ⟨1, 1⟩ [] "id_0_0\nview:top\n" = none := by rfl
  obtain ⟨res, hres, ⟨-, rfl⟩ | ⟨p, hp, -⟩⟩ := @cvle_read_settles ⟨fun _ => some 0, 0⟩ ⟨1, 1⟩ []
    "id_0_0\nview:top\n"
  · cases hres.sound fuel outcome hrun
  · rw [hscan] at hp
    cases hp

end File

end Vle.Manager.CvleFile
