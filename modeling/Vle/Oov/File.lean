import Vle.Lib.Runs
import Vle.Lib.Storage
import Vle.Oov.Plugin

/-!
# The file plug-in

`File` keeps the last value of each observable in a buffer, and writes the buffer on a line of a file
when the date changes, when an observable comes, and at the end. The line carries the date of a member
that every call with a date sets.

A call without an observable sets that member too, but writes nothing before. `complete_of_meets` is for
the calls in which no such call comes at another date than values that have not been written yet: no
value is then lost or misdated.
-/

namespace Vle.Oov

set_option linter.unusedSectionVars false

open Lib

variable {T V : Type}

/-- A line of the file. A cell without a value is written as `NA`. -/
structure Line (T V : Type) where
  date : T
  julian : Option String
  cells : List (Option V)
  deriving DecidableEq, Repr

/-- `File`. The validity vector is as long as the buffer. -/
structure File (T V : Type) where
  m_time : T
  m_isstart : Bool
  m_havefirstevent : Bool
  m_julian : Bool
  m_flushbybag : Bool
  m_columns : AList fun _ : String => ℕ
  m_newbagwatcher : AList fun _ : String => T
  m_buffer : List (Option V)
  m_valid : List Bool
  m_file : List (Line T V)
  size : m_valid.length = m_buffer.length

namespace File

variable [LinearOrder T] [Zero T] [One T] [Neg T] (toJulianDay : T → Option String)

/-- The constructor, with the options that `onParameter` sets. -/
def start (m_julian m_flushbybag : Bool) : File T V :=
  { m_time := -1
    m_isstart := false
    m_havefirstevent := false
    m_julian := m_julian
    m_flushbybag := m_flushbybag
    m_columns := ∅
    m_newbagwatcher := ∅
    m_buffer := []
    m_valid := []
    m_file := []
    size := rfl }

/-- The text of the exception for a date without a julian day. -/
def badJulianDay : Fault :=
  .thrown "Output plug-in: Year is out of valid range in julian day: 1400..10000"

/-- The julian day of a line. -/
def julianDay (f : File T V) : Except Fault (Option String) :=
  if f.m_julian then
    match toJulianDay f.m_time with
    | some day => .ok (some day)
    | none => .error badJulianDay
  else .ok none

/-- `flush`. -/
def flush (f : File T V) : Except Fault (File T V) :=
  if f.m_valid = [] ∨ true ∈ f.m_valid then do
    let julian ← f.julianDay toJulianDay
    return { f with
      m_file := f.m_file ++ [⟨f.m_time, julian, f.m_buffer⟩]
      m_valid := f.m_valid.map fun _ => false
      size := by rw [List.length_map]; exact f.size }
  else return f

/-- What `onNewObservable` does before it adds a column. -/
def beforeColumn (time : T) (f : File T V) : Except Fault (File T V) :=
  if f.m_isstart then f.flush toJulianDay
  else if f.m_havefirstevent = false then
    .ok { f with
      m_time := time
      m_havefirstevent := true }
  else do
    let f ← f.flush toJulianDay
    return { f with m_isstart := true }

def onNewObservable (simulator parent port : String) (time : T) (f : File T V) :
    Except Fault (File T V) := do
  let f ← f.beforeColumn toJulianDay time
  let name := buildname parent simulator port
  if name ∈ f.m_columns then
    throw (.thrown s!"Output plug-in: observable '{name}' already exist")
  else
    return { f with
      m_newbagwatcher := f.m_newbagwatcher.insert name (-1)
      m_columns := f.m_columns.insert name f.m_buffer.length
      m_buffer := f.m_buffer ++ [none]
      m_valid := f.m_valid ++ [false]
      size := by rw [List.length_append, List.length_append, f.size]; rfl }

/-- What `onValue` does before it sets a value. -/
def beforeValue (name : String) (time : T) (f : File T V) : Except Fault (File T V) :=
  if f.m_isstart then
    if time ≠ f.m_time ∨ (f.m_flushbybag ∧ (f.m_newbagwatcher.lookup name).getD 0 = time) then
      f.flush toJulianDay
    else .ok f
  else if f.m_havefirstevent = false then .ok { f with m_havefirstevent := true }
  else do
    let f ← f.flush toJulianDay
    return { f with m_isstart := true }

/-- A value in the buffer. -/
def setValue (name : String) (column : ℕ) (time : T) (value : Option V) (f : File T V) : File T V :=
  { f with
    m_buffer := f.m_buffer.set column value
    m_valid := f.m_valid.set column true
    m_newbagwatcher := f.m_newbagwatcher.insert name time
    size := by rw [List.length_set, List.length_set]; exact f.size }

def onValue (simulator parent port : String) (time : T) (value : Option V) (f : File T V) :
    Except Fault (File T V) :=
  if simulator ≠ "" then do
    let name := buildname parent simulator port
    match f.m_columns.lookup name with
    | none => throw (.thrown s!"Output plugin: columns '{name}' does not exist. No observable ?")
    | some column => do
      let f ← f.beforeValue toJulianDay name time
      if column < f.m_buffer.length then
        return { f.setValue name column time value with m_time := time }
      else throw .outOfRange
  else return { f with m_time := time }

/-- A call of the interface. `onDelObservable` does nothing. -/
def call (f : File T V) : Call T V → Except Fault (File T V)
  | .onNewObservable simulator parent port time => f.onNewObservable toJulianDay simulator parent port time
  | .onDelObservable _ _ _ _ => .ok f
  | .onValue simulator parent port time value => f.onValue toJulianDay simulator parent port time value

/-- `finalFlush`. Its second line is for values that `flush` has left. -/
def finalFlush (trame_time : T) (f : File T V) : Except Fault (File T V) := do
  let f ← f.flush toJulianDay
  if true ∈ f.m_valid then do
    let julian ← f.julianDay toJulianDay
    return { f with
      m_file := f.m_file ++ [⟨trame_time, julian, f.m_buffer⟩]
      m_buffer := []
      m_valid := []
      size := rfl }
  else return f

/-- `finish`, with the names of the columns and the lines of the final file. -/
def finish (time : T) (f : File T V) : Except Fault (List String × File T V) := do
  let f ← f.finalFlush toJulianDay time
  let array ← Storage.writeAll .outOfRange (f.m_columns.entries.map fun column => (column.2, column.1))
    (List.replicate f.m_columns.entries.length "")
  return (array, f)

end File

/-! ## What the file should hold -/

/-- The values given since the last line, and those that are new on each line. -/
structure Tally (T V : Type) where
  fresh : List (Given T V)
  written : List (List (Given T V))

/-- The values given since the last line are new on a line that is written. -/
def Tally.printed (before after : ℕ) (t : Tally T V) : Tally T V :=
  if before < after then ⟨[], t.written ++ [t.fresh]⟩ else t

/-- A value takes the place of the one given for the same observable. -/
def Tally.give (g : Given T V) (t : Tally T V) : Tally T V :=
  { t with fresh := t.fresh.filter (fun h => h.name ≠ g.name) ++ [g] }

/-- A call between two numbers of lines. -/
def Tally.call (before after : ℕ) (c : Call T V) (t : Tally T V) : Tally T V :=
  match c.given with
  | some g => (t.printed before after).give g
  | none => t.printed before after

/-- The file completed by `finish`: the names of the columns, the lines, and the values that are new on
each. -/
structure Outcome (T V : Type) where
  heads : List String
  lines : List (Line T V)
  written : List (List (Given T V))

/-- A value stands on a line of its date, in the column of its observable. -/
def Outcome.Stands (o : Outcome T V) (g : Given T V) : Prop :=
  ∃ line ∈ o.lines, line.date = g.date ∧
    ∃ i : ℕ, o.heads[i]? = some g.name ∧ line.cells[i]? = some g.value

/-- Nothing is lost or misdated: a value stands on a line unless it is replaced at its date, the dates do
not decrease, no line is later than a value that is new on it, and with `flush-by-bag` all values
stand. -/
structure Complete [LE T] (m_flushbybag : Bool) (calls : List (Call T V)) (o : Outcome T V) : Prop where
  placed : ∀ done g todo, given calls = done ++ g :: todo →
    (∀ h ∈ todo, h.name = g.name → h.date ≠ g.date) → o.Stands g
  sorted : o.lines.Pairwise fun a b => a.date ≤ b.date
  dated : List.Forall₂ (fun line new => ∀ g ∈ new, line.date ≤ g.date) o.lines o.written
  bags : m_flushbybag = true → ∀ g ∈ given calls, o.Stands g

namespace File

variable [LinearOrder T] [Zero T] [One T] [Neg T] (toJulianDay : T → Option String)

/-- A call, with the tally. -/
def follow (s : File T V × Tally T V) (c : Call T V) : Except Fault (File T V × Tally T V) := do
  let f ← s.1.call toJulianDay c
  return (f, s.2.call s.1.m_file.length f.m_file.length c)

/-- The file that some calls and `finish` give. -/
def complete (m_julian m_flushbybag : Bool) (calls : List (Call T V)) (time : T) :
    Except Fault (Outcome T V) := do
  let s ← calls.foldlM (follow toJulianDay) (start m_julian m_flushbybag, ⟨[], []⟩)
  let (heads, f) ← s.1.finish toJulianDay time
  return ⟨heads, f.m_file, (s.2.printed s.1.m_file.length f.m_file.length).written⟩

/-- The next state, if there is no failure. -/
def next (f : File T V) (c : Call T V) : Option (File T V) := (f.call toJulianDay c).toOption

/-- A call without an observable does not come at another date than that of values that are still to be
written. -/
def Meets (f : File T V) (c : Call T V) : Prop :=
  c.given = none → ∀ time, c.date = some time → true ∈ f.m_valid → time = f.m_time

/-! ## The invariant -/

/-- A value stands on a line that has been written. -/
def Written (f : File T V) (g : Given T V) : Prop :=
  ∃ line ∈ f.m_file, line.date = g.date ∧
    ∃ i, f.m_columns.lookup g.name = some i ∧ line.cells[i]? = some g.value

/-- A value is in the buffer, to be written with its date. -/
def Pending (f : File T V) (g : Given T V) : Prop :=
  g.date = f.m_time ∧ f.m_newbagwatcher.lookup g.name = some g.date ∧
    ∃ i, f.m_columns.lookup g.name = some i ∧ f.m_valid[i]? = some true ∧ f.m_buffer[i]? = some g.value

/-- The columns are those of the observables announced, in order. -/
structure Columns (f : File T V) (calls : List (Call T V)) : Prop where
  lt : ∀ {name i}, f.m_columns.lookup name = some i → i < f.m_buffer.length
  inj : ∀ {a b i}, f.m_columns.lookup a = some i → f.m_columns.lookup b = some i → a = b
  count : f.m_columns.entries.length = f.m_buffer.length
  mem : ∀ {name}, name ∈ f.m_columns ↔ name ∈ observables calls
  event : f.m_havefirstevent = true ↔ f.m_buffer ≠ []
  started : f.m_isstart = true → f.m_havefirstevent = true

/-- The values given are in the buffer or on a line. -/
structure Log (f : File T V) (t : Tally T V) (calls : List (Call T V)) : Prop where
  pending : ∀ g ∈ t.fresh, f.Pending g
  placed : ∀ done g todo, given calls = done ++ g :: todo →
    (∀ h ∈ todo, h.name = g.name → h.date ≠ g.date) → g ∈ t.fresh ∨ f.Written g
  bags : f.m_flushbybag = true → ∀ g ∈ given calls, g ∈ t.fresh ∨ f.Written g
  sorted : f.m_file.Pairwise fun a b => a.date ≤ b.date
  le : ∀ line ∈ f.m_file, line.date ≤ f.m_time
  dated : List.Forall₂ (fun line new => ∀ g ∈ new, line.date ≤ g.date) f.m_file t.written

/-- Before the start there is nothing to write, and then the date is that of a call. -/
structure Timely (f : File T V) (calls : List (Call T V)) : Prop where
  idle : f.m_isstart = false → true ∉ f.m_valid ∧ f.m_file = []
  last : true ∈ f.m_valid ∨ f.m_file ≠ [] → f.m_time ∈ dates calls

/-- The invariant, with the options. -/
structure Kept (m_julian m_flushbybag : Bool) (f : File T V) (t : Tally T V) (calls : List (Call T V)) :
    Prop where
  columns : Columns f calls
  log : Log f t calls
  timely : Timely f calls
  julian : f.m_julian = m_julian
  bybag : f.m_flushbybag = m_flushbybag

/-- What a flush leaves. -/
structure Same (f f' : File T V) : Prop where
  m_time : f'.m_time = f.m_time
  m_isstart : f'.m_isstart = f.m_isstart
  m_havefirstevent : f'.m_havefirstevent = f.m_havefirstevent
  m_julian : f'.m_julian = f.m_julian
  m_flushbybag : f'.m_flushbybag = f.m_flushbybag
  m_columns : f'.m_columns = f.m_columns
  m_newbagwatcher : f'.m_newbagwatcher = f.m_newbagwatcher
  m_buffer : f'.m_buffer = f.m_buffer

section Flush

variable {f : File T V} {t : Tally T V} {calls : List (Call T V)}

theorem Pending.valid {g : Given T V} (h : f.Pending g) : true ∈ f.m_valid := by
  obtain ⟨-, -, i, -, hvalid, -⟩ := h
  exact List.mem_of_getElem? hvalid

/-- Without a valid element nothing is to be written. -/
theorem Log.fresh_eq_nil (h : Log f t calls) (hvalid : true ∉ f.m_valid) : t.fresh = [] :=
  List.eq_nil_iff_forall_not_mem.mpr fun g hg => hvalid (h.pending g hg).valid

theorem printed_fresh (h : Log f t calls) {f' : File T V} (hvalid : true ∈ f.m_valid →
    f.m_file.length < f'.m_file.length) :
    (t.printed f.m_file.length f'.m_file.length).fresh = [] := by
  unfold Tally.printed
  split_ifs with hlt
  · rfl
  · exact h.fresh_eq_nil fun hmem => hlt (hvalid hmem)

/-- A line is written with the values of the buffer, and the log is kept. -/
theorem flush_run (h : Log f t calls) :
    (f.flush toJulianDay = .error badJulianDay ∧ f.m_julian = true) ∨
    ∃ f', f.flush toJulianDay = .ok f' ∧ Same f f' ∧ true ∉ f'.m_valid ∧
      (t.printed f.m_file.length f'.m_file.length).fresh = [] ∧
      Log f' (t.printed f.m_file.length f'.m_file.length) calls ∧
      ((true ∈ f.m_valid ∨ f.m_valid = []) ∨ f' = f) := by
  unfold flush
  by_cases hprint : f.m_valid = [] ∨ true ∈ f.m_valid
  · rw [if_pos hprint]
    cases hjulian : f.julianDay toJulianDay with
    | error e =>
      refine .inl ?_
      unfold julianDay at hjulian
      split_ifs at hjulian with hj
      cases hday : toJulianDay f.m_time with
      | some day => simp [hday] at hjulian
      | none =>
        simp only [hday] at hjulian
        cases hjulian
        exact ⟨rfl, hj⟩
    | ok julian =>
      have hprinted : t.printed f.m_file.length
          (f.m_file ++ [(⟨f.m_time, julian, f.m_buffer⟩ : Line T V)]).length =
          ⟨[], t.written ++ [t.fresh]⟩ := by
        rw [Tally.printed, if_pos (by rw [List.length_append, List.length_singleton]; omega)]
      have hwritten : ∀ g, f.Written g → ∃ line ∈ f.m_file ++ [⟨f.m_time, julian, f.m_buffer⟩],
          line.date = g.date ∧ ∃ i, f.m_columns.lookup g.name = some i ∧ line.cells[i]? = some g.value := by
        rintro g ⟨line, hline, hrest⟩
        exact ⟨line, List.mem_append_left _ hline, hrest⟩
      -- what was to be written is on the new line
      have hfresh : ∀ g ∈ t.fresh, ∃ line ∈ f.m_file ++ [⟨f.m_time, julian, f.m_buffer⟩],
          line.date = g.date ∧ ∃ i, f.m_columns.lookup g.name = some i ∧ line.cells[i]? = some g.value := by
        intro g hg
        obtain ⟨hdate, -, i, hlookup, -, hbuffer⟩ := h.pending g hg
        exact ⟨_, List.mem_append_right _ (List.mem_singleton_self _), hdate.symm, i, hlookup, hbuffer⟩
      refine .inr ⟨_, rfl, ⟨rfl, rfl, rfl, rfl, rfl, rfl, rfl, rfl⟩, by simp, ?_, ?_, .inl hprint.symm⟩
      · exact congrArg Tally.fresh hprinted
      · change Log _ (t.printed f.m_file.length
          (f.m_file ++ [(⟨f.m_time, julian, f.m_buffer⟩ : Line T V)]).length) calls
        rw [hprinted]
        refine ⟨nofun, fun done g todo hgiven htodo => ?_, fun hbags g hg => ?_, ?_, ?_, ?_⟩
        · rcases h.placed done g todo hgiven htodo with hg | hg
          · exact .inr (hfresh g hg)
          · exact .inr (hwritten g hg)
        · rcases h.bags hbags g hg with hg | hg
          · exact .inr (hfresh g hg)
          · exact .inr (hwritten g hg)
        · refine List.pairwise_append.mpr ⟨h.sorted, List.pairwise_singleton _ _, fun a ha b hb => ?_⟩
          rw [List.mem_singleton.mp hb]
          exact h.le a ha
        · intro line hline
          rcases List.mem_append.mp hline with hline | hline
          · exact h.le line hline
          · rw [List.mem_singleton.mp hline]
        · refine List.rel_append h.dated (List.Forall₂.cons (fun g hg => ?_) .nil)
          exact (h.pending g hg).1.ge
  · rw [if_neg hprint]
    push Not at hprint
    refine .inr ⟨f, rfl, ⟨rfl, rfl, rfl, rfl, rfl, rfl, rfl, rfl⟩, hprint.2, ?_, ?_, .inr rfl⟩
    · exact printed_fresh h fun hmem => absurd hmem hprint.2
    · rw [Tally.printed, if_neg (lt_irrefl _)]
      exact h

/-- Where there are columns, a line is written for valid elements only. -/
theorem flush_keeps (hcolumns : Columns f calls) (h : Log f t calls) (htimely : Timely f calls)
    (hbuffer : f.m_buffer ≠ []) :
    (f.flush toJulianDay = .error badJulianDay ∧ f.m_julian = true) ∨
    ∃ f', f.flush toJulianDay = .ok f' ∧ Same f f' ∧ true ∉ f'.m_valid ∧
      (t.printed f.m_file.length f'.m_file.length).fresh = [] ∧
      Log f' (t.printed f.m_file.length f'.m_file.length) calls ∧
      (f.m_isstart = false → f'.m_file = []) ∧ (f'.m_file ≠ [] → f.m_time ∈ dates calls) := by
  rcases flush_run toJulianDay h with herror | ⟨f', hrun, hsame, hvalid, hfresh, hlog, hf'⟩
  · exact .inl herror
  · refine .inr ⟨f', hrun, hsame, hvalid, hfresh, hlog, ?_⟩
    rcases hf' with (hmem | hnil) | rfl
    · refine ⟨fun hidle => absurd hmem (htimely.idle hidle).1, fun _ => htimely.last (.inl hmem)⟩
    · have := f.size
      rw [hnil, List.length_nil, eq_comm, List.length_eq_zero_iff] at this
      exact absurd this hbuffer
    · exact ⟨fun hidle => (htimely.idle hidle).2, fun hfile => htimely.last (.inr hfile)⟩

/-- Before a column is added, nothing is left to be written. -/
theorem beforeColumn_run (hcolumns : Columns f calls) (h : Log f t calls) (htimely : Timely f calls)
    (time : T) :
    (f.beforeColumn toJulianDay time = .error badJulianDay ∧ f.m_julian = true) ∨
    ∃ f', f.beforeColumn toJulianDay time = .ok f' ∧ f'.m_julian = f.m_julian ∧
      f'.m_flushbybag = f.m_flushbybag ∧ f'.m_columns = f.m_columns ∧ f'.m_buffer = f.m_buffer ∧
      f'.m_havefirstevent = true ∧ true ∉ f'.m_valid ∧
      (t.printed f.m_file.length f'.m_file.length).fresh = [] ∧
      Log f' (t.printed f.m_file.length f'.m_file.length) calls ∧ Timely f' calls := by
  unfold beforeColumn
  by_cases hevent : f.m_havefirstevent = true
  · have hflush := flush_keeps toJulianDay hcolumns h htimely (hcolumns.event.mp hevent)
    rcases hflush with ⟨herror, hj⟩ | ⟨f', hrun, hsame, hvalid, hfresh, hlog, hidle, hlast⟩
    · refine .inl ⟨?_, hj⟩
      simp [hevent, herror]
    · by_cases hstart : f.m_isstart = true
      · rw [if_pos hstart]
        refine .inr ⟨f', hrun, hsame.m_julian, hsame.m_flushbybag, hsame.m_columns, hsame.m_buffer,
          hsame.m_havefirstevent.trans hevent, hvalid, hfresh, hlog, fun hoff => ?_, fun hsome => ?_⟩
        · rw [hsame.m_isstart, hstart] at hoff
          cases hoff
        · rw [hsame.m_time]
          exact hlast (hsome.resolve_left hvalid)
      · rw [if_neg hstart, if_neg (by rw [hevent]; decide), hrun, Except.ok_bind]
        refine .inr ⟨_, rfl, hsame.m_julian, hsame.m_flushbybag, hsame.m_columns, hsame.m_buffer,
          hsame.m_havefirstevent.trans hevent, hvalid, hfresh, ?_, ⟨fun hoff => ?_, fun hsome => ?_⟩⟩
        · exact ⟨hlog.pending, hlog.placed, hlog.bags, hlog.sorted, hlog.le, hlog.dated⟩
        · cases hoff
        · change f'.m_time ∈ dates calls
          rw [hsame.m_time]
          exact hlast (hsome.resolve_left hvalid)
  · -- the first event: there is no column and no line
    have hoff : f.m_isstart = false := Bool.eq_false_iff.mpr fun hstart => hevent (hcolumns.started hstart)
    obtain ⟨hvalid, hfile⟩ := htimely.idle hoff
    rw [if_neg (by rw [hoff]; decide), if_pos (Bool.eq_false_iff.mpr hevent)]
    refine .inr ⟨_, rfl, rfl, rfl, rfl, rfl, rfl, hvalid, printed_fresh h fun hmem => absurd hmem hvalid,
      ?_, fun _ => ⟨hvalid, hfile⟩, fun hsome => ?_⟩
    · have hfresh := h.fresh_eq_nil hvalid
      rw [Tally.printed, if_neg (lt_irrefl _)]
      refine ⟨fun g hg => ?_, h.placed, h.bags, h.sorted, fun line hline => ?_, h.dated⟩
      · rw [hfresh] at hg
        cases hg
      · change line ∈ f.m_file at hline
        rw [hfile] at hline
        cases hline
    · exact absurd hsome (not_or.mpr ⟨hvalid, not_not.mpr hfile⟩)

/-- Before a value is set, what is left to be written has its date, and with `flush-by-bag` it is for
other observables. -/
theorem beforeValue_run (hcolumns : Columns f calls) (h : Log f t calls) (htimely : Timely f calls)
    (hbuffer : f.m_buffer ≠ []) (name : String) (time : T) :
    (f.beforeValue toJulianDay name time = .error badJulianDay ∧ f.m_julian = true) ∨
    ∃ f', f.beforeValue toJulianDay name time = .ok f' ∧ f'.m_julian = f.m_julian ∧
      f'.m_flushbybag = f.m_flushbybag ∧ f'.m_columns = f.m_columns ∧ f'.m_buffer = f.m_buffer ∧
      f'.m_havefirstevent = true ∧ f'.m_isstart = true ∧
      (∀ g ∈ (t.printed f.m_file.length f'.m_file.length).fresh,
        g.date = time ∧ (f.m_flushbybag = true → g.name ≠ name)) ∧
      Log f' (t.printed f.m_file.length f'.m_file.length) calls ∧
      (f'.m_file ≠ [] → f'.m_time ∈ dates calls) := by
  unfold beforeValue
  have hevent := hcolumns.event.mpr hbuffer
  have hflush := flush_keeps toJulianDay hcolumns h htimely hbuffer
  by_cases hstart : f.m_isstart = true
  · rw [if_pos hstart]
    split_ifs with hdue
    · rcases hflush with herror | ⟨f', hrun, hsame, hvalid, hfresh, hlog, -, hlast⟩
      · exact .inl herror
      · refine .inr ⟨f', hrun, hsame.m_julian, hsame.m_flushbybag, hsame.m_columns, hsame.m_buffer,
          hsame.m_havefirstevent.trans hevent, hsame.m_isstart.trans hstart, fun g hg => ?_, hlog, ?_⟩
        · rw [hfresh] at hg
          cases hg
        · rw [hsame.m_time]
          exact hlast
    · obtain ⟨hsame, hbag⟩ := not_or.mp hdue
      have hprinted : t.printed f.m_file.length f.m_file.length = t := by
        rw [Tally.printed, if_neg (lt_irrefl _)]
      refine .inr ⟨f, rfl, rfl, rfl, rfl, rfl, hevent, hstart, ?_, by rwa [hprinted],
        fun hfile => htimely.last (.inr hfile)⟩
      rw [hprinted]
      intro g hg
      obtain ⟨hdate, hwatch, -⟩ := h.pending g hg
      refine ⟨hdate.trans (not_not.mp hsame).symm, fun hby hname => hbag ⟨hby, ?_⟩⟩
      rw [← hname, hwatch, hdate, Option.getD_some]
      exact (not_not.mp hsame).symm
  · rw [if_neg hstart, if_neg (by rw [hevent]; decide)]
    rcases hflush with ⟨herror, hj⟩ | ⟨f', hrun, hsame, hvalid, hfresh, hlog, -, hlast⟩
    · refine .inl ⟨?_, hj⟩
      rw [herror]
      rfl
    · rw [hrun, Except.ok_bind]
      refine .inr ⟨_, rfl, hsame.m_julian, hsame.m_flushbybag, hsame.m_columns, hsame.m_buffer,
        hsame.m_havefirstevent.trans hevent, rfl, fun g hg => ?_, ?_, ?_⟩
      · change g ∈ (t.printed f.m_file.length f'.m_file.length).fresh at hg
        rw [hfresh] at hg
        cases hg
      · exact ⟨hlog.pending, hlog.placed, hlog.bags, hlog.sorted, hlog.le, hlog.dated⟩
      · change f'.m_file ≠ [] → f'.m_time ∈ dates calls
        rw [hsame.m_time]
        exact hlast

end Flush

section Steps

variable {f : File T V} {t : Tally T V} {calls : List (Call T V)}

/-- A column that is added has nothing to be written. -/
theorem Log.column (h : Log f t calls) (hfresh : t.fresh = []) {c : Call T V} (hc : c.given = none)
    {f' : File T V} (hcolumns : ∀ name i, f.m_columns.lookup name = some i →
      f'.m_columns.lookup name = some i)
    (hfile : f'.m_file = f.m_file) (htime : f'.m_time = f.m_time)
    (hbag : f'.m_flushbybag = f.m_flushbybag) : Log f' t (calls ++ [c]) := by
  have hgiven : given (calls ++ [c]) = given calls := by rw [given_concat, hc]; simp
  have hkept : ∀ g, f.Written g → f'.Written g := by
    rintro g ⟨line, hline, hdate, i, hlookup, hcell⟩
    exact ⟨line, hfile ▸ hline, hdate, i, hcolumns _ _ hlookup, hcell⟩
  refine ⟨fun g hg => ?_, fun done g todo hsplit htodo => ?_, fun hby g hg => ?_, ?_, ?_, ?_⟩
  · rw [hfresh] at hg
    cases hg
  · rw [hgiven] at hsplit
    exact (h.placed done g todo hsplit htodo).imp_right (hkept g)
  · rw [hgiven] at hg
    exact (h.bags (hbag ▸ hby) g hg).imp_right (hkept g)
  · rw [hfile]
    exact h.sorted
  · rw [hfile, htime]
    exact h.le
  · rw [hfile]
    exact h.dated

/-- A value that is set is to be written. -/
theorem Log.give (h : Log f t calls) (hcolumns : Columns f calls) {c : Call T V} {name : String}
    {column : ℕ} {time : T} {value : Option V} (hc : c.given = some ⟨name, time, value⟩)
    (hlookup : f.m_columns.lookup name = some column)
    (hfresh : ∀ g ∈ t.fresh, g.date = time ∧ (f.m_flushbybag = true → g.name ≠ name))
    (hle : ∀ line ∈ f.m_file, line.date ≤ time) :
    Log { f.setValue name column time value with m_time := time } (t.give ⟨name, time, value⟩)
      (calls ++ [c]) := by
  have hlt : column < f.m_buffer.length := hcolumns.lt hlookup
  have hgiven : given (calls ++ [c]) = given calls ++ [⟨name, time, value⟩] := by
    rw [given_concat, hc]
    rfl
  refine ⟨fun g hg => ?_, fun done g todo hsplit htodo => ?_, fun hby g hg => ?_, h.sorted, hle, h.dated⟩
  · rcases List.mem_append.mp hg with hg | hg
    · obtain ⟨hg, hne⟩ := List.mem_filter.mp hg
      have hne : g.name ≠ name := by simpa using hne
      obtain ⟨-, hwatch, i, hi, hvalid, hbuffer⟩ := h.pending g hg
      have hcol : column ≠ i := fun heq => hne (hcolumns.inj hi (heq ▸ hlookup))
      refine ⟨(hfresh g hg).1, ?_, i, hi, ?_, ?_⟩
      · exact (AList.lookup_insert_ne hne).trans hwatch
      · exact (List.getElem?_set_ne hcol).trans hvalid
      · exact (List.getElem?_set_ne hcol).trans hbuffer
    · rw [List.mem_singleton.mp hg]
      refine ⟨rfl, AList.lookup_insert _, column, hlookup, ?_, ?_⟩
      · exact List.getElem?_set_self (f.size ▸ hlt)
      · exact List.getElem?_set_self hlt
  · rcases List.eq_nil_or_concat todo with rfl | ⟨rest, last, rfl⟩
    · rw [hgiven] at hsplit
      obtain ⟨-, hlast⟩ := List.append_inj' hsplit rfl
      cases hlast
      exact .inl (List.mem_append_right _ (List.mem_singleton_self _))
    · rw [List.concat_eq_append] at hsplit htodo
      rw [hgiven, ← List.cons_append, ← List.append_assoc] at hsplit
      obtain ⟨hfirst, hlast⟩ := List.append_inj' hsplit rfl
      cases hlast
      have hrest := h.placed done g rest hfirst fun k hk => htodo k (List.mem_append_left _ hk)
      refine hrest.imp_left fun hg => List.mem_append_left _ (List.mem_filter.mpr ⟨hg, ?_⟩)
      -- a value for the same observable at the same date would replace it
      refine decide_eq_true fun hname => ?_
      exact htodo _ (List.mem_append_right _ (List.mem_singleton_self _)) hname.symm (hfresh g hg).1.symm
  · rw [hgiven] at hg
    rcases List.mem_append.mp hg with hg | hg
    · refine (h.bags hby g hg).imp_left fun hg => List.mem_append_left _ (List.mem_filter.mpr ⟨hg, ?_⟩)
      exact decide_eq_true ((hfresh g hg).2 hby)
    · rw [List.mem_singleton.mp hg]
      exact .inl (List.mem_append_right _ (List.mem_singleton_self _))

/-- A call without an observable changes the date only. -/
theorem Log.empty (h : Log f t calls) {c : Call T V} (hc : c.given = none) {time : T}
    (hmeets : true ∈ f.m_valid → time = f.m_time) (hle : ∀ line ∈ f.m_file, line.date ≤ time) :
    Log { f with m_time := time } t (calls ++ [c]) := by
  have hgiven : given (calls ++ [c]) = given calls := by rw [given_concat, hc]; simp
  refine ⟨fun g hg => ?_, fun done g todo hsplit htodo => ?_, fun hby g hg => ?_, h.sorted, hle, h.dated⟩
  · obtain ⟨hdate, hrest⟩ := h.pending g hg
    exact ⟨hdate.trans (hmeets (h.pending g hg).valid).symm, hrest⟩
  · rw [hgiven] at hsplit
    exact h.placed done g todo hsplit htodo
  · rw [hgiven] at hg
    exact h.bags hby g hg

variable {m_julian m_flushbybag : Bool} {c : Call T V}

/-- An observable that is announced gets the next column. -/
theorem Columns.add (h : Columns f calls) {name : String} (hnot : name ∉ f.m_columns)
    (hc : c.observable = some name) {f' : File T V}
    (hcolumns : f'.m_columns = f.m_columns.insert name f.m_buffer.length)
    (hbuffer : f'.m_buffer = f.m_buffer ++ [none]) (hevent : f'.m_havefirstevent = true) :
    Columns f' (calls ++ [c]) := by
  have hold : ∀ {d i}, d ≠ name → f'.m_columns.lookup d = some i →
      f.m_columns.lookup d = some i ∧ i < f.m_buffer.length := by
    intro d i hd hlookup
    rw [hcolumns, AList.lookup_insert_ne hd] at hlookup
    exact ⟨hlookup, h.lt hlookup⟩
  have hself : ∀ {i}, f'.m_columns.lookup name = some i → i = f.m_buffer.length := by
    intro i hlookup
    rw [hcolumns, AList.lookup_insert, Option.some.injEq] at hlookup
    exact hlookup.symm
  refine ⟨?_, ?_, ?_, ?_, iff_of_true hevent (by rw [hbuffer]; simp), fun _ => hevent⟩
  · intro d i hlookup
    rw [hbuffer, List.length_append, List.length_singleton]
    by_cases hd : d = name
    · have := hself (hd ▸ hlookup)
      omega
    · have := (hold hd hlookup).2
      omega
  · intro d e i hd he
    by_cases hdn : d = name <;> by_cases hen : e = name
    · rw [hdn, hen]
    · exact absurd (hold hen he).2 (by have := hself (hdn ▸ hd); omega)
    · exact absurd (hold hdn hd).2 (by have := hself (hen ▸ he); omega)
    · exact h.inj (hold hdn hd).1 (hold hen he).1
  · rw [hcolumns, AList.entries_insert_of_notMem hnot, List.length_cons, h.count, hbuffer,
      List.length_append, List.length_singleton]
  · intro d
    rw [hcolumns, AList.mem_insert, h.mem, observables_concat, hc, List.mem_append]
    simp only [Option.toList_some, List.mem_singleton]
    exact or_comm

/-- The columns stay when no observable is announced. -/
theorem Columns.keep (h : Columns f calls) (hc : c.observable = none) {f' : File T V}
    (hcolumns : f'.m_columns = f.m_columns) (hbuffer : f'.m_buffer.length = f.m_buffer.length)
    (hevent : f'.m_havefirstevent = f.m_havefirstevent)
    (hstarted : f'.m_isstart = true → f'.m_havefirstevent = true) : Columns f' (calls ++ [c]) where
  lt hlookup := by
    rw [hcolumns] at hlookup
    exact hbuffer ▸ h.lt hlookup
  inj ha hb := by
    rw [hcolumns] at ha hb
    exact h.inj ha hb
  count := by rw [hcolumns, hbuffer, h.count]
  mem := by
    intro name
    rw [hcolumns, h.mem, observables_concat, hc]
    simp
  event := by rw [hevent, h.event, ← List.length_pos_iff, ← List.length_pos_iff, hbuffer]
  started := hstarted

/-- Announcing an observable keeps the invariant. -/
theorem onNewObservable_run (h : Kept m_julian m_flushbybag f t calls) {simulator parent port : String}
    {time : T} (hc : c = .onNewObservable simulator parent port time)
    (hnew : buildname parent simulator port ∉ observables calls) :
    (f.call toJulianDay c = .error badJulianDay ∧ m_julian = true) ∨
    ∃ f', f.call toJulianDay c = .ok f' ∧
      Kept m_julian m_flushbybag f' (t.call f.m_file.length f'.m_file.length c) (calls ++ [c]) := by
  subst hc
  obtain ⟨hcolumns, hlog, htimely, hj, hby⟩ := h
  simp only [call, onNewObservable, Tally.call, Call.given]
  rcases beforeColumn_run toJulianDay hcolumns hlog htimely time with
    ⟨herror, hjulian⟩ | ⟨f', hrun, hj', hby', hcol', hbuf', hevent', hvalid', hfresh', hlog', htimely'⟩
  · rw [herror]
    exact .inl ⟨rfl, hj ▸ hjulian⟩
  · have hnot : buildname parent simulator port ∉ f.m_columns := by
      rw [hcolumns.mem]
      exact hnew
    have hkeep : ∀ name i, f'.m_columns.lookup name = some i →
        (f'.m_columns.insert (buildname parent simulator port) f'.m_buffer.length).lookup name = some i := by
      intro name i hlookup
      refine (AList.lookup_insert_ne fun heq => hnot ?_).trans hlookup
      rw [← heq, ← hcol']
      exact AList.lookup_isSome.mp (by rw [hlookup]; rfl)
    have hlast : true ∉ f'.m_valid ++ [false] := by
      rw [List.mem_append, List.mem_singleton]
      exact not_or.mpr ⟨hvalid', by decide⟩
    rw [hrun, Except.ok_bind, if_neg (by rwa [hcol'])]
    refine .inr ⟨_, rfl, ?_, hlog'.column hfresh' rfl hkeep rfl rfl rfl, ⟨fun hoff => ?_, fun hsome => ?_⟩,
      hj'.trans hj, hby'.trans hby⟩
    · refine hcolumns.add hnot rfl ?_ (congrArg (· ++ [none]) hbuf') hevent'
      exact congrArg₂ (fun s (b : List (Option V)) => AList.insert _ b.length s) hcol' hbuf'
    · exact ⟨hlast, (htimely'.idle hoff).2⟩
    · rw [dates_concat]
      exact List.mem_append_left _ (htimely'.last (.inr (hsome.resolve_left hlast)))

/-- The date of a call is not before that of the lines. -/
theorem Timely.le (h : Timely f calls) (hlog : Log f t calls) (hcalled : WellCalled (calls ++ [c]))
    {time : T} (hc : c.date = some time) : ∀ line ∈ f.m_file, line.date ≤ time := by
  intro line hline
  have hlast := h.last (.inr (List.ne_nil_of_mem hline))
  exact (hlog.le line hline).trans (hcalled.le_last hlast hc)

/-- A value keeps the invariant. -/
theorem onValue_run (h : Kept m_julian m_flushbybag f t calls) {simulator parent port : String}
    {time : T} {value : Option V} (hc : c = .onValue simulator parent port time value)
    (hcalled : WellCalled (calls ++ [c])) (hmeets : f.Meets c) :
    (f.call toJulianDay c = .error badJulianDay ∧ m_julian = true) ∨
    ∃ f', f.call toJulianDay c = .ok f' ∧
      Kept m_julian m_flushbybag f' (t.call f.m_file.length f'.m_file.length c) (calls ++ [c]) := by
  obtain ⟨hcolumns, hlog, htimely, hj, hby⟩ := h
  have hdate : c.date = some time := by rw [hc]; rfl
  have hdates : time ∈ dates (calls ++ [c]) := by
    rw [dates_concat, hdate]
    exact List.mem_append_right _ (List.mem_singleton_self _)
  have hle := htimely.le hlog hcalled hdate
  have hobservable : c.observable = none := by rw [hc]; rfl
  by_cases hsimulator : simulator = ""
  · -- a call without an observable
    have hgiven : c.given = none := by rw [hc]; simp [Call.given, hsimulator]
    have hsame := hmeets hgiven time hdate
    have hrun : f.call toJulianDay c = .ok { f with m_time := time } := by
      rw [hc]
      simp [call, onValue, hsimulator]
    refine .inr ⟨_, hrun, ?_⟩
    have htally : t.call f.m_file.length f.m_file.length c = t := by
      simp [Tally.call, hgiven, Tally.printed]
    change Kept _ _ _ (t.call f.m_file.length f.m_file.length c) _
    rw [htally]
    exact ⟨hcolumns.keep hobservable rfl rfl rfl hcolumns.started, hlog.empty hgiven hsame hle,
      ⟨htimely.idle, fun _ => hdates⟩, hj, hby⟩
  · have hgiven : c.given = some ⟨buildname parent simulator port, time, value⟩ := by
      rw [hc]
      simp [Call.given, hsimulator]
    have hknown := hcolumns.mem.mpr (hcalled.known_last hgiven)
    obtain ⟨column, hlookup⟩ := Option.isSome_iff_exists.mp (AList.lookup_isSome.mpr hknown)
    have hlt := hcolumns.lt hlookup
    have hbuffer : f.m_buffer ≠ [] := List.ne_nil_of_length_pos (by omega)
    rcases beforeValue_run toJulianDay hcolumns hlog htimely hbuffer (buildname parent simulator port)
      time with ⟨herror, hjulian⟩ | ⟨f', hrun, hj', hby', hcol', hbuf', hevent', hstart', hfresh', hlog', hlast'⟩
    · refine .inl ⟨?_, hj ▸ hjulian⟩
      rw [hc]
      simp only [call, onValue, if_pos hsimulator, hlookup, herror]
      rfl
    · have hcall : f.call toJulianDay c = .ok { f'.setValue (buildname parent simulator port) column time
          value with m_time := time } := by
        rw [hc]
        simp only [call, onValue, if_pos hsimulator, hlookup, hrun, Except.ok_bind]
        rw [if_pos (by rwa [hbuf'])]
        rfl
      have htally : t.call f.m_file.length f'.m_file.length c =
          (t.printed f.m_file.length f'.m_file.length).give
            ⟨buildname parent simulator port, time, value⟩ := by
        simp only [Tally.call, hgiven]
      have hcolumns' : Columns f' calls := by
        refine ⟨?_, ?_, ?_, ?_, ?_, fun _ => hevent'⟩
        · rw [hcol', hbuf']
          exact hcolumns.lt
        · rw [hcol']
          exact hcolumns.inj
        · rw [hcol', hbuf', hcolumns.count]
        · rw [hcol']
          exact hcolumns.mem
        · exact iff_of_true hevent' (hbuf' ▸ hbuffer)
      refine .inr ⟨_, hcall, ?_⟩
      change Kept _ _ _ (t.call f.m_file.length f'.m_file.length c) _
      rw [htally]
      refine ⟨hcolumns'.keep hobservable rfl (List.length_set) rfl fun _ => hevent', ?_,
        ⟨fun hoff => ?_, fun _ => hdates⟩, hj'.trans hj, hby'.trans hby⟩
      · refine hlog'.give hcolumns' hgiven (hcol' ▸ hlookup) (by rwa [hby']) fun line hline => ?_
        have hmem := hlast' (List.ne_nil_of_mem hline)
        exact (hlog'.le line hline).trans (hcalled.le_last hmem hdate)
      · change f'.m_isstart = false at hoff
        rw [hstart'] at hoff
        cases hoff

/-- A call keeps the invariant. -/
theorem call_run (h : Kept m_julian m_flushbybag f t calls) (hcalled : WellCalled (calls ++ [c]))
    (hnew : (observables (calls ++ [c])).Nodup) (hmeets : f.Meets c) :
    (f.call toJulianDay c = .error badJulianDay ∧ m_julian = true) ∨
    ∃ f', f.call toJulianDay c = .ok f' ∧
      Kept m_julian m_flushbybag f' (t.call f.m_file.length f'.m_file.length c) (calls ++ [c]) := by
  cases hc : c with
  | onNewObservable simulator parent port time =>
    refine hc ▸ onNewObservable_run toJulianDay h hc ?_
    rw [observables_concat, hc] at hnew
    exact fun hmem => (List.nodup_append.mp hnew).2.2 _ hmem _ (List.mem_singleton_self _) rfl
  | onDelObservable simulator parent port time =>
    obtain ⟨hcolumns, hlog, htimely, hj, hby⟩ := h
    have htally : t.call f.m_file.length f.m_file.length (.onDelObservable simulator parent port time) = t := by
      simp [Tally.call, Call.given, Tally.printed]
    refine .inr ⟨f, rfl, ?_⟩
    rw [htally]
    refine ⟨hcolumns.keep rfl rfl rfl rfl hcolumns.started, ?_, ⟨htimely.idle, fun hsome => ?_⟩, hj, hby⟩
    · have hgiven : given (calls ++ [.onDelObservable simulator parent port time]) = given calls := by
        rw [given_concat]
        simp [Call.given]
      exact ⟨hlog.pending, hgiven ▸ hlog.placed, hgiven ▸ hlog.bags, hlog.sorted, hlog.le, hlog.dated⟩
    · rw [dates_concat]
      exact List.mem_append_left _ (htimely.last hsome)
  | onValue simulator parent port time value => exact hc ▸ onValue_run toJulianDay h hc hcalled hmeets

/-- A run keeps the invariant, or comes to a date without a julian day. -/
theorem run_kept {todo : List (Call T V)} {s : File T V × Tally T V} {calls : List (Call T V)}
    (h : Kept m_julian m_flushbybag s.1 s.2 calls) (hcalled : WellCalled (calls ++ todo))
    (hnew : (observables (calls ++ todo)).Nodup) (hmeets : Along (next toJulianDay) Meets s.1 todo) :
    (todo.foldlM (follow toJulianDay) s = .error badJulianDay ∧ m_julian = true) ∨
    ∃ s', todo.foldlM (follow toJulianDay) s = .ok s' ∧
      Kept m_julian m_flushbybag s'.1 s'.2 (calls ++ todo) := by
  induction todo generalizing s calls with
  | nil =>
    rw [List.append_nil]
    exact .inr ⟨s, rfl, h⟩
  | cons c todo ih =>
    have hsplit : calls ++ c :: todo = (calls ++ [c]) ++ todo := by
      rw [List.append_assoc, List.singleton_append]
    rw [hsplit] at hcalled hnew ⊢
    have hnew' : (observables (calls ++ [c])).Nodup := by
      unfold observables at hnew ⊢
      rw [List.filterMap_append] at hnew
      exact (List.nodup_append.mp hnew).1
    rw [List.foldlM_cons]
    unfold follow
    rcases call_run toJulianDay h hcalled.of_append hnew' hmeets.1 with
      ⟨herror, hj⟩ | ⟨f', hrun, hkept⟩
    · rw [herror]
      exact .inl ⟨rfl, hj⟩
    · rw [hrun]
      exact ih hkept hcalled hnew (hmeets.2 f' (by rw [next, hrun]; rfl))

/-- The columns have the names of their observables. -/
theorem heads_run (h : Columns f calls) :
    ∃ heads, Storage.writeAll Fault.outOfRange (f.m_columns.entries.map fun column => (column.2, column.1))
        (List.replicate f.m_columns.entries.length "") = .ok heads ∧
      ∀ name i, f.m_columns.lookup name = some i → heads[i]? = some name := by
  have hinside : ∀ w ∈ f.m_columns.entries.map fun column => (column.2, column.1),
      w.1 < (List.replicate f.m_columns.entries.length "").length := by
    intro w hw
    obtain ⟨column, hmem, rfl⟩ := List.mem_map.mp hw
    rw [List.length_replicate, h.count]
    exact h.lt (AList.mem_lookup_iff.mpr hmem)
  obtain ⟨heads, hheads⟩ := Storage.exists_writeAll Fault.outOfRange hinside
  refine ⟨heads, hheads, fun name i hlookup => Storage.writeAll_const hheads ?_ ?_⟩
  · intro w hw hi
    obtain ⟨column, hmem, rfl⟩ := List.mem_map.mp hw
    obtain rfl : column.2 = i := hi
    exact h.inj (AList.mem_lookup_iff.mpr hmem) hlookup
  · exact ⟨(i, name), List.mem_map.mpr ⟨⟨name, i⟩, AList.mem_lookup_iff.mp hlookup, rfl⟩, rfl⟩

/-- The file that is completed holds all that the invariant promises. -/
theorem finish_run (h : Kept m_julian m_flushbybag f t calls) (time : T) :
    (f.finish toJulianDay time = .error badJulianDay ∧ m_julian = true) ∨
    ∃ heads f', f.finish toJulianDay time = .ok (heads, f') ∧
      Complete m_flushbybag calls
        ⟨heads, f'.m_file, (t.printed f.m_file.length f'.m_file.length).written⟩ := by
  obtain ⟨hcolumns, hlog, htimely, hj, hby⟩ := h
  unfold finish finalFlush
  rcases flush_run toJulianDay hlog with
    ⟨herror, hjulian⟩ | ⟨f', hrun, hsame, hvalid, hfresh, hlog', -⟩
  · rw [herror]
    exact .inl ⟨rfl, hj ▸ hjulian⟩
  · have hcolumns' : Columns f' calls := by
      refine ⟨?_, ?_, ?_, ?_, ?_, ?_⟩
      · rw [hsame.m_columns, hsame.m_buffer]
        exact hcolumns.lt
      · rw [hsame.m_columns]
        exact hcolumns.inj
      · rw [hsame.m_columns, hsame.m_buffer, hcolumns.count]
      · rw [hsame.m_columns]
        exact hcolumns.mem
      · rw [hsame.m_havefirstevent, hsame.m_buffer]
        exact hcolumns.event
      · rw [hsame.m_havefirstevent, hsame.m_isstart]
        exact hcolumns.started
    obtain ⟨heads, hheads, hnames⟩ := heads_run hcolumns'
    refine .inr ⟨heads, f', ?_, ?_⟩
    · rw [hrun]
      simp only [Except.ok_bind, if_neg hvalid, Except.pure_eq, hheads]
    -- nothing is left to be written
    have hstands : ∀ g, g ∈ (t.printed f.m_file.length f'.m_file.length).fresh ∨ f'.Written g →
        Outcome.Stands ⟨heads, f'.m_file, (t.printed f.m_file.length f'.m_file.length).written⟩ g := by
      intro g hg
      rw [hfresh] at hg
      obtain ⟨line, hline, hdate, i, hlookup, hcell⟩ := hg.resolve_left (List.not_mem_nil)
      exact ⟨line, hline, hdate, i, hnames _ _ hlookup, hcell⟩
    refine ⟨fun done g todo hsplit htodo => ?_, hlog'.sorted, hlog'.dated, fun hbag g hg => ?_⟩
    · exact hstands g (hlog'.placed done g todo hsplit htodo)
    · exact hstands g (hlog'.bags (hsame.m_flushbybag.trans (hby.trans hbag)) g hg)

end Steps

/-- The invariant holds at the start. -/
theorem start_kept (m_julian m_flushbybag : Bool) :
    Kept m_julian m_flushbybag (start m_julian m_flushbybag : File T V) ⟨[], []⟩ [] where
  columns := by
    refine ⟨?_, ?_, rfl, ?_, ?_, ?_⟩ <;> simp [start, observables]
  log := by
    refine ⟨?_, ?_, ?_, .nil, ?_, .nil⟩ <;> simp [start, given]
  timely := by
    refine ⟨?_, ?_⟩ <;> simp [start]
  julian := rfl
  bybag := rfl

/-- Whatever a view observes, when each call without an observable comes at the date of what is still to
be written, no value is lost or misdated. Only a date without a julian day stops the plug-in. -/
theorem complete_of_meets (m_julian m_flushbybag : Bool) (calls : List (Call T V)) (time : T)
    (hcalled : WellCalled calls) (hnew : (observables calls).Nodup)
    (hmeets : Along (next toJulianDay) Meets (start m_julian m_flushbybag) calls) :
    (complete toJulianDay m_julian m_flushbybag calls time = .error badJulianDay ∧ m_julian = true) ∨
    ∃ o, complete toJulianDay m_julian m_flushbybag calls time = .ok o ∧
      Complete m_flushbybag calls o := by
  unfold complete
  rcases run_kept toJulianDay (s := (start m_julian m_flushbybag, ⟨[], []⟩)) (start_kept m_julian m_flushbybag)
    hcalled hnew hmeets with ⟨herror, hj⟩ | ⟨s, hrun, hkept⟩
  · rw [herror]
    exact .inl ⟨rfl, hj⟩
  · rw [hrun, Except.ok_bind]
    rcases finish_run toJulianDay hkept time with ⟨herror, hj⟩ | ⟨heads, f', hfinish, h⟩
    · rw [herror]
      exact .inl ⟨rfl, hj⟩
    · rw [hfinish]
      exact .inr ⟨_, rfl, h⟩

/-- The observable of a model that gives a value at date 1 and is deleted, after which the view calls
without an observable at date 2. -/
def deletedCalls : List (Call ℤ ℕ) :=
  [.onNewObservable "A" "" "p" 0, .onValue "A" "" "p" 1 (some 5), .onDelObservable "A" "" "p" 2,
    .onValue "" "" "" 2 none]

/-- A view calls so. -/
theorem wellCalled_deleted : WellCalled deletedCalls := by
  refine ⟨by decide, fun done c todo g hcalls hg => ?_⟩
  have hmem : (c, done.length) ∈ deletedCalls.zipIdx := by
    rw [hcalls, List.zipIdx_append, List.zipIdx_cons]
    simp
  simp only [deletedCalls, List.zipIdx_cons, List.zipIdx_nil, List.mem_cons, Prod.mk.injEq,
    List.not_mem_nil, or_false] at hmem
  rcases hmem with ⟨rfl, hd⟩ | ⟨rfl, hd⟩ | ⟨rfl, hd⟩ | ⟨rfl, hd⟩
  · cases hg
  · obtain ⟨b, rfl⟩ := List.length_eq_one_iff.mp hd
    cases hcalls
    cases hg
    decide
  · cases hg
  · cases hg

theorem complete_of_meets_value :
    (complete (fun _ => none) false true (deletedCalls.take 3) 3 = .error badJulianDay ∧ false = true) ∨
    ∃ o, complete (fun _ => none) false true (deletedCalls.take 3) 3 = .ok o ∧
      Complete true (deletedCalls.take 3) o :=
  complete_of_meets (fun _ => none) false true (deletedCalls.take 3) 3
    (show WellCalled (deletedCalls.take 3 ++ deletedCalls.drop 3) from wellCalled_deleted).of_append
    (by decide)
    ⟨by simp [Meets, Call.date], fun s hs => ⟨by simp [Meets, Call.given], fun s hs =>
      ⟨by simp [Meets, Call.date], fun s hs => trivial⟩⟩⟩

/-- The value is written with the date of the call without an observable. -/
theorem not_complete_deleted :
    ¬ ∀ calls : List (Call ℤ ℕ), WellCalled calls → (observables calls).Nodup → ∀ o,
      complete (fun _ => none) false true calls 3 = .ok o → Complete true calls o := by
  intro h
  have hrun : complete (fun _ => none) false true deletedCalls 3 =
      .ok ⟨[":A.p"], [⟨2, none, [some 5]⟩], [[⟨":A.p", 1, some 5⟩]]⟩ := by
    rfl
  have hall := h deletedCalls wellCalled_deleted (by decide) _ hrun
  obtain ⟨line, hline, hdate, -⟩ := hall.placed [] ⟨":A.p", 1, some 5⟩ [] rfl (by simp)
  rw [List.mem_singleton.mp hline] at hdate
  cases hdate

end File

end Vle.Oov
