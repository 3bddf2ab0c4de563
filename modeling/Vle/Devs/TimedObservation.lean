import Mathlib.Algebra.Order.Floor.Semiring
import Mathlib.Data.Rat.Floor
import Vle.Devs.Scheduler
import Vle.Lib.Runs

/-!
# Timed observations

Between two bags `Coordinator::run` issues the observations of the timed views that are due before the
next one. A `Clock` is what it reads and sets of dates, with two lists that are no part of the code: the
dates of the observations, and the values that the current time takes. What the models do is open: a
bag may put simulators in the event table, at a date that is not before the current one since a negative
time advance is refused, and take others out.

The loop takes all the observations that are due at once, and puts those that are due again back after
them. So the observations of a gap come in rounds, the `k`-th of which has the `k`-th date of each view
(`mem_observeDue`), and they are in order exactly when no date of a round is after one of the next round
(`observeDue_sorted`).
-/

namespace Vle.Devs

open Vle.Lib Vle.Vpz

/-- A finite date. -/
def date (q : ℚ) : Time := ((q : WithTop ℚ) : WithBot (WithTop ℚ))

@[simp] theorem date_le_date {p q : ℚ} : date p ≤ date q ↔ p ≤ q := by
  simp [date]

@[simp] theorem date_lt_date {p q : ℚ} : date p < date q ↔ p < q := by
  simp [date]

namespace ViewEvent

/-- `update`: the next date of the view. -/
def update (e : ViewEvent) : ViewEvent := { e with time := e.time + e.timestep }

/-- The date of a view after so many updates. -/
def dateAt (e : ViewEvent) (k : ℕ) : ℚ := e.time + k * e.timestep

end ViewEvent

namespace TimedObservationScheduler

variable (pick : List ViewEvent → ℕ)

/-- Whether an observation comes before a date. -/
def before (time : Time) (t : ℚ) : Bool := date t < time

/-- Whether the top of the heap is due before a date. -/
def haveObservationAtTime (obs : List ViewEvent) (time : Time) : Bool :=
  (Queue.top (·.time) pick obs).any fun e => before time e.time

/-- The observations that are due before a date, and the others. -/
def getObservationAtTime (obs : List ViewEvent) (time : Time) : List ViewEvent × List ViewEvent :=
  Queue.popWhile (·.time) pick (before time) obs.length obs

end TimedObservationScheduler

open TimedObservationScheduler

/-- The `while` loop of `run`, so many turns at most: the observations of each turn, and those that are
not due. -/
def observeDue (pick : List ViewEvent → ℕ) (eatuntil : Time) :
    ℕ → List ViewEvent → List (List ViewEvent) × List ViewEvent
  | 0, obs => ([], obs)
  | n + 1, obs =>
    if haveObservationAtTime pick obs eatuntil then
      let (batch, rest) := getObservationAtTime pick obs eatuntil
      let (batches, obs) := observeDue pick eatuntil n (rest ++ batch.map ViewEvent.update)
      (batch :: batches, obs)
    else
      ([], obs)

/-- The values that the loop gives to the current time: the last date of each turn. -/
def backs (batches : List (List ViewEvent)) : List ℚ :=
  batches.filterMap fun obs => obs.getLast?.map (·.time)

/-- The turns that the loop needs at most up to the end, for positive timesteps. -/
def turns (durationTime : ℚ) (obs : List ViewEvent) : ℕ :=
  (obs.map fun e => ⌈(durationTime - e.time) / e.timestep⌉₊).sum

/-- What a bag does to the event table: a simulator is put at a date by its time advance, which is
none when it is infinite, or it is taken out. -/
inductive TableCall where
  | addInternal (simulator : SimId) (timeAdvance : Option ℚ)
  | erase (simulator : SimId)

/-- The event table after a call. A negative time advance is refused with an exception. -/
def TableCall.run (currentTime : Time) (table : List (SimId × Time)) :
    TableCall → Option (List (SimId × Time))
  | addInternal _ none => some table
  | addInternal id (some ta) =>
    if ta < 0 then none else some (table.filter (·.1 ≠ id) ++ [(id, date ta + currentTime)])
  | erase id => some (table.filter (·.1 ≠ id))

/-- The event table after the calls of a bag. -/
def runCalls (currentTime : Time) (table : List (SimId × Time)) (calls : List TableCall) :
    Option (List (SimId × Time)) :=
  calls.foldlM (TableCall.run currentTime) table

/-- `getNextTime`. -/
def nextTime (table : List (SimId × Time)) : Time := (table.map (·.2)).foldr min infinity

/-- What `Coordinator::run` reads and sets of dates; `tableTime` is the current time of the event
table, and `table` its heap. -/
structure Clock where
  bag : List SimId
  table : List (SimId × Time)
  tableTime : Time
  currentTime : Time
  durationTime : ℚ
  observations : List ViewEvent
  dates : List ℚ := []
  times : List Time

/-- What a step does beside the observations: the calls of its bag, and the simulators that
`dynamic_deletion` takes out after the observations. -/
structure Work where
  calls : List TableCall
  deleted : List SimId

namespace Clock

/-- `m_currentTime` takes these values one after the other. -/
def setCurrentTime (c : Clock) (times : List Time) : Clock :=
  { c with currentTime := times.getLast?.getD c.currentTime, times := c.times ++ times }

/-- The part of `run` between the bag and the next one. -/
def observeUntil (pick : List ViewEvent → ℕ) (c : Clock) (next : Time) : Clock :=
  let eatuntil := min next (date c.durationTime)
  let (batches, observations) := observeDue pick eatuntil (turns c.durationTime c.observations) c.observations
  let c := setCurrentTime
    { c with observations, dates := c.dates ++ batches.flatten.map (·.time) } ((backs batches).map date)
  if isInfinity next ∨ next > date c.durationTime then
    -- A final observation of each view.
    setCurrentTime { c with
      observations := []
      dates := c.dates ++ c.observations.map fun _ => c.durationTime } [date c.durationTime]
  else c

/-- `makeNextBag`, and the current time after it. -/
def makeNextBag (c : Clock) : Clock :=
  let time := nextTime c.table
  setCurrentTime { c with
    bag := (c.table.filter (·.2 = time)).map (·.1)
    table := c.table.filter (·.2 ≠ time)
    tableTime := time } [time]

/-- The date of the bag of the next step. -/
def now (c : Clock) : Time := if c.bag ≠ [] then c.tableTime else c.currentTime

/-- `Coordinator::run`, unless an exception leaves it. -/
def run (pick : List ViewEvent → ℕ) (c : Clock) (w : Work) : Option Clock := do
  let table ← runCalls c.now c.table w.calls
  let next := nextTime table
  let c := setCurrentTime { c with table } [c.now]
  let c := if next > c.currentTime then c.observeUntil pick next else c
  return makeNextBag { c with table := c.table.filter fun e => e.1 ∉ w.deleted }

/-- `Coordinator::init` up to a date, with the timed views that are enabled, each with its timestep. -/
def init (current durationTime : ℚ) (views : List (String × ℚ)) (calls : List TableCall) :
    Option Clock := do
  let table ← runCalls (date current) [] calls
  return {
    bag := (table.filter (·.2 ≤ date current)).map (·.1)
    table := table.filter (¬ ·.2 ≤ date current)
    tableTime := date current
    currentTime := date current
    durationTime
    observations := views.map fun v => ⟨v.1, current, v.2⟩
    times := [date current] }

/-- The test of `RootCoordinator::run`, without which the simulation is over. -/
def Enabled (c : Clock) (_ : Work) : Prop :=
  ¬ isInfinity c.currentTime ∧ ¬ date c.durationTime < c.currentTime

instance (c : Clock) (w : Work) : Decidable (c.Enabled w) :=
  inferInstanceAs (Decidable (¬ _ ∧ ¬ _))

/-- The dates of the observations and the current time have never gone backwards. -/
def InOrder (c : Clock) : Prop := c.dates.Pairwise (· ≤ ·) ∧ c.times.Pairwise (· ≤ ·)

end Clock

/-- Up to a date, no date of a view is after the date that a view has one update later. -/
def InStep (eatuntil : Time) (obs : List ViewEvent) : Prop :=
  ∀ k, ∀ d ∈ obs, ∀ e ∈ obs, date (d.dateAt k) < eatuntil → date (e.dateAt (k + 1)) < eatuntil →
    d.dateAt k ≤ e.dateAt (k + 1)

/-- The step comes with a gap of this length whose observations are in order: the views are in step, and
those that are due first are not all before the bag. -/
def Work.Meets (c : Clock) (w : Work) : Prop :=
  ∀ table, runCalls c.now c.table w.calls = some table → c.now < nextTime table →
    InStep (min (nextTime table) (date c.durationTime)) c.observations ∧
    ((∃ e ∈ c.observations, date e.time < min (nextTime table) (date c.durationTime)) →
      ∃ e ∈ c.observations, date e.time < min (nextTime table) (date c.durationTime) ∧
        c.now ≤ date e.time)

/-! ## The rounds of a gap -/

theorem lt_until {p q : ℚ} {eatuntil : Time} (hpq : p ≤ q) (hq : date q < eatuntil) :
    date p < eatuntil :=
  lt_of_le_of_lt (date_le_date.mpr hpq) hq

namespace ViewEvent

@[simp] theorem dateAt_zero (e : ViewEvent) : e.dateAt 0 = e.time := by
  simp [dateAt]

theorem dateAt_update (e : ViewEvent) (k : ℕ) : e.update.dateAt k = e.dateAt (k + 1) := by
  simp only [dateAt, update, Nat.cast_add, Nat.cast_one]
  ring

/-- The dates of a view go forward. -/
theorem dateAt_le {e : ViewEvent} (he : 0 < e.timestep) {k l : ℕ} (hkl : k ≤ l) :
    e.dateAt k ≤ e.dateAt l := by
  have : (k : ℚ) * e.timestep ≤ l * e.timestep := by
    gcongr
  simp only [dateAt]
  linarith

end ViewEvent

section Rounds

variable (pick : List ViewEvent → ℕ) {eatuntil : Time} {obs : List ViewEvent} {n : ℕ}

theorem before_eq_true {t : ℚ} : before eatuntil t = true ↔ date t < eatuntil := by
  simp [before]

theorem before_of_le : ∀ a ∈ obs, ∀ b ∈ obs, a.time ≤ b.time → before eatuntil b.time = true →
    before eatuntil a.time = true := by
  intro a _ b _ hab hb
  rw [before_eq_true] at hb ⊢
  exact lt_until hab hb

/-- The loop goes on when something is due. -/
theorem haveObservationAtTime_iff :
    haveObservationAtTime pick obs eatuntil = true ↔ ∃ e ∈ obs, date e.time < eatuntil := by
  unfold haveObservationAtTime
  rw [Queue.top_any (·.time) pick before_of_le]
  simp only [before_eq_true]

/-- The loop ends when nothing is due. -/
theorem observeDue_none (h : ∀ e ∈ obs, ¬ date e.time < eatuntil) :
    observeDue pick eatuntil n obs = ([], obs) := by
  cases n with
  | zero => rfl
  | succ n =>
    rw [observeDue, if_neg]
    rw [haveObservationAtTime_iff]
    exact fun ⟨e, he, hlt⟩ => h e he hlt

/-- A turn takes what is due, in the order of the dates, and puts it back with its next date. -/
theorem observeDue_some (h : ∃ e ∈ obs, date e.time < eatuntil) : ∃ batch rest,
    observeDue pick eatuntil (n + 1) obs =
      (batch :: (observeDue pick eatuntil n (rest ++ batch.map ViewEvent.update)).1,
        (observeDue pick eatuntil n (rest ++ batch.map ViewEvent.update)).2) ∧
    (∀ e, e ∈ batch ↔ e ∈ obs ∧ date e.time < eatuntil) ∧
    (∀ e, e ∈ rest ↔ e ∈ obs ∧ ¬ date e.time < eatuntil) ∧
    batch.Pairwise fun a b => a.time ≤ b.time := by
  refine ⟨(getObservationAtTime pick obs eatuntil).1, (getObservationAtTime pick obs eatuntil).2,
    ?_, fun e => ?_, fun e => ?_, (Queue.popWhile_spec (·.time) pick le_rfl before_of_le).2.2⟩
  · rw [observeDue, if_pos ((haveObservationAtTime_iff pick).mpr h)]
  · refine (Queue.mem_popWhile (·.time) pick le_rfl before_of_le).1.trans ?_
    rw [before_eq_true]
  · refine (Queue.mem_popWhile (·.time) pick le_rfl before_of_le).2.trans ?_
    rw [← before_eq_true, Bool.not_eq_true]

/-- The turns are enough: each view has a date that is not due after so many updates. -/
def Enough (eatuntil : Time) (n : ℕ) (obs : List ViewEvent) : Prop :=
  ∀ e ∈ obs, 0 < e.timestep ∧ eatuntil ≤ date (e.dateAt n)

/-- What is due goes on with its next date, and the rest with its own. -/
theorem Enough.next {batch rest : List ViewEvent} (h : Enough eatuntil (n + 1) obs)
    (hbatch : ∀ e, e ∈ batch ↔ e ∈ obs ∧ date e.time < eatuntil)
    (hrest : ∀ e, e ∈ rest ↔ e ∈ obs ∧ ¬ date e.time < eatuntil) :
    Enough eatuntil n (rest ++ batch.map ViewEvent.update) := by
  intro e he
  rcases List.mem_append.mp he with he | he
  · obtain ⟨hmem, hlt⟩ := (hrest e).mp he
    have hpos := (h e hmem).1
    refine ⟨hpos, (not_lt.mp hlt).trans (date_le_date.mpr ?_)⟩
    simpa using ViewEvent.dateAt_le hpos (Nat.zero_le n)
  · obtain ⟨d, hd, rfl⟩ := List.mem_map.mp he
    obtain ⟨hpos, hle⟩ := h d ((hbatch d).mp hd).1
    exact ⟨hpos, by rwa [ViewEvent.dateAt_update]⟩

/-- The dates of the observations of a gap are the dates of the views before its end. -/
theorem mem_observeDue (h : Enough eatuntil n obs) (q : ℚ) :
    q ∈ (observeDue pick eatuntil n obs).1.flatten.map (·.time) ↔
      ∃ e ∈ obs, ∃ k, date (e.dateAt k) < eatuntil ∧ q = e.dateAt k := by
  induction n generalizing obs with
  | zero =>
    refine ⟨fun hq => (by cases hq), fun ⟨e, he, k, hlt, hq⟩ => ?_⟩
    have hle := (h e he).2
    have := date_le_date.mpr (ViewEvent.dateAt_le (h e he).1 (Nat.zero_le k))
    exact absurd hlt (not_lt.mpr (hle.trans this))
  | succ n ih =>
    by_cases hdue : ∃ e ∈ obs, date e.time < eatuntil
    · obtain ⟨batch, rest, hobs, hbatch, hrest, -⟩ := observeDue_some pick (n := n) hdue
      rw [hobs, List.flatten_cons, List.map_append, List.mem_append, ih (h.next hbatch hrest)]
      constructor
      · rintro (hq | ⟨e, he, k, hlt, rfl⟩)
        · obtain ⟨e, he, rfl⟩ := List.mem_map.mp hq
          obtain ⟨hmem, hlt⟩ := (hbatch e).mp he
          exact ⟨e, hmem, 0, by simpa using hlt, by simp⟩
        · rcases List.mem_append.mp he with he | he
          · exact ⟨e, ((hrest e).mp he).1, k, hlt, rfl⟩
          · obtain ⟨d, hd, rfl⟩ := List.mem_map.mp he
            rw [ViewEvent.dateAt_update] at hlt ⊢
            exact ⟨d, ((hbatch d).mp hd).1, k + 1, hlt, rfl⟩
      · rintro ⟨e, he, k, hlt, rfl⟩
        have hfirst : date e.time < eatuntil :=
          lt_until (by simpa using ViewEvent.dateAt_le (h e he).1 (Nat.zero_le k)) hlt
        have hmem : e ∈ batch := (hbatch e).mpr ⟨he, hfirst⟩
        cases k with
        | zero => exact .inl (List.mem_map.mpr ⟨e, hmem, by simp⟩)
        | succ k =>
          refine .inr ⟨e.update, List.mem_append_right _ (List.mem_map_of_mem hmem), k, ?_⟩
          rw [ViewEvent.dateAt_update]
          exact ⟨hlt, rfl⟩
    · push Not at hdue
      rw [observeDue_none pick fun e he => not_lt.mpr (hdue e he)]
      refine ⟨fun hq => (by cases hq), fun ⟨e, he, k, hlt, hq⟩ => ?_⟩
      have := lt_until (by simpa using ViewEvent.dateAt_le (h e he).1 (Nat.zero_le k)) hlt
      exact absurd this (not_lt.mpr (hdue e he))

/-- What is left after a gap is due at its end or later. -/
theorem observeDue_rest (h : Enough eatuntil n obs) :
    ∀ e ∈ (observeDue pick eatuntil n obs).2, 0 < e.timestep ∧ eatuntil ≤ date e.time := by
  induction n generalizing obs with
  | zero => exact fun e he => ⟨(h e he).1, by simpa using (h e he).2⟩
  | succ n ih =>
    by_cases hdue : ∃ e ∈ obs, date e.time < eatuntil
    · obtain ⟨batch, rest, hobs, hbatch, hrest, -⟩ := observeDue_some pick (n := n) hdue
      rw [hobs]
      exact ih (h.next hbatch hrest)
    · push Not at hdue
      rw [observeDue_none pick fun e he => not_lt.mpr (hdue e he)]
      exact fun e he => ⟨(h e he).1, hdue e he⟩

/-- What is due after a turn was due in it. -/
theorem exists_update {batch rest : List ViewEvent} (h : Enough eatuntil (n + 1) obs)
    (hrest : ∀ e, e ∈ rest ↔ e ∈ obs ∧ ¬ date e.time < eatuntil) {e : ViewEvent} {k : ℕ}
    (he : e ∈ rest ++ batch.map ViewEvent.update) (hlt : date (e.dateAt k) < eatuntil) :
    ∃ d ∈ batch, d.update = e := by
  rcases List.mem_append.mp he with he | he
  · obtain ⟨hmem, hnot⟩ := (hrest e).mp he
    exact absurd (lt_until (by simpa using ViewEvent.dateAt_le (h e hmem).1 (Nat.zero_le k)) hlt) hnot
  · exact List.mem_map.mp he

/-- The first date of a view is due when a later one is. -/
theorem mem_batch {batch : List ViewEvent} (h : Enough eatuntil n obs)
    (hbatch : ∀ e, e ∈ batch ↔ e ∈ obs ∧ date e.time < eatuntil) {e : ViewEvent} (he : e ∈ obs) {k : ℕ}
    (hlt : date (e.dateAt k) < eatuntil) : e ∈ batch :=
  (hbatch e).mpr ⟨he, lt_until (by simpa using ViewEvent.dateAt_le (h e he).1 (Nat.zero_le k)) hlt⟩

/-- The observations of a gap are in order exactly when the views are in step up to its end. -/
theorem observeDue_sorted (h : Enough eatuntil n obs) :
    ((observeDue pick eatuntil n obs).1.flatten.map (·.time)).Pairwise (· ≤ ·) ↔ InStep eatuntil obs := by
  induction n generalizing obs with
  | zero =>
    refine ⟨fun _ k d hd e he hlt => ?_, fun _ => List.Pairwise.nil⟩
    have := date_le_date.mpr (ViewEvent.dateAt_le (h d hd).1 (Nat.zero_le k))
    exact absurd hlt (not_lt.mpr ((h d hd).2.trans this))
  | succ n ih =>
    by_cases hdue : ∃ e ∈ obs, date e.time < eatuntil
    · obtain ⟨batch, rest, hobs, hbatch, hrest, hsorted⟩ := observeDue_some pick (n := n) hdue
      have hnext := h.next hbatch hrest
      rw [hobs, List.flatten_cons, List.map_append, List.pairwise_append, ih hnext]
      constructor
      · rintro ⟨-, hstep, hcross⟩ k d hd e he hdlt helt
        have hdmem := mem_batch h hbatch hd hdlt
        have hemem := mem_batch h hbatch he helt
        cases k with
        | zero =>
          -- The next date of `e` is one of those that come after this turn.
          rw [ViewEvent.dateAt_zero]
          refine hcross d.time (List.mem_map_of_mem hdmem) _ ((mem_observeDue pick hnext _).mpr ?_)
          refine ⟨e.update, List.mem_append_right _ (List.mem_map_of_mem hemem), 0, ?_⟩
          rw [ViewEvent.dateAt_update]
          exact ⟨helt, rfl⟩
        | succ k =>
          have := hstep k d.update (List.mem_append_right _ (List.mem_map_of_mem hdmem)) e.update
            (List.mem_append_right _ (List.mem_map_of_mem hemem))
          simp only [ViewEvent.dateAt_update] at this
          exact this hdlt helt
      · intro hstep
        refine ⟨List.pairwise_map.mpr hsorted, fun k d hd e he hdlt helt => ?_, fun a ha b hb => ?_⟩
        · obtain ⟨d, hdmem, rfl⟩ := exists_update h hrest hd hdlt
          obtain ⟨e, hemem, rfl⟩ := exists_update h hrest he helt
          simp only [ViewEvent.dateAt_update] at hdlt helt ⊢
          exact hstep (k + 1) d ((hbatch d).mp hdmem).1 e ((hbatch e).mp hemem).1 hdlt helt
        · obtain ⟨d, hdmem, rfl⟩ := List.mem_map.mp ha
          obtain ⟨e, he, k, hlt, rfl⟩ := (mem_observeDue pick hnext b).mp hb
          obtain ⟨e, hemem, rfl⟩ := exists_update h hrest he hlt
          rw [ViewEvent.dateAt_update] at hlt ⊢
          obtain ⟨hd, hdlt⟩ := (hbatch d).mp hdmem
          have he := ((hbatch e).mp hemem).1
          have hle : e.dateAt 1 ≤ e.dateAt (k + 1) := ViewEvent.dateAt_le (h e he).1 (by omega)
          have := hstep 0 d hd e he (by simpa using hdlt) (lt_until hle hlt)
          rw [ViewEvent.dateAt_zero] at this
          exact this.trans hle
    · push Not at hdue
      rw [observeDue_none pick fun e he => not_lt.mpr (hdue e he)]
      refine ⟨fun _ k d hd e he hlt => ?_, fun _ => List.Pairwise.nil⟩
      have := lt_until (by simpa using ViewEvent.dateAt_le (h d hd).1 (Nat.zero_le k)) hlt
      exact absurd this (not_lt.mpr (hdue d hd))

theorem backs_cons {batch : List ViewEvent} {e : ViewEvent} (hlast : batch.getLast? = some e)
    (batches : List (List ViewEvent)) : backs (batch :: batches) = e.time :: backs batches :=
  List.filterMap_cons_some (by rw [hlast]; rfl)

/-- The values that the loop gives to the current time are some of the dates of the observations, in the
order of these. -/
theorem backs_sublist (batches : List (List ViewEvent)) :
    (backs batches).Sublist (batches.flatten.map (·.time)) := by
  induction batches with
  | nil => exact List.Sublist.refl _
  | cons batch batches ih =>
    rw [List.flatten_cons, List.map_append]
    cases hlast : batch.getLast? with
    | none =>
      rw [backs, List.filterMap_cons_none (by simp [hlast])]
      exact ih.trans (List.sublist_append_right _ _)
    | some e =>
      rw [backs_cons hlast]
      have hmem : e.time ∈ batch.map (·.time) := List.mem_map_of_mem (List.mem_of_getLast? hlast)
      exact (List.singleton_sublist.mpr hmem).append ih

/-- When the observations of a gap are in order, the current time does not go back from `now` exactly
when those that are due first are not all before it. -/
theorem le_backs_iff (h : Enough eatuntil n obs) (hstep : InStep eatuntil obs) (now : Time) :
    (∀ q ∈ backs (observeDue pick eatuntil n obs).1, now ≤ date q) ↔
      ((∃ e ∈ obs, date e.time < eatuntil) → ∃ e ∈ obs, date e.time < eatuntil ∧ now ≤ date e.time) := by
  by_cases hdue : ∃ e ∈ obs, date e.time < eatuntil
  · cases n with
    | zero =>
      obtain ⟨e, he, hlt⟩ := hdue
      exact absurd hlt (not_lt.mpr (by simpa using (h e he).2))
    | succ n =>
      obtain ⟨batch, rest, hobs, hbatch, hrest, hsorted⟩ := observeDue_some pick (n := n) hdue
      have hall := (observeDue_sorted pick h).mpr hstep
      rw [hobs, List.flatten_cons, List.map_append, List.pairwise_append] at hall
      obtain ⟨e, he, hlt⟩ := hdue
      have hne : batch ≠ [] := List.ne_nil_of_mem ((hbatch e).mpr ⟨he, hlt⟩)
      have hlast : batch.getLast? = some (batch.getLast hne) := List.getLast?_eq_some_getLast hne
      have hbacks : backs (observeDue pick eatuntil (n + 1) obs).1 = (batch.getLast hne).time ::
          backs (observeDue pick eatuntil n (rest ++ batch.map ViewEvent.update)).1 := by
        rw [hobs, backs_cons hlast]
      have hmax : ∀ d ∈ batch, d.time ≤ (batch.getLast hne).time := by
        intro d hd
        rw [← List.dropLast_append_getLast hne] at hd hsorted
        rcases List.mem_append.mp hd with hd | hd
        · exact (List.pairwise_append.mp hsorted).2.2 d hd _ (List.mem_singleton_self _)
        · rw [List.mem_singleton.mp hd]
      rw [hbacks, List.forall_mem_cons]
      constructor
      · rintro ⟨hnow, -⟩ -
        obtain ⟨hmem, hltlast⟩ := (hbatch _).mp (List.getLast_mem hne)
        exact ⟨_, hmem, hltlast, hnow⟩
      · intro hexists
        obtain ⟨d, hd, hdlt, hnow⟩ := hexists ⟨e, he, hlt⟩
        have hdmem := (hbatch d).mpr ⟨hd, hdlt⟩
        refine ⟨hnow.trans (date_le_date.mpr (hmax d hdmem)), fun q hq => ?_⟩
        have hcross := hall.2.2 d.time (List.mem_map_of_mem hdmem) q ((backs_sublist _).subset hq)
        exact hnow.trans (date_le_date.mpr hcross)
  · refine iff_of_true (fun q hq => ?_) fun h => absurd h hdue
    push Not at hdue
    rw [observeDue_none pick fun e he => not_lt.mpr (hdue e he)] at hq
    cases hq

end Rounds

/-- The turns that the loop is given are enough up to any date before the end. -/
theorem enough_turns {obs : List ViewEvent} (hpos : ∀ e ∈ obs, 0 < e.timestep) (durationTime : ℚ)
    (next : Time) : Enough (min next (date durationTime)) (turns durationTime obs) obs := by
  intro e he
  refine ⟨hpos e he, (min_le_right _ _).trans (date_le_date.mpr ?_)⟩
  have hle : ⌈(durationTime - e.time) / e.timestep⌉₊ ≤ turns durationTime obs :=
    List.le_sum_of_mem (List.mem_map.mpr ⟨e, he, rfl⟩)
  have hceil : (durationTime - e.time) / e.timestep ≤ turns durationTime obs :=
    (Nat.le_ceil _).trans (by exact_mod_cast hle)
  rw [div_le_iff₀ (hpos e he)] at hceil
  rw [ViewEvent.dateAt]
  linarith

/-! ## The event table -/

theorem nextTime_le {table : List (SimId × Time)} {e : SimId × Time} (he : e ∈ table) :
    nextTime table ≤ e.2 := by
  induction table with
  | nil => cases he
  | cons d table ih =>
    rcases List.mem_cons.mp he with rfl | he
    · exact min_le_left _ _
    · exact (min_le_right _ _).trans (ih he)

theorem le_nextTime {table : List (SimId × Time)} {t : Time} (h : ∀ e ∈ table, t ≤ e.2) :
    t ≤ nextTime table := by
  induction table with
  | nil => exact le_top
  | cons d table ih =>
    exact le_min (h d List.mem_cons_self) (ih fun e he => h e (List.mem_cons_of_mem d he))

/-- A bag puts no simulator before the current time. -/
theorem runCalls_ahead {now : Time} {calls : List TableCall} {table table' : List (SimId × Time)}
    (h : ∀ e ∈ table, now ≤ e.2) (hrun : runCalls now table calls = some table') :
    ∀ e ∈ table', now ≤ e.2 := by
  induction calls generalizing table with
  | nil =>
    obtain rfl := Option.some.inj hrun
    exact h
  | cons call calls ih =>
    obtain ⟨table₁, hcall, hrest⟩ := Option.bind_eq_some_iff.mp hrun
    refine ih (fun e he => ?_) hrest
    cases call with
    | addInternal id ta =>
      cases ta with
      | none =>
        obtain rfl := Option.some.inj hcall
        exact h e he
      | some ta =>
        simp only [TableCall.run] at hcall
        split_ifs at hcall with hta
        obtain rfl := Option.some.inj hcall
        rcases List.mem_append.mp he with he | he
        · exact h e (List.mem_of_mem_filter he)
        · rw [List.mem_singleton.mp he]
          have hzero : (0 : Time) ≤ date ta := date_le_date.mpr (not_lt.mp hta)
          exact le_add_of_nonneg_left hzero
    | erase id =>
      obtain rfl := Option.some.inj hcall
      exact h e (List.mem_of_mem_filter he)

/-! ## Steps -/

namespace Clock

/-- What holds of a clock as long as its dates are in order: the current time is that of the event
table, all that has happened is past, and what is due comes after the observations made. -/
structure Inv (c : Clock) : Prop where
  current : c.currentTime = c.tableTime
  inOrder : c.InOrder
  last : ∀ t ∈ c.times, t ≤ c.currentTime
  past : ∀ q ∈ c.dates, date q ≤ c.currentTime
  due : ∀ q ∈ c.dates, ∀ e ∈ c.observations, q ≤ e.time
  within : ∀ q ∈ c.dates, q ≤ c.durationTime
  positive : ∀ e ∈ c.observations, 0 < e.timestep
  ahead : ∀ e ∈ c.table, c.currentTime ≤ e.2

theorem Inv.now_eq {c : Clock} (h : c.Inv) : c.now = c.currentTime := by
  rw [now, h.current]
  split_ifs <;> rfl

/-- What a step makes of a clock: the bag, the gap after it unless the next bag is at the same date, and
the next bag. -/
theorem run_eq_some {pick : List ViewEvent → ℕ} {c c' : Clock} {w : Work}
    (h : c.run pick w = some c') : ∃ table c₁, runCalls c.now c.table w.calls = some table ∧
      c₁ = (if nextTime table > c.now then
        observeUntil pick (setCurrentTime { c with table } [c.now]) (nextTime table)
        else setCurrentTime { c with table } [c.now]) ∧
      c' = makeNextBag { c₁ with table := c₁.table.filter fun e => e.1 ∉ w.deleted } := by
  obtain ⟨table, htable, h⟩ := Option.bind_eq_some_iff.mp h
  exact ⟨table, _, htable, rfl, (Option.some.inj h).symm⟩

/-- What is known of a clock before the next bag: all that is in order before `next`. -/
structure Before (c : Clock) (next : Time) : Prop where
  inOrder : c.InOrder
  last : ∀ t ∈ c.times, t ≤ next
  past : ∀ q ∈ c.dates, date q ≤ next
  due : ∀ q ∈ c.dates, ∀ e ∈ c.observations, q ≤ e.time
  within : ∀ q ∈ c.dates, q ≤ c.durationTime
  positive : ∀ e ∈ c.observations, 0 < e.timestep
  ahead : ∀ e ∈ c.table, next ≤ e.2

theorem pairwise_append_singleton {l : List Time} {t : Time} (hl : l.Pairwise (· ≤ ·))
    (h : ∀ x ∈ l, x ≤ t) : (l ++ [t]).Pairwise (· ≤ ·) := by
  refine List.pairwise_append.mpr ⟨hl, List.pairwise_singleton _ _, fun x hx y hy => ?_⟩
  rw [List.mem_singleton.mp hy]
  exact h x hx

/-- The next bag keeps everything in order, whichever simulators are taken out before it. -/
theorem Before.makeNextBag {c : Clock} {next : Time} (h : c.Before next) (deleted : List SimId) :
    (makeNextBag { c with table := c.table.filter fun e => e.1 ∉ deleted }).Inv := by
  set table := c.table.filter fun e => e.1 ∉ deleted
  have hnext : next ≤ nextTime table :=
    le_nextTime fun e he => h.ahead e (List.mem_of_mem_filter he)
  refine ⟨rfl, ⟨h.inOrder.1, pairwise_append_singleton h.inOrder.2 fun t ht => (h.last t ht).trans hnext⟩,
    fun t ht => ?_, fun q hq => (h.past q hq).trans hnext, h.due, h.within, h.positive, fun e he => ?_⟩
  · rcases List.mem_append.mp ht with ht | ht
    · exact (h.last t ht).trans hnext
    · rw [List.mem_singleton.mp ht]
      exact le_rfl
  · exact nextTime_le (List.mem_of_mem_filter he)

section Gap

variable {pick : List ViewEvent → ℕ} {c : Clock} {next : Time}

/-- The observations of the gap up to a date. -/
def gap (pick : List ViewEvent → ℕ) (c : Clock) (next : Time) : List (List ViewEvent) × List ViewEvent :=
  observeDue pick (min next (date c.durationTime)) (turns c.durationTime c.observations) c.observations

/-- What a gap makes of a clock: a final observation of each view is added when it is the last one. -/
theorem observeUntil_eq (pick : List ViewEvent → ℕ) (c : Clock) (next : Time) :
    ∃ final : List ℚ, ∃ ends : List Time,
      (observeUntil pick c next).dates = c.dates ++ ((gap pick c next).1.flatten.map (·.time) ++ final) ∧
      (observeUntil pick c next).times = c.times ++ ((backs (gap pick c next).1).map date ++ ends) ∧
      (observeUntil pick c next).table = c.table ∧
      (observeUntil pick c next).durationTime = c.durationTime ∧
      ((observeUntil pick c next).observations = (gap pick c next).2 ∧ final = [] ∧ ends = [] ∨
        (observeUntil pick c next).observations = [] ∧ (∀ q ∈ final, q = c.durationTime) ∧
        ends = [date c.durationTime] ∧ (isInfinity next ∨ next > date c.durationTime)) := by
  by_cases hend : isInfinity next ∨ next > date c.durationTime
  · refine ⟨(gap pick c next).2.map fun _ => c.durationTime, [date c.durationTime], ?_⟩
    simp [observeUntil, setCurrentTime, gap, hend]
  · refine ⟨[], [], ?_⟩
    simp [observeUntil, setCurrentTime, gap, hend]

/-- The gap after a bag is in order exactly when the views are in step and what is due first is not all
before the bag. -/
theorem observeUntil_inOrder_iff (h : c.Before c.currentTime) (hnow : c.currentTime ∈ c.times)
    (hend : c.currentTime ≤ date c.durationTime) :
    (observeUntil pick c next).InOrder ↔
      InStep (min next (date c.durationTime)) c.observations ∧
      ((∃ e ∈ c.observations, date e.time < min next (date c.durationTime)) →
        ∃ e ∈ c.observations, date e.time < min next (date c.durationTime) ∧
          c.currentTime ≤ date e.time) := by
  obtain ⟨final, ends, hdates, htimes, -, -, hcase⟩ := observeUntil_eq pick c next
  have henough := enough_turns h.positive c.durationTime next
  have hfinal : ∀ q ∈ final, q = c.durationTime := by
    rcases hcase with ⟨-, rfl, -⟩ | ⟨-, hfinal, -⟩
    · exact fun q hq => by cases hq
    · exact hfinal
  have hends : ∀ t ∈ ends, t = date c.durationTime := by
    rcases hcase with ⟨-, -, rfl⟩ | ⟨-, -, rfl, -⟩
    · exact fun t ht => by cases ht
    · exact fun t ht => List.mem_singleton.mp ht
  have hmem := mem_observeDue pick henough
  have hlt : ∀ q ∈ (gap pick c next).1.flatten.map (·.time), q ≤ c.durationTime := by
    intro q hq
    obtain ⟨e, -, k, hk, rfl⟩ := (hmem q).mp hq
    exact date_le_date.mp (hk.le.trans (min_le_right _ _))
  constructor
  · rintro ⟨hdatesorted, htimesorted⟩
    rw [hdates] at hdatesorted
    rw [htimes] at htimesorted
    have hsorted : ((gap pick c next).1.flatten.map (·.time)).Pairwise (· ≤ ·) :=
      (List.pairwise_append.mp (List.pairwise_append.mp hdatesorted).2.1).1
    have hstep := (observeDue_sorted pick henough).mp hsorted
    refine ⟨hstep, (le_backs_iff pick henough hstep c.currentTime).mp fun q hq => ?_⟩
    exact (List.pairwise_append.mp htimesorted).2.2 _ hnow _
      (List.mem_append_left _ (List.mem_map_of_mem hq))
  · rintro ⟨hstep, hfirst⟩
    have hsorted := (observeDue_sorted pick henough).mpr hstep
    have hbacks := (le_backs_iff pick henough hstep c.currentTime).mpr hfirst
    constructor
    · rw [hdates]
      refine List.pairwise_append.mpr ⟨h.inOrder.1, List.pairwise_append.mpr ⟨hsorted, ?_, ?_⟩, ?_⟩
      · exact List.pairwise_of_forall_mem_list fun a ha b hb => by rw [hfinal a ha, hfinal b hb]
      · exact fun a ha b hb => by rw [hfinal b hb]; exact hlt a ha
      · intro a ha b hb
        rcases List.mem_append.mp hb with hb | hb
        · obtain ⟨e, he, k, -, rfl⟩ := (hmem b).mp hb
          have := ViewEvent.dateAt_le (h.positive e he) (Nat.zero_le k)
          rw [ViewEvent.dateAt_zero] at this
          exact (h.due a ha e he).trans this
        · rw [hfinal b hb]
          exact h.within a ha
    · rw [htimes]
      have hbacksorted : ((backs (gap pick c next).1).map date).Pairwise (· ≤ ·) :=
        List.pairwise_map.mpr ((hsorted.sublist (backs_sublist _)).imp fun hab => date_le_date.mpr hab)
      have hbackslt : ∀ t ∈ (backs (gap pick c next).1).map date, t ≤ date c.durationTime := by
        intro t ht
        obtain ⟨q, hq, rfl⟩ := List.mem_map.mp ht
        exact date_le_date.mpr (hlt q ((backs_sublist _).subset hq))
      refine List.pairwise_append.mpr ⟨h.inOrder.2, List.pairwise_append.mpr ⟨hbacksorted, ?_, ?_⟩, ?_⟩
      · exact List.pairwise_of_forall_mem_list fun a ha b hb => by rw [hends a ha, hends b hb]
      · exact fun a ha b hb => by rw [hends b hb]; exact hbackslt a ha
      · intro a ha b hb
        refine (h.last a ha).trans ?_
        rcases List.mem_append.mp hb with hb | hb
        · obtain ⟨q, hq, rfl⟩ := List.mem_map.mp hb
          exact hbacks q hq
        · rw [hends b hb]
          exact hend

/-- After a gap that is in order everything is before the next bag. -/
theorem observeUntil_before (h : c.Before c.currentTime) (hnext : c.currentTime < next)
    (hahead : ∀ e ∈ c.table, next ≤ e.2)
    (hinOrder : (observeUntil pick c next).InOrder) : (observeUntil pick c next).Before next := by
  obtain ⟨final, ends, hdates, htimes, htable, hduration, hcase⟩ := observeUntil_eq pick c next
  have henough := enough_turns h.positive c.durationTime next
  have hmem := mem_observeDue pick henough
  have hrest := observeDue_rest pick henough
  have hlt : ∀ q ∈ (gap pick c next).1.flatten.map (·.time),
      date q < min next (date c.durationTime) := by
    intro q hq
    obtain ⟨e, -, k, hk, rfl⟩ := (hmem q).mp hq
    exact hk
  have hfinal : ∀ q ∈ final, q = c.durationTime ∧ date c.durationTime ≤ next := by
    rcases hcase with ⟨-, rfl, -⟩ | ⟨-, hfinal, -, hover⟩
    · exact fun q hq => by cases hq
    · refine fun q hq => ⟨hfinal q hq, ?_⟩
      rcases hover with hinf | hgt
      · simp only [isInfinity, decide_eq_true_eq] at hinf
        rcases hinf with rfl | rfl
        · exact le_top
        · exact absurd hnext not_lt_bot
      · exact hgt.le
  have hends : ∀ t ∈ ends, t ≤ next := by
    rcases hcase with ⟨-, -, rfl⟩ | ⟨-, -, rfl, hover⟩
    · exact fun t ht => by cases ht
    · intro t ht
      rw [List.mem_singleton.mp ht]
      rcases hover with hinf | hgt
      · simp only [isInfinity, decide_eq_true_eq] at hinf
        rcases hinf with rfl | rfl
        · exact le_top
        · exact absurd hnext not_lt_bot
      · exact hgt.le
  refine ⟨hinOrder, fun t ht => ?_, fun q hq => ?_, fun q hq e he => ?_, fun q hq => ?_,
    fun e he => ?_, fun e he => hahead e (htable ▸ he)⟩
  · rw [htimes] at ht
    rcases List.mem_append.mp ht with ht | ht
    · exact (h.last t ht).trans hnext.le
    · rcases List.mem_append.mp ht with ht | ht
      · obtain ⟨q, hq, rfl⟩ := List.mem_map.mp ht
        exact (hlt q ((backs_sublist _).subset hq)).le.trans (min_le_left _ _)
      · exact hends t ht
  · rw [hdates] at hq
    rcases List.mem_append.mp hq with hq | hq
    · exact (h.past q hq).trans hnext.le
    · rcases List.mem_append.mp hq with hq | hq
      · exact (hlt q hq).le.trans (min_le_left _ _)
      · obtain ⟨rfl, hle⟩ := hfinal q hq
        exact hle
  · rcases hcase with ⟨hobs, rfl, -⟩ | ⟨hobs, -⟩
    · rw [hobs] at he
      rw [hdates, List.append_nil] at hq
      refine date_le_date.mp (le_trans ?_ (hrest e he).2)
      rcases List.mem_append.mp hq with hq | hq
      · exact le_min ((h.past q hq).trans hnext.le) (date_le_date.mpr (h.within q hq))
      · exact (hlt q hq).le
    · rw [hobs] at he
      cases he
  · rw [hduration]
    rw [hdates] at hq
    rcases List.mem_append.mp hq with hq | hq
    · exact h.within q hq
    · rcases List.mem_append.mp hq with hq | hq
      · exact date_le_date.mp ((hlt q hq).le.trans (min_le_right _ _))
      · exact (hfinal q hq).1.le
  · rcases hcase with ⟨hobs, -⟩ | ⟨hobs, -⟩
    · rw [hobs] at he
      exact (hrest e he).1
    · rw [hobs] at he
      cases he

end Gap

/-- The clock after the bag. -/
theorem Inv.before {c : Clock} (h : c.Inv) {table : List (SimId × Time)}
    (hahead : ∀ e ∈ table, c.now ≤ e.2) :
    (setCurrentTime { c with table } [c.now]).Before c.now ∧
      (setCurrentTime { c with table } [c.now]).currentTime = c.now ∧
      c.now ∈ (setCurrentTime { c with table } [c.now]).times := by
  rw [h.now_eq] at hahead ⊢
  refine ⟨⟨⟨h.inOrder.1, pairwise_append_singleton h.inOrder.2 h.last⟩, fun t ht => ?_, h.past, h.due,
    h.within, h.positive, hahead⟩, rfl, List.mem_append_right _ (List.mem_singleton_self _)⟩
  rcases List.mem_append.mp ht with ht | ht
  · exact h.last t ht
  · exact (List.mem_singleton.mp ht).le

/-- A step of a simulation that goes on leaves the dates in order exactly when it meets its condition,
and then everything else is in order too. -/
theorem run_inOrder_iff {pick : List ViewEvent → ℕ} {c c' : Clock} {w : Work} (h : c.Inv)
    (henabled : c.Enabled w) (hrun : c.run pick w = some c') :
    (c'.InOrder ↔ w.Meets c) ∧ (w.Meets c → c'.Inv) := by
  obtain ⟨table, c₁, htable, rfl, rfl⟩ := run_eq_some hrun
  have hahead : ∀ e ∈ table, c.now ≤ e.2 :=
    runCalls_ahead (fun e he => h.now_eq ▸ h.ahead e he) htable
  obtain ⟨hbefore, hcurrent, hmem⟩ := h.before hahead
  set c₀ := setCurrentTime { c with table } [c.now]
  have hend : c₀.currentTime ≤ date c₀.durationTime := by
    rw [hcurrent, h.now_eq]
    exact not_lt.mp henabled.2
  by_cases hnext : nextTime table > c.now
  · rw [if_pos hnext]
    have hmeets : w.Meets c ↔ (observeUntil pick c₀ (nextTime table)).InOrder := by
      rw [observeUntil_inOrder_iff (hcurrent ▸ hbefore) (hcurrent ▸ hmem) hend, hcurrent]
      refine ⟨fun h => h table htable hnext, fun h table' htable' _ => ?_⟩
      obtain rfl : table = table' := Option.some.inj (htable.symm.trans htable')
      exact h
    have hinv : (observeUntil pick c₀ (nextTime table)).InOrder → _ := fun hinOrder =>
      (observeUntil_before (hcurrent ▸ hbefore) (hcurrent ▸ hnext) (fun e he => nextTime_le he)
        hinOrder).makeNextBag w.deleted
    refine ⟨⟨fun hinOrder => hmeets.mpr ⟨hinOrder.1, ?_⟩, fun hw => (hinv (hmeets.mp hw)).inOrder⟩,
      fun hw => hinv (hmeets.mp hw)⟩
    exact (List.pairwise_append.mp hinOrder.2).1
  · rw [if_neg hnext]
    have hinv := hbefore.makeNextBag w.deleted
    refine ⟨iff_of_true hinv.inOrder fun table' htable' hlt => ?_, fun _ => hinv⟩
    obtain rfl : table = table' := Option.some.inj (htable.symm.trans htable')
    exact absurd hlt hnext

/-- The views are opened at the date at which the simulation starts. -/
theorem init_inv {current durationTime : ℚ} {views : List (String × ℚ)} {calls : List TableCall}
    {c : Clock} (hviews : ∀ v ∈ views, 0 < v.2) (h : init current durationTime views calls = some c) :
    c.Inv := by
  obtain ⟨table, htable, h⟩ := Option.bind_eq_some_iff.mp h
  obtain rfl := Option.some.inj h
  refine ⟨rfl, ⟨List.Pairwise.nil, List.pairwise_singleton _ _⟩,
    fun t ht => (List.mem_singleton.mp ht).le, fun q hq => (by cases hq), fun q hq => (by cases hq),
    fun q hq => (by cases hq), fun e he => ?_, fun e he => ?_⟩
  · obtain ⟨v, hv, rfl⟩ := List.mem_map.mp he
    exact hviews v hv
  · exact runCalls_ahead (fun e he => (by cases he)) htable e (List.mem_of_mem_filter he)

/-- In every simulation, the dates of the observations and the current time have never gone backwards in
the clocks that come after its steps exactly when each step meets its condition. -/
theorem inOrder_along_iff (pick : List ViewEvent → ℕ) {current durationTime : ℚ}
    {views : List (String × ℚ)} {calls : List TableCall} (hviews : ∀ v ∈ views, 0 < v.2) {c : Clock}
    (hinit : init current durationTime views calls = some c) {works : List Work}
    (henabled : Along (run pick) Enabled c works) :
    Along (run pick) (fun c w => ∀ c', c.run pick w = some c' → c'.InOrder) c works ↔
      Along (run pick) (fun c w => ∀ c', c.run pick w = some c' → w.Meets c) c works := by
  refine along_iff (fun c w hc hw => forall₂_congr fun c' hrun => (run_inOrder_iff hc hw hrun).1)
    (fun c w c' hc hw hmeets hrun => (run_inOrder_iff hc hw hrun).2 (hmeets c' hrun))
    (init_inv hviews hinit) henabled

/-- One view of timestep 3, in a gap from 0 to 10. -/
theorem inOrder_along_iff_single :
    ∃ c, init 0 10 [("a", 3)] [] = some c ∧
      Along (run fun _ => 0) Enabled c [⟨[], []⟩] ∧
      (Along (run fun _ => 0) (fun c w => ∀ c', c.run (fun _ => 0) w = some c' → c'.InOrder) c
          [⟨[], []⟩] ↔
        Along (run fun _ => 0) (fun c w => ∀ c', c.run (fun _ => 0) w = some c' → w.Meets c) c
          [⟨[], []⟩]) := by
  obtain ⟨c, hc⟩ : ∃ c, init 0 10 [("a", 3)] [] = some c := ⟨_, rfl⟩
  have henabled : c.Enabled ⟨[], []⟩ := by
    obtain rfl := Option.some.inj hc
    decide +kernel
  have halong : Along (run fun _ => 0) Enabled c [⟨[], []⟩] := ⟨henabled, fun _ _ => trivial⟩
  have hviews : ∀ v ∈ [("a", (3 : ℚ))], 0 < v.2 := by
    decide +kernel
  exact ⟨c, hc, halong, inOrder_along_iff _ hviews hc halong⟩

/-- A view of timestep 1 and one of timestep 3 in a gap from 0 to 10: the observation at 3 of the second
comes before the observation at 2 of the first. -/
theorem not_inOrder_along :
    ¬ ∀ (pick : List ViewEvent → ℕ) (current durationTime : ℚ) (views : List (String × ℚ))
      (calls : List TableCall) (c : Clock) (works : List Work), (∀ v ∈ views, 0 < v.2) →
      init current durationTime views calls = some c → Along (run pick) Enabled c works →
      Along (run pick) (fun c w => ∀ c', c.run pick w = some c' → c'.InOrder) c works := by
  intro h
  obtain ⟨c, hc⟩ : ∃ c, init 0 10 [("a", 1), ("b", 3)] [] = some c := ⟨_, rfl⟩
  have henabled : c.Enabled ⟨[], []⟩ := by
    obtain rfl := Option.some.inj hc
    decide +kernel
  have hrun : (c.run (fun _ => 0) ⟨[], []⟩).any (fun c' => ¬ c'.dates.Pairwise (· ≤ ·)) = true := by
    obtain rfl := Option.some.inj hc
    decide +kernel
  obtain ⟨c', hc', hdates⟩ := (Option.any_eq_true _ _).mp hrun
  have hviews : ∀ v ∈ [("a", (1 : ℚ)), ("b", 3)], 0 < v.2 := by
    decide +kernel
  have hinOrder := (h (fun _ => 0) 0 10 _ [] c [⟨[], []⟩] hviews hc ⟨henabled, fun _ _ => trivial⟩).1 c' hc'
  exact of_decide_eq_true hdates hinOrder.1

end Clock

end Vle.Devs
