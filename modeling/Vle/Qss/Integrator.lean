import Vle.Lib.Except
import Mathlib.Algebra.Order.Field.Basic

/-!
# The integrator

`Integrator` follows a trajectory whose derivative it is told, and answers when the trajectory reaches a
bound of the interval that it is told. It rebuilds its value from an archive of derivatives that it cuts
at each answer.

`Course` is the trajectory as it should be: the initial value plus the integral of the derivatives
received, and the interval received since the last answer. `Tracks` says that an integrator goes with a
course, between two events of a bag, and `Settled` what it has computed at the end of a bag. A member
that has not been set has no value.
-/

set_option linter.unusedSectionVars false

namespace Vle.Qss

open Lib

variable {K : Type} [Field K] [LinearOrder K] [IsStrictOrderedRing K]

namespace Integrator

inductive State where
  | INIT
  | WAIT_FOR_QUANTA
  | WAIT_FOR_X_DOT
  | WAIT_FOR_BOTH
  | RUNNING
  deriving DecidableEq, Repr

/-- How a transition fails. A member is uninitialised when it is read before it is set. -/
inductive Fault where
  | modellingError (format : String)
  | uninitialised
  | outOfRange
  deriving DecidableEq, Repr

/-- `record_t`. -/
structure Record (K : Type) where
  x_dot : K
  date : K

/-- The events, by the ports on which they come. -/
inductive Event (K : Type) where
  | Quanta (up down : K)
  | X_dot (d_val : K)
  | other

end Integrator

open Integrator

structure Integrator (K : Type) where
  m_state : Integrator.State
  m_has_output_port : Option Bool
  m_last_output_date : Option K
  m_upthreshold : Option K
  m_downthreshold : Option K
  m_last_output_value : Option K
  m_current_value : K
  m_expected_value : Option K
  archive : List (Integrator.Record K)

namespace Integrator

/-- The value of a member. -/
def read {α : Type} (member : Option α) : Except Fault α :=
  match member with
  | some a => .ok a
  | none => .error .uninitialised

/-- `archive.back()`. -/
def back (archive : List (Record K)) : Except Fault (Record K) :=
  match archive.getLast? with
  | some record => .ok record
  | none => .error .outOfRange

/-- The constructor, for a model with its input and output ports. -/
def construct (X_0 : Option K) (inputs outputs : List String) : Except Fault (Integrator K) :=
  if "X_dot" ∉ inputs then .error (.modellingError "Model %s has no ports %s")
  else if "Quanta" ∉ inputs then .error (.modellingError "Model %s has no ports %s")
  else .ok
    { m_state := .INIT
      m_has_output_port := if outputs ≠ [] then some true else none
      m_last_output_date := none
      m_upthreshold := none
      m_downthreshold := none
      m_last_output_value := none
      m_current_value := X_0.getD 0
      m_expected_value := none
      archive := [] }

/-- `init`, with the date that it returns. -/
def init (m : Integrator K) : Integrator K × K := ({ m with m_state := .INIT }, 0)

/-- The loop of `current_value`. -/
def advance (time : K) : List (Record K) → K → K
  | [], val => val
  | [r], val => val + (time - r.date) * r.x_dot
  | r :: r' :: l, val => advance time (r' :: l) (val + (r'.date - r.date) * r.x_dot)

def current_value (m : Integrator K) (time : K) : Except Fault K := do
  let val ← read m.m_last_output_value
  return advance time m.archive val

def expected_value (m : Integrator K) : Except Fault K := do
  let last ← back m.archive
  if last.x_dot = 0 then return m.m_current_value
  else if 0 < last.x_dot then read m.m_upthreshold
  else read m.m_downthreshold

/-- The loop of `externalTransition` over the events. -/
def receive (time : K) (m : Integrator K) : Event K → Integrator K
  | .Quanta up down =>
    { m with
      m_upthreshold := some up
      m_downthreshold := some down
      m_state :=
        match m.m_state with
        | .WAIT_FOR_QUANTA => .RUNNING
        | .WAIT_FOR_BOTH => .WAIT_FOR_X_DOT
        | state => state }
  | .X_dot d_val =>
    { m with
      archive := m.archive ++ [⟨d_val, time⟩]
      m_state :=
        match m.m_state with
        | .WAIT_FOR_X_DOT => .RUNNING
        | .WAIT_FOR_BOTH => .WAIT_FOR_QUANTA
        | state => state }
  | .other => m

/-- What `externalTransition` does after the events. -/
def refresh (time : K) (m : Integrator K) : Except Fault (Integrator K) :=
  if m.m_state = .RUNNING then do
    let m_current_value ← current_value m time
    let m := { m with m_current_value := m_current_value }
    let m_expected_value ← expected_value m
    return { m with m_expected_value := some m_expected_value }
  else return m

def externalTransition (events : List (Event K)) (time : K) (m : Integrator K) :
    Except Fault (Integrator K) :=
  refresh time (events.foldl (receive time) m)

def internalTransition (time : K) (m : Integrator K) : Except Fault (Integrator K) :=
  match m.m_state with
  | .RUNNING => do
    let m_expected_value ← read m.m_expected_value
    let last ← back m.archive
    return { m with
      m_last_output_value := some m_expected_value
      m_last_output_date := some time
      archive := [⟨last.x_dot, time⟩]
      m_current_value := m_expected_value
      m_state := .WAIT_FOR_QUANTA }
  | .INIT =>
    .ok { m with
      m_state := .WAIT_FOR_BOTH
      m_last_output_value := some m.m_current_value
      m_last_output_date := some time }
  | _ => .error (.modellingError "Integrator %s tries an internal transition in state %d")

/-- `output`: the values that are put on the output port. -/
def output (m : Integrator K) : Except Fault (List K) := do
  let m_has_output_port ← read m.m_has_output_port
  if m_has_output_port then
    match m.m_state with
    | .RUNNING => do
      let outval ← read m.m_expected_value
      return [outval]
    | .INIT => return [m.m_current_value]
    | _ => throw (.modellingError "Integrator %s tries an output transition in state %d ")
  else return []

/-- `timeAdvance`, which is nothing for the infinity. -/
def timeAdvance (m : Integrator K) : Except Fault (Option K) :=
  match m.m_state with
  | .RUNNING =>
    if m.archive.length < 1 then
      .error (.modellingError "Integrator %s in state RUNNING without x dot value aviable ")
    else do
      let last ← back m.archive
      if last.x_dot = 0 then return none
      else if 0 < last.x_dot then do
        let m_upthreshold ← read m.m_upthreshold
        if m_upthreshold - m.m_current_value < 0 then
          throw (.modellingError "Integrator %s erroneous Ta computation with positive x dot (%f)")
        else return some ((m_upthreshold - m.m_current_value) / last.x_dot)
      else do
        let m_downthreshold ← read m.m_downthreshold
        if 0 < m_downthreshold - m.m_current_value then
          throw (.modellingError "Integrator %s erroneous Ta computation with negative x dot (%f)")
        else return some ((m_downthreshold - m.m_current_value) / last.x_dot)
  | _ => .ok none

def confluentTransitions (time : K) (externals : List (Event K)) (m : Integrator K) :
    Except Fault (Integrator K) := do
  let m ← internalTransition time m
  externalTransition externals time m

/-! ## The kernel -/

/-- An integrator in the kernel: the date of its last transition, and that of its next internal event. -/
structure Driven (K : Type) where
  model : Integrator K
  date : K
  tn : Option K

/-- `Simulator::init`. -/
def start (m : Integrator K) (time : K) : Driven K := ⟨(init m).1, time, some ((init m).2 + time)⟩

/-- `Simulator::timeAdvance`, after a transition. -/
def schedule (time : K) (m : Integrator K) : Except Fault (Driven K) := do
  let ta ← timeAdvance m
  match ta with
  | some ta =>
    if ta < 0 then throw (.modellingError "Negative time advance in '%s' (%f)")
    else return ⟨m, time, some (ta + time)⟩
  | none => return ⟨m, time, none⟩

/-- The transition when the date of the internal event has come. -/
def dueTransition (time : K) (events : List (Event K)) (m : Integrator K) :
    Except Fault (Integrator K) :=
  if events = [] then internalTransition time m else confluentTransitions time events m

/-- A bag in which the integrator is: its output and its transition, which is internal, external or
confluent by whether its date has come and whether there are events. -/
def bag (d : Driven K) (time : K) (events : List (Event K)) : Except Fault (List K × Driven K) :=
  if d.tn = some time then do
    let outputs ← output d.model
    let m ← dueTransition time events d.model
    let d ← schedule time m
    return (outputs, d)
  else do
    let m ← externalTransition events time d.model
    let d ← schedule time m
    return ([], d)

/-! ## The trajectory -/

/-- The integral of the derivatives received up to a date, each from its date to that of the next one. -/
def integral : List (Record K) → K → K
  | [], _ => 0
  | [r], time => (time - r.date) * r.x_dot
  | r :: r' :: l, time => (r'.date - r.date) * r.x_dot + integral (r' :: l) time

/-- The last derivative received, which is zero before the first one. -/
def slope (received : List (Record K)) : K := (received.getLast?.map Record.x_dot).getD 0

/-- What an integrator should follow: whether it has given its initial value, the interval received since
its last output, with its bounds down and up, and the derivatives received. -/
structure Course (K : Type) where
  given : Bool
  interval : Option (K × K)
  received : List (Record K)

namespace Course

/-- The course before the first bag. -/
def first : Course K := ⟨false, none, []⟩

variable (X_0 : K)

/-- The trajectory. -/
def position (c : Course K) (time : K) : K := X_0 + integral c.received time

/-- The bound of the interval towards which the trajectory moves, when it has reached it. -/
def crossing (c : Course K) (time : K) : Option K :=
  match c.interval with
  | none => none
  | some (down, up) =>
    if 0 < slope c.received ∧ up ≤ position X_0 c time then some up
    else if slope c.received < 0 ∧ position X_0 c time ≤ down then some down
    else none

/-- What should be on the output port at a date. -/
def outputs (c : Course K) (time : K) : List K :=
  if c.given then (crossing X_0 c time).toList else [X_0]

/-- An event is received. -/
def receive (time : K) (c : Course K) : Event K → Course K
  | .Quanta up down => { c with interval := some (down, up) }
  | .X_dot d_val => { c with received := c.received ++ [⟨d_val, time⟩] }
  | .other => c

/-- A bag: no interval is left after an output. -/
def bag (c : Course K) (time : K) (events : List (Event K)) : Course K :=
  events.foldl (receive time)
    ⟨true, if outputs X_0 c time = [] then c.interval else none, c.received⟩

/-- The interval of an event contains the value at its arrival. -/
def Contains (c : Course K) (time : K) : Event K → Prop
  | .Quanta up down => down ≤ position X_0 c time ∧ position X_0 c time ≤ up
  | _ => True

end Course

/-- A bag that the kernel can make: its date is not before the last one nor after that of the internal
event, it has an event unless that date has come, and the intervals contain the value. -/
structure Enabled (X_0 : K) (d : Driven K) (c : Course K) (time : K) (events : List (Event K)) : Prop where
  after : d.date ≤ time
  before : ∀ tn, d.tn = some tn → time ≤ tn
  due : events = [] → d.tn = some time
  contains : ∀ e ∈ events, c.Contains X_0 time e

/-- The runs of an integrator, with its course. -/
inductive Run (X_0 : K) (d₀ : Driven K) : Driven K → Course K → Prop
  | start : Run X_0 d₀ d₀ Course.first
  | bag {d d' : Driven K} {c : Course K} {time : K} {events : List (Event K)} {outputs : List K}
      (h : Run X_0 d₀ d c) (henabled : Enabled X_0 d c time events)
      (hbag : bag d time events = .ok (outputs, d')) : Run X_0 d₀ d' (c.bag X_0 time events)

/-! ## Integrals -/

theorem advance_eq (time : K) (l : List (Record K)) (val : K) :
    advance time l val = val + integral l time := by
  induction l generalizing val with
  | nil => exact (add_zero val).symm
  | cons r l ih =>
    cases l with
    | nil => rfl
    | cons r' l => rw [advance, ih, integral, add_assoc]

theorem integral_concat (l : List (Record K)) (r : Record K) (time : K) :
    integral (l ++ [r]) time = integral l r.date + (time - r.date) * r.x_dot := by
  induction l with
  | nil => exact (zero_add _).symm
  | cons a l ih =>
    cases l with
    | nil => rfl
    | cons b l =>
      rw [List.cons_append, List.cons_append, integral, integral, add_assoc, ← ih]
      rfl

@[simp] theorem slope_concat (l : List (Record K)) (r : Record K) : slope (l ++ [r]) = r.x_dot := by
  unfold slope
  rw [List.getLast?_append]
  rfl

/-- Between two derivatives the integral goes along the last one. -/
theorem integral_add (l : List (Record K)) (t u : K) :
    integral l u = integral l t + (u - t) * slope l := by
  rcases List.eq_nil_or_concat' l with rfl | ⟨l, r, rfl⟩
  · simp [integral, slope]
  · rw [integral_concat, integral_concat, slope_concat]
    ring

theorem back_eq {l : List (Record K)} (hne : l ≠ []) : ∃ r, back l = .ok r ∧ r.x_dot = slope l := by
  refine ⟨l.getLast hne, ?_, ?_⟩
  · rw [back, List.getLast?_eq_some_getLast hne]
  · rw [slope, List.getLast?_eq_some_getLast hne]
    rfl

theorem position_add (X_0 : K) (c : Course K) (t u : K) :
    c.position X_0 u = c.position X_0 t + (u - t) * slope c.received := by
  rw [Course.position, Course.position, integral_add c.received t u, add_assoc]

/-! ## The date of the next output -/

/-- The date at which a trajectory that is in its interval reaches the bound towards which it moves. -/
def due (X_0 : K) (c : Course K) (date : K) : Option K :=
  match c.interval with
  | none => none
  | some (down, up) =>
    if slope c.received = 0 then none
    else if 0 < slope c.received then some ((up - c.position X_0 date) / slope c.received + date)
    else some ((down - c.position X_0 date) / slope c.received + date)

/-- The value when the next output comes. -/
def bound (X_0 : K) (c : Course K) (date down up : K) : K :=
  if slope c.received = 0 then c.position X_0 date else if 0 < slope c.received then up else down

section Due

variable {X_0 : K} {c : Course K} {date down up t : K}

/-- Up to the date, the trajectory stays in the interval. -/
theorem contains_of_le_due (hinterval : c.interval = some (down, up))
    (hin : down ≤ c.position X_0 date ∧ c.position X_0 date ≤ up) (hdate : date ≤ t)
    (hdue : ∀ tn, due X_0 c date = some tn → t ≤ tn) :
    down ≤ c.position X_0 t ∧ c.position X_0 t ≤ up := by
  rw [position_add X_0 c date t]
  unfold due at hdue
  rw [hinterval] at hdue
  simp only at hdue
  rcases lt_trichotomy (slope c.received) 0 with hneg | hzero | hpos
  · rw [if_neg hneg.ne, if_neg (not_lt.mpr hneg.le)] at hdue
    have hle := hdue _ rfl
    rw [← sub_le_iff_le_add, le_div_iff_of_neg hneg] at hle
    have := mul_nonpos_of_nonneg_of_nonpos (sub_nonneg.mpr hdate) hneg.le
    constructor <;> linarith
  · rw [hzero, mul_zero, add_zero]
    exact hin
  · rw [if_neg hpos.ne', if_pos hpos] at hdue
    have hle := hdue _ rfl
    rw [← sub_le_iff_le_add, le_div_iff₀ hpos] at hle
    have := mul_nonneg (sub_nonneg.mpr hdate) hpos.le
    constructor <;> linarith

/-- Before the date, no bound is reached. -/
theorem crossing_before (hdue : ∀ tn, due X_0 c date = some tn → t < tn) :
    c.crossing X_0 t = none := by
  unfold Course.crossing
  unfold due at hdue
  cases hinterval : c.interval with
  | none => rfl
  | some interval =>
    obtain ⟨down, up⟩ := interval
    rw [hinterval] at hdue
    simp only at hdue ⊢
    rw [position_add X_0 c date t]
    rcases lt_trichotomy (slope c.received) 0 with hneg | hzero | hpos
    · rw [if_neg hneg.ne, if_neg (not_lt.mpr hneg.le)] at hdue
      have hlt := hdue _ rfl
      rw [← sub_lt_iff_lt_add, lt_div_iff_of_neg hneg] at hlt
      rw [if_neg fun h => (h.1.trans hneg).false, if_neg fun h => by linarith [h.2]]
    · rw [if_neg (by rw [hzero]; exact fun h => h.1.false), if_neg (by rw [hzero]; exact fun h => h.1.false)]
    · rw [if_neg hpos.ne', if_pos hpos] at hdue
      have hlt := hdue _ rfl
      rw [← sub_lt_iff_lt_add, lt_div_iff₀ hpos] at hlt
      rw [if_neg fun h => by linarith [h.2], if_neg fun h => (h.1.trans hpos).false]

/-- At the date, which is not before the last one, the bound is reached. -/
theorem crossing_due (hinterval : c.interval = some (down, up))
    (hin : down ≤ c.position X_0 date ∧ c.position X_0 date ≤ up) (hdue : due X_0 c date = some t) :
    date ≤ t ∧ slope c.received ≠ 0 ∧ c.position X_0 t = bound X_0 c date down up ∧
      c.crossing X_0 t = some (bound X_0 c date down up) := by
  unfold due at hdue
  rw [hinterval] at hdue
  simp only at hdue
  have hposition := position_add X_0 c date t
  rcases lt_trichotomy (slope c.received) 0 with hneg | hzero | hpos
  · rw [if_neg hneg.ne, if_neg (not_lt.mpr hneg.le)] at hdue
    have ht := Option.some.inj hdue
    have hsub : (t - date) * slope c.received = down - c.position X_0 date := by
      rw [← ht, add_sub_cancel_right, div_mul_cancel₀ _ hneg.ne]
    have hvalue : c.position X_0 t = down := by
      rw [hposition, hsub]
      ring
    have hle : 0 ≤ (down - c.position X_0 date) / slope c.received :=
      div_nonneg_of_nonpos (sub_nonpos.mpr hin.1) hneg.le
    have hbound : bound X_0 c date down up = down := by
      rw [bound, if_neg hneg.ne, if_neg (not_lt.mpr hneg.le)]
    refine ⟨by linarith, hneg.ne, by rw [hvalue, hbound], ?_⟩
    unfold Course.crossing
    rw [hinterval, hbound]
    simp only
    rw [if_neg fun h => (h.1.trans hneg).false, if_pos ⟨hneg, hvalue.le⟩]
  · rw [if_pos hzero] at hdue
    cases hdue
  · rw [if_neg hpos.ne', if_pos hpos] at hdue
    have ht := Option.some.inj hdue
    have hsub : (t - date) * slope c.received = up - c.position X_0 date := by
      rw [← ht, add_sub_cancel_right, div_mul_cancel₀ _ hpos.ne']
    have hvalue : c.position X_0 t = up := by
      rw [hposition, hsub]
      ring
    have hle : 0 ≤ (up - c.position X_0 date) / slope c.received :=
      div_nonneg (sub_nonneg.mpr hin.2) hpos.le
    have hbound : bound X_0 c date down up = up := by
      rw [bound, if_neg hpos.ne', if_pos hpos]
    refine ⟨by linarith, hpos.ne', by rw [hvalue, hbound], ?_⟩
    unfold Course.crossing
    rw [hinterval, hbound]
    simp only
    rw [if_pos ⟨hpos, hvalue.ge⟩]

end Due

/-! ## Following a course -/

/-- The state of an integrator that has given its initial value. -/
def stateOf (c : Course K) : State :=
  if c.received = [] then if c.interval = none then .WAIT_FOR_BOTH else .WAIT_FOR_X_DOT
  else if c.interval = none then .WAIT_FOR_QUANTA else .RUNNING

/-- An integrator goes with its course at a date: its archive gives the trajectory from its last output
on, and its thresholds are the interval, which contains the value. -/
structure Tracks (X_0 : K) (m : Integrator K) (c : Course K) (time : K) : Prop where
  port : m.m_has_output_port = some true
  given : c.given = true
  state : m.m_state = stateOf c
  value : ∃ v, m.m_last_output_value = some v ∧
    ∀ u, v + integral m.archive u = c.position X_0 u
  slope : slope m.archive = slope c.received
  empty : m.archive = [] ↔ c.received = []
  thresholds : ∀ down up, c.interval = some (down, up) →
    m.m_downthreshold = some down ∧ m.m_upthreshold = some up
  contains : ∀ down up, c.interval = some (down, up) →
    down ≤ c.position X_0 time ∧ c.position X_0 time ≤ up

/-- At the end of a bag an integrator that runs knows its value, and the next one that it puts out. -/
structure Settled (X_0 : K) (d : Driven K) (c : Course K) : Prop where
  tracks : Tracks X_0 d.model c d.date
  current : d.model.m_state = .RUNNING → d.model.m_current_value = c.position X_0 d.date
  expected : d.model.m_state = .RUNNING → ∀ down up, c.interval = some (down, up) →
    d.model.m_expected_value = some (bound X_0 c d.date down up)
  tn : d.tn = due X_0 c d.date

section Tracks

variable {X_0 time : K} {m : Integrator K} {c : Course K} {d : Driven K}

theorem Tracks.current_value (h : Tracks X_0 m c time) (u : K) :
    current_value m u = .ok (c.position X_0 u) := by
  obtain ⟨v, hv, hposition⟩ := h.value
  rw [Integrator.current_value, hv, ← hposition u, ← advance_eq]
  rfl

theorem position_receive (c : Course K) (time : K) (e : Event K) :
    (c.receive time e).position X_0 time = c.position X_0 time := by
  cases e with
  | Quanta up down => rfl
  | X_dot d_val =>
    unfold Course.receive Course.position
    rw [integral_concat, sub_self, zero_mul, add_zero]
  | other => rfl

/-- An event that an integrator receives. -/
theorem Tracks.receive (h : Tracks X_0 m c time) {e : Event K} (he : c.Contains X_0 time e) :
    Tracks X_0 (m.receive time e) (c.receive time e) time := by
  obtain ⟨hport, hgiven, hstate, ⟨v, hv, hposition⟩, hslope, hempty, hthresholds, hcontains⟩ := h
  cases e with
  | Quanta up down =>
    refine ⟨hport, hgiven, ?_, ⟨v, hv, hposition⟩, hslope, hempty, ?_, ?_⟩
    · unfold Integrator.receive Course.receive stateOf
      simp only [hstate, stateOf, reduceCtorEq, if_false]
      by_cases hreceived : c.received = [] <;> by_cases hinterval : c.interval = none <;>
        simp [hreceived, hinterval]
    · rintro down' up' ⟨⟩
      exact ⟨rfl, rfl⟩
    · rintro down' up' ⟨⟩
      exact he
  | X_dot d_val =>
    refine ⟨hport, hgiven, ?_, ⟨v, hv, fun u => ?_⟩, ?_, ?_, hthresholds, fun down up hi => ?_⟩
    · unfold Integrator.receive Course.receive stateOf
      simp only [hstate, stateOf, List.append_eq_nil_iff, List.cons_ne_nil, and_false, if_false]
      by_cases hreceived : c.received = [] <;> by_cases hinterval : c.interval = none <;>
        simp [hreceived, hinterval]
    · change v + integral (m.archive ++ [⟨d_val, time⟩]) u =
        X_0 + integral (c.received ++ [⟨d_val, time⟩]) u
      rw [integral_concat, integral_concat, ← add_assoc, hposition, ← add_assoc]
      rfl
    · exact (slope_concat _ _).trans (slope_concat _ _).symm
    · unfold Integrator.receive Course.receive
      simp
    · rw [position_receive]
      exact hcontains down up hi
  | other => exact ⟨hport, hgiven, hstate, ⟨v, hv, hposition⟩, hslope, hempty, hthresholds, hcontains⟩

theorem contains_receive {e e' : Event K} (h : c.Contains X_0 time e) :
    (c.receive time e').Contains X_0 time e := by
  cases e with
  | Quanta up down =>
    unfold Course.Contains at *
    rw [position_receive]
    exact h
  | X_dot d_val => trivial
  | other => trivial

/-- The events of a bag. -/
theorem Tracks.foldl_receive (h : Tracks X_0 m c time) {events : List (Event K)}
    (hevents : ∀ e ∈ events, c.Contains X_0 time e) :
    Tracks X_0 (events.foldl (Integrator.receive time) m) (events.foldl (Course.receive time) c) time := by
  induction events generalizing m c with
  | nil => exact h
  | cons e events ih =>
    exact ih (h.receive (hevents e List.mem_cons_self)) fun e' he' =>
      contains_receive (hevents e' (List.mem_cons_of_mem _ he'))

theorem timeAdvance_of_ne (h : m.m_state ≠ .RUNNING) : timeAdvance m = .ok none := by
  unfold timeAdvance
  cases hstate : m.m_state with
  | RUNNING => exact absurd hstate h
  | INIT => rfl
  | WAIT_FOR_QUANTA => rfl
  | WAIT_FOR_X_DOT => rfl
  | WAIT_FOR_BOTH => rfl

theorem stateOf_eq_running : stateOf c = .RUNNING ↔ c.received ≠ [] ∧ c.interval ≠ none := by
  unfold stateOf
  by_cases hreceived : c.received = [] <;> by_cases hinterval : c.interval = none <;>
    simp [hreceived, hinterval]

/-- An integrator that does not run has no next date, as its course. -/
theorem due_of_ne (h : stateOf c ≠ .RUNNING) (date : K) : due X_0 c date = none := by
  rw [ne_eq, stateOf_eq_running] at h
  unfold due
  cases hinterval : c.interval with
  | none => rfl
  | some interval =>
    have hreceived : c.received = [] := by
      by_contra hne
      exact h ⟨hne, by rw [hinterval]; exact Option.some_ne_none _⟩
    have hslope : Integrator.slope c.received = 0 := by
      rw [hreceived]
      rfl
    exact if_pos hslope

/-- The date that an integrator computes is that at which its course reaches a bound. -/
theorem timeAdvance_run {down up : K} (hstate : m.m_state = .RUNNING) (harchive : m.archive ≠ [])
    (hslope : Integrator.slope m.archive = Integrator.slope c.received)
    (hinterval : c.interval = some (down, up))
    (hthresholds : m.m_downthreshold = some down ∧ m.m_upthreshold = some up)
    (hvalue : m.m_current_value = c.position X_0 time)
    (hin : down ≤ c.position X_0 time ∧ c.position X_0 time ≤ up) :
    ∃ ta, timeAdvance m = .ok ta ∧ (∀ x, ta = some x → 0 ≤ x) ∧
      ta.map (· + time) = due X_0 c time := by
  obtain ⟨r, hback, hr⟩ := back_eq harchive
  rw [hslope] at hr
  unfold timeAdvance due
  have hlength : ¬ m.archive.length < 1 := by
    have := List.length_pos_of_ne_nil harchive
    omega
  simp only [hstate, if_neg hlength, hback, Except.ok_bind, hr, hinterval, hthresholds.1, hthresholds.2,
    read, hvalue]
  rcases lt_trichotomy (Integrator.slope c.received) 0 with hneg | hzero | hpos
  · rw [if_neg hneg.ne, if_neg (not_lt.mpr hneg.le), if_neg (not_lt.mpr (sub_nonpos.mpr hin.1)),
      if_neg hneg.ne, if_neg (not_lt.mpr hneg.le)]
    refine ⟨_, rfl, ?_, rfl⟩
    rintro x ⟨⟩
    exact div_nonneg_of_nonpos (sub_nonpos.mpr hin.1) hneg.le
  · rw [if_pos hzero, if_pos hzero]
    exact ⟨none, rfl, nofun, rfl⟩
  · rw [if_neg hpos.ne', if_pos hpos, if_neg (not_lt.mpr (sub_nonneg.mpr hin.2)), if_neg hpos.ne',
      if_pos hpos]
    refine ⟨_, rfl, ?_, rfl⟩
    rintro x ⟨⟩
    exact div_nonneg (sub_nonneg.mpr hin.2) hpos.le

/-- The next date of an integrator in the kernel. -/
theorem schedule_run {ta : Option K} (h : timeAdvance m = .ok ta) (hta : ∀ x, ta = some x → 0 ≤ x) :
    schedule time m = .ok ⟨m, time, ta.map (· + time)⟩ := by
  unfold schedule
  rw [h, Except.ok_bind]
  cases ta with
  | none => rfl
  | some x =>
    simp only
    rw [if_neg (not_lt.mpr (hta x rfl))]
    rfl

/-- The end of a bag: an integrator that runs computes its value and its next output. -/
theorem Tracks.settle (h : Tracks X_0 m c time) : ∃ d', (refresh time m >>= schedule time) = .ok d' ∧
    Settled X_0 d' c ∧ d'.date = time := by
  unfold refresh
  by_cases hstate : m.m_state = .RUNNING
  · obtain ⟨hreceived, hsome⟩ := stateOf_eq_running.mp (h.state ▸ hstate)
    obtain ⟨⟨down, up⟩, hinterval⟩ := Option.ne_none_iff_exists'.mp hsome
    have harchive : m.archive ≠ [] := fun hnil => hreceived (h.empty.mp hnil)
    obtain ⟨r, hback, hr⟩ := back_eq harchive
    rw [h.slope] at hr
    have hthresholds := h.thresholds down up hinterval
    have hexpected : expected_value { m with m_current_value := c.position X_0 time } =
        .ok (bound X_0 c time down up) := by
      unfold expected_value bound
      simp only [hback, Except.ok_bind, hr, hthresholds.1, hthresholds.2, read]
      split_ifs <;> rfl
    rw [if_pos hstate, h.current_value, Except.ok_bind]
    simp only [hexpected, Except.ok_bind, Except.pure_eq]
    obtain ⟨ta, hta, hnonneg, hdue⟩ := timeAdvance_run (m := { m with
        m_current_value := c.position X_0 time
        m_expected_value := some (bound X_0 c time down up) })
      hstate harchive h.slope hinterval hthresholds rfl (h.contains down up hinterval)
    rw [schedule_run hta hnonneg]
    refine ⟨_, rfl, ⟨⟨h.port, h.given, h.state, h.value, h.slope, h.empty, h.thresholds, h.contains⟩,
      fun _ => rfl, fun _ down' up' hi => ?_, hdue⟩, rfl⟩
    rw [hinterval] at hi
    cases hi
    rfl
  · rw [if_neg hstate]
    simp only [Except.pure_eq, Except.ok_bind]
    rw [schedule_run (timeAdvance_of_ne hstate) nofun]
    refine ⟨_, rfl, ⟨h, fun hr => absurd hr hstate, fun hr => absurd hr hstate, ?_⟩, rfl⟩
    exact (due_of_ne (h.state ▸ hstate) time).symm

/-- An integrator that has given an output waits for an interval. -/
theorem Settled.internal (h : Settled X_0 d c) (htn : d.tn = some time) : ∃ b m',
    output d.model = .ok [b] ∧ c.crossing X_0 time = some b ∧
      internalTransition time d.model = .ok m' ∧ m'.m_state ≠ .RUNNING ∧
      Tracks X_0 m' ⟨true, none, c.received⟩ time := by
  obtain ⟨⟨hport, hgiven, hstate, hvalue, hslope, hempty, hthresholds, hcontains⟩, -, hexpected, htn'⟩ := h
  have hdue : due X_0 c d.date = some time := htn'.symm.trans htn
  have hrunning : d.model.m_state = .RUNNING := by
    by_contra hne
    rw [due_of_ne (hstate ▸ hne)] at hdue
    cases hdue
  obtain ⟨hreceived, hsome⟩ := stateOf_eq_running.mp (hstate ▸ hrunning)
  obtain ⟨⟨down, up⟩, hinterval⟩ := Option.ne_none_iff_exists'.mp hsome
  obtain ⟨-, -, hposition, hcrossing⟩ := crossing_due hinterval (hcontains down up hinterval) hdue
  have harchive : d.model.archive ≠ [] := fun hnil => hreceived (hempty.mp hnil)
  obtain ⟨r, hback, hr⟩ := back_eq harchive
  have hb := hexpected hrunning down up hinterval
  refine ⟨bound X_0 c d.date down up, { d.model with
      m_last_output_value := some (bound X_0 c d.date down up)
      m_last_output_date := some time
      archive := [⟨r.x_dot, time⟩]
      m_current_value := bound X_0 c d.date down up
      m_state := .WAIT_FOR_QUANTA }, ?_, hcrossing, ?_, State.noConfusion, ?_⟩
  · simp only [output, hport, hrunning, hb, read, Except.ok_bind, if_true]
    rfl
  · simp only [internalTransition, hrunning, hb, hback, read, Except.ok_bind]
    rfl
  · refine ⟨hport, rfl, ?_, ⟨_, rfl, fun u => ?_⟩, ?_, ?_, nofun, nofun⟩
    · change State.WAIT_FOR_QUANTA = stateOf _
      rw [stateOf, if_neg hreceived, if_pos rfl]
    · change bound X_0 c d.date down up + (u - time) * r.x_dot = c.position X_0 u
      rw [position_add X_0 c time u, ← hposition, hr, hslope]
    · exact hr.trans hslope
    · exact iff_of_false (List.cons_ne_nil _ _) hreceived

/-- An internal transition, which leaves an integrator that does not run, comes before the events. -/
theorem dueTransition_eq {m' : Integrator K} {events : List (Event K)}
    (h : internalTransition time m = .ok m') (hwaits : m'.m_state ≠ .RUNNING) :
    dueTransition time events m = refresh time (events.foldl (Integrator.receive time) m') := by
  unfold dueTransition
  split_ifs with hnil
  · subst hnil
    rw [h, List.foldl_nil, refresh, if_neg hwaits]
    rfl
  · rw [confluentTransitions, h]
    rfl

/-- An integrator that has given its initial value goes on with its course in a bag. -/
theorem Settled.bag (h : Settled X_0 d c) {events : List (Event K)}
    (henabled : Enabled X_0 d c time events) :
    ∃ d', bag d time events = .ok (c.outputs X_0 time, d') ∧
      Settled X_0 d' (c.bag X_0 time events) ∧ d'.date = time := by
  unfold Integrator.bag
  by_cases htn : d.tn = some time
  · obtain ⟨b, m', houtput, hcrossing, hinternal, hwaits, htracks⟩ := h.internal htn
    have houtputs : c.outputs X_0 time = [b] := by
      rw [Course.outputs, if_pos h.tracks.given, hcrossing]
      rfl
    have hcourse : c.bag X_0 time events =
        events.foldl (Course.receive time) ⟨true, none, c.received⟩ := by
      rw [Course.bag, houtputs, if_neg (List.cons_ne_nil _ _)]
    have hcontains : ∀ e ∈ events, (⟨true, none, c.received⟩ : Course K).Contains X_0 time e :=
      fun e he => by
        have := henabled.contains e he
        cases e with
        | Quanta up down => exact this
        | X_dot d_val => trivial
        | other => trivial
    obtain ⟨d', hrun, hsettled, hdate⟩ := (htracks.foldl_receive hcontains).settle
    refine ⟨d', ?_, hcourse ▸ hsettled, hdate⟩
    rw [if_pos htn, houtput, Except.ok_bind, dueTransition_eq hinternal hwaits]
    obtain ⟨m'', hrefresh, hschedule⟩ := Except.bind_eq_ok.mp hrun
    rw [hrefresh, Except.ok_bind, hschedule, houtputs]
    rfl
  · have hbefore : ∀ tn, due X_0 c d.date = some tn → time ≤ tn := fun tn hdue =>
      henabled.before tn (h.tn.trans hdue)
    have hstrict : ∀ tn, due X_0 c d.date = some tn → time < tn := fun tn hdue =>
      (hbefore tn hdue).lt_of_ne fun heq => htn (by rw [h.tn, hdue, heq])
    have houtputs : c.outputs X_0 time = [] := by
      rw [Course.outputs, if_pos h.tracks.given, crossing_before hstrict]
      rfl
    have hcourse : c.bag X_0 time events = events.foldl (Course.receive time) c := by
      rw [Course.bag, houtputs, if_pos rfl, ← h.tracks.given]
    obtain ⟨hport, hgiven, hstate, hvalue, hslope, hempty, hthresholds, hcontains⟩ := h.tracks
    have htracks : Tracks X_0 d.model c time :=
      ⟨hport, hgiven, hstate, hvalue, hslope, hempty, hthresholds, fun down up hinterval =>
        contains_of_le_due hinterval (hcontains down up hinterval) henabled.after hbefore⟩
    obtain ⟨d', hrun, hsettled, hdate⟩ := (htracks.foldl_receive henabled.contains).settle
    refine ⟨d', ?_, hcourse ▸ hsettled, hdate⟩
    obtain ⟨m'', hrefresh, hschedule⟩ := Except.bind_eq_ok.mp hrun
    rw [if_neg htn, externalTransition, hrefresh, Except.ok_bind, hschedule, houtputs]
    rfl

/-- An integrator gives its initial value in its first bag. -/
theorem first_bag (hport : m.m_has_output_port = some true) (hvalue : m.m_current_value = X_0)
    (harchive : m.archive = []) {t₀ : K} {events : List (Event K)}
    (henabled : Enabled X_0 (start m t₀) Course.first time events) :
    ∃ d', bag (start m t₀) time events = .ok ([X_0], d') ∧
      Settled X_0 d' (Course.first.bag X_0 time events) ∧ d'.date = time := by
  have htime : (start m t₀).tn = some time := by
    have hle := henabled.before (0 + t₀) rfl
    rw [zero_add] at hle
    have hdate : t₀ = time := le_antisymm henabled.after hle
    rw [← hdate, start]
    simp [init]
  obtain ⟨m', hinternal, hwaits, htracks⟩ : ∃ m', internalTransition time (start m t₀).model = .ok m' ∧
      m'.m_state ≠ .RUNNING ∧ Tracks X_0 m' (⟨true, none, []⟩ : Course K) time := by
    refine ⟨_, rfl, State.noConfusion, hport, rfl, rfl, ⟨X_0, ?_, fun u => ?_⟩, ?_, ?_, nofun, nofun⟩
    · exact congrArg some hvalue
    · change X_0 + integral m.archive u = X_0 + integral [] u
      rw [harchive]
    · change Integrator.slope m.archive = _
      rw [harchive]
    · exact iff_of_true harchive rfl
  have hcourse : Course.first.bag X_0 time events =
      events.foldl (Course.receive time) ⟨true, none, []⟩ := by
    rw [Course.bag, Course.outputs]
    simp [Course.first]
  have hcontains : ∀ e ∈ events, (⟨true, none, []⟩ : Course K).Contains X_0 time e := fun e he => by
    have := henabled.contains e he
    cases e with
    | Quanta up down => exact this
    | X_dot d_val => trivial
    | other => trivial
  obtain ⟨d', hrun, hsettled, hdate⟩ := (htracks.foldl_receive hcontains).settle
  refine ⟨d', ?_, hcourse ▸ hsettled, hdate⟩
  obtain ⟨m'', hrefresh, hschedule⟩ := Except.bind_eq_ok.mp hrun
  have houtput : output (start m t₀).model = .ok [X_0] := by
    simp only [output, start, init, hport, read, Except.ok_bind, if_true, hvalue]
    rfl
  rw [bag, if_pos htime, houtput, Except.ok_bind, dueTransition_eq hinternal hwaits, hrefresh,
    Except.ok_bind, hschedule]
  rfl

/-- What holds in the states of a run: there is no failure, the outputs are those of the course, and
there is one at the next date and none before. -/
structure Faithful (X_0 : K) (d : Driven K) (c : Course K) : Prop where
  bag : ∀ time events, Enabled X_0 d c time events →
    ∃ d', bag d time events = .ok (c.outputs X_0 time, d')
  silent : ∀ time, d.date ≤ time → (∀ tn, d.tn = some tn → time < tn) → c.outputs X_0 time = []
  due : ∀ tn, d.tn = some tn → d.date ≤ tn ∧
    c.outputs X_0 tn = [c.position X_0 tn]

/-- The value of an integrator is on the trajectory. -/
def Located (X_0 : K) (d : Driven K) (c : Course K) : Prop :=
  ∀ time, d.date ≤ time → current_value d.model time = .ok (c.position X_0 time)

theorem Settled.faithful (h : Settled X_0 d c) : Faithful X_0 d c where
  bag time events henabled := by
    obtain ⟨d', hrun, -, -⟩ := h.bag henabled
    exact ⟨d', hrun⟩
  silent time _ hbefore := by
    rw [Course.outputs, if_pos h.tracks.given, crossing_before fun tn hdue => hbefore tn (h.tn.trans hdue)]
    rfl
  due tn htn := by
    have hdue : Integrator.due X_0 c d.date = some tn := h.tn.symm.trans htn
    have hrunning : stateOf c = .RUNNING := by
      by_contra hne
      rw [due_of_ne hne] at hdue
      cases hdue
    obtain ⟨-, hsome⟩ := stateOf_eq_running.mp hrunning
    obtain ⟨⟨down, up⟩, hinterval⟩ := Option.ne_none_iff_exists'.mp hsome
    obtain ⟨hle, -, hposition, hcrossing⟩ :=
      crossing_due hinterval (h.tracks.contains down up hinterval) hdue
    refine ⟨hle, ?_⟩
    rw [Course.outputs, if_pos h.tracks.given, hcrossing, hposition]
    rfl

end Tracks

section Runs

variable {m : Integrator K} {x t₀ : K} {X_0 : Option K} {inputs outputs : List String} {d : Driven K}
  {c : Course K}

/-- What the constructor sets. -/
theorem construct_eq (hm : construct X_0 inputs outputs = .ok m) : m.m_state = .INIT ∧
    m.m_has_output_port = (if outputs ≠ [] then some true else none) ∧ m.m_current_value = X_0.getD 0 ∧
    m.m_last_output_value = none ∧ m.archive = [] := by
  unfold construct at hm
  split_ifs at hm <;> cases hm <;> simp_all

/-- A run of an integrator with an output port: it is before its first bag, or goes with its course. -/
theorem Run.settled (hport : m.m_has_output_port = some true) (hvalue : m.m_current_value = x)
    (harchive : m.archive = []) (h : Run x (Integrator.start m t₀) d c) :
    (d = Integrator.start m t₀ ∧ c = Course.first) ∨ Settled x d c := by
  induction h with
  | start => exact .inl ⟨rfl, rfl⟩
  | bag _ henabled hbag ih =>
    rcases ih with ⟨rfl, rfl⟩ | hsettled
    · obtain ⟨d', hrun, hsettled, -⟩ := first_bag hport hvalue harchive henabled
      rw [hrun] at hbag
      cases hbag
      exact .inr hsettled
    · obtain ⟨d', hrun, hsettled', -⟩ := hsettled.bag henabled
      rw [hrun] at hbag
      cases hbag
      exact .inr hsettled'

/-- Without an output port, the first bag reads a member that has not been set. -/
theorem bag_of_not_port (hport : m.m_has_output_port = none) {time : K} {events : List (Event K)}
    (henabled : Enabled x (start m t₀) Course.first time events) :
    bag (start m t₀) time events = .error .uninitialised := by
  have htime : (start m t₀).tn = some time := by
    have hle := henabled.before (0 + t₀) rfl
    rw [zero_add] at hle
    have hdate : t₀ = time := le_antisymm henabled.after hle
    rw [← hdate, start]
    simp [init]
  have houtput : output (start m t₀).model = .error .uninitialised := by
    simp only [output, start, init, hport, read, Except.error_bind]
  rw [bag, if_pos htime, houtput]
  rfl

theorem Run.first (hport : m.m_has_output_port = none) (h : Run x (Integrator.start m t₀) d c) :
    d = Integrator.start m t₀ ∧ c = Course.first := by
  induction h with
  | start => exact ⟨rfl, rfl⟩
  | bag _ henabled hbag ih =>
    obtain ⟨rfl, rfl⟩ := ih
    rw [bag_of_not_port hport henabled] at hbag
    cases hbag

theorem enabled_first (m : Integrator K) (t₀ : K) : Enabled x (start m t₀) Course.first t₀ [] where
  after := le_rfl
  before tn htn := by
    cases htn
    rw [init, zero_add]
  due _ := by rw [start, init, zero_add]
  contains := nofun

/-- Before its first bag an integrator has no value. -/
theorem not_located_start (hlast : m.m_last_output_value = none) :
    ¬ Located x (start m t₀) Course.first := fun h => by
  have := h t₀ le_rfl
  simp only [current_value, start, init, hlast, read, Except.error_bind] at this
  cases this

theorem faithful_start (hport : m.m_has_output_port = some true) (hvalue : m.m_current_value = x)
    (harchive : m.archive = []) : Faithful x (start m t₀) Course.first where
  bag time events henabled := by
    obtain ⟨d', hrun, -, -⟩ := first_bag hport hvalue harchive henabled
    exact ⟨d', hrun⟩
  silent time hafter hbefore := by
    have hlt := hbefore (0 + t₀) rfl
    rw [zero_add] at hlt
    exact absurd hafter (not_le.mpr hlt)
  due tn htn := by
    cases htn
    refine ⟨by rw [init, zero_add]; exact le_rfl, ?_⟩
    change [x] = [x + 0]
    rw [add_zero]

/-- In the states of the runs, an integrator does not fail and its outputs are those of the trajectory if
and only if it has an output port, and its value is on the trajectory if and only if it has made its
first transition. -/
theorem follows_iff (hm : construct X_0 inputs outputs = .ok m)
    (h : Run (X_0.getD 0) (start m t₀) d c) :
    (Faithful (X_0.getD 0) d c ↔ outputs ≠ []) ∧
      (Located (X_0.getD 0) d c ↔ d.model.m_state ≠ .INIT) := by
  obtain ⟨hstate, hport, hvalue, hlast, harchive⟩ := construct_eq hm
  by_cases houtputs : outputs ≠ []
  · rw [if_pos houtputs] at hport
    rcases h.settled hport hvalue harchive with ⟨rfl, rfl⟩ | hsettled
    · exact ⟨iff_of_true (faithful_start hport hvalue harchive) houtputs,
        iff_of_false (not_located_start hlast) fun h => h rfl⟩
    · refine ⟨iff_of_true hsettled.faithful houtputs, iff_of_true (fun time _ => ?_) ?_⟩
      · exact hsettled.tracks.current_value time
      · rw [hsettled.tracks.state]
        unfold stateOf
        split_ifs <;> exact State.noConfusion
  · rw [if_neg houtputs] at hport
    obtain ⟨rfl, rfl⟩ := h.first hport
    refine ⟨iff_of_false (fun hfaithful => ?_) houtputs, iff_of_false (not_located_start hlast) fun h => h rfl⟩
    obtain ⟨d', hrun⟩ := hfaithful.bag t₀ [] (enabled_first m t₀)
    rw [bag_of_not_port hport (enabled_first (x := X_0.getD 0) m t₀)] at hrun
    cases hrun

/-- An integrator that starts at one. -/
def one : Integrator ℚ :=
  ⟨.INIT, some true, none, none, none, none, 1, none, []⟩

/-- Its first bag. -/
theorem follows_iff_one : ∃ d c, Run 1 (start one 0) d c ∧ Faithful 1 d c ∧ Located 1 d c := by
  have hvalue : one.m_current_value = 1 := rfl
  obtain ⟨d, hrun, hsettled, -⟩ := first_bag (m := one) rfl hvalue rfl (enabled_first one 0)
  have h : Run 1 (start one 0) d (Course.first.bag 1 0 []) := .bag .start (enabled_first one 0) hrun
  have hm : construct (some (1 : ℚ)) ["X_dot", "Quanta"] ["I_out"] = .ok one := by
    simp [construct, one]
  obtain ⟨hfaithful, hlocated⟩ := follows_iff hm h
  refine ⟨d, _, h, hfaithful.mpr (by decide), hlocated.mpr ?_⟩
  rw [hsettled.tracks.state]
  decide

/-- Before its first bag, the value that it has given is not yet the one that it computes. -/
theorem not_located_one : construct (some (1 : ℚ)) ["X_dot", "Quanta"] ["I_out"] = .ok one ∧
    Run 1 (start one 0) (start one 0) Course.first ∧
    current_value (start one 0).model 0 = .error .uninitialised ∧ ¬ Located 1 (start one 0) Course.first :=
  ⟨by simp [construct, one], .start, rfl, not_located_start rfl⟩

end Runs

end Integrator

end Vle.Qss
