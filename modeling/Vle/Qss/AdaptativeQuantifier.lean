import Vle.Lib.While
import Mathlib.Algebra.Order.Floor.Ring
import Mathlib.Data.Rat.Floor

/-!
# The adaptative quantifier

`AdaptativeQuantifier` answers a value with an interval around it, and moves the interval by quanta when
a value leaves it. It keeps an archive of the moves. When the last moves go up and down in turn, one
bound of the interval is brought nearer by a part of a quantum that the dates of the archive give, and
the next value that leaves the interval starts again from scratch.

Its numbers are those of an ordered field with a floor function. The invariant (`Inv`) is that the
interval is the one of the step number unless a bound has been brought nearer, and that the dates of the
archive go up. The distance of a value from the middle of the interval is what the loop lowers
(`brackets`).
-/

set_option linter.unusedSectionVars false

namespace Vle.Qss

open Lib

variable {K : Type} [Field K] [LinearOrder K] [IsStrictOrderedRing K] [FloorRing K]

/-- How a transition fails. The last one is for a loop that has not ended. -/
inductive Fault where
  | modellingError (format : String)
  | divisionByZero
  | outOfRange
  | unfinished
  deriving DecidableEq, Repr

/-- A division, which fails where the divisor is zero. -/
def divide (a b : K) : Except Fault K := if b = 0 then .error .divisionByZero else .ok (a / b)

inductive State where
  | INIT
  | IDLE
  | RESPONSE
  deriving DecidableEq, Repr

inductive AdaptState where
  | IMPOSSIBLE
  | POSSIBLE
  | DONE
  deriving DecidableEq, Repr

inductive Direction where
  | UP
  | DOWN
  deriving DecidableEq, Repr

/-- `record_t`. -/
structure Record (K : Type) where
  value : K
  date : K

/-- The members that the constructor sets, with what it checks. -/
structure Parameters (K : Type) [Zero K] [LT K] where
  m_adaptative : Bool
  m_zero_init_offset : Bool
  m_step_size : K
  m_past_length : ℕ
  step_pos : 0 < m_step_size
  past_le : 3 ≤ m_past_length

/-- The members that the transitions change. -/
structure AdaptativeQuantifier (K : Type) where
  m_state : State
  m_adapt_state : AdaptState
  m_offset : K
  m_step_number : ℤ
  m_upthreshold : K
  m_downthreshold : K
  archive : List (Record K)

/-- The constructor, with the values of the events that there are. An archive length is an `int`, which
is made an `unsigned int`. -/
def construct (allow_offsets zero_init_offset : Option Bool) (quantum : Option K)
    (archive_length : Option ℤ) : Except Fault (Parameters K) :=
  let m_adaptative := allow_offsets.getD true
  let m_zero_init_offset := zero_init_offset.getD false
  let m_step_size := quantum.getD (1 / 10)
  if hstep : m_step_size ≤ 0 then
    .error (.modellingError
      "Bad quantum value (provided value : %f, should be strictly positive)")
  else
    let m_past_length := ((archive_length.getD 3) % 2 ^ 32).toNat
    if hpast : m_past_length ≤ 2 then
      .error (.modellingError "Bad archive length value ( provided value: %u, should at least 3)")
    else
      .ok ⟨m_adaptative, m_zero_init_offset, m_step_size, m_past_length, not_le.mp hstep,
        not_le.mp hpast⟩

/-- Each positive quantum and each archive length from three on are accepted. -/
theorem construct_run (allow_offsets zero_init_offset : Bool) {quantum : K} {archive_length : ℤ}
    (hquantum : 0 < quantum) (hlength : 3 ≤ archive_length ∧ archive_length < 2 ^ 31) :
    ∃ p, construct (some allow_offsets) (some zero_init_offset) (some quantum) (some archive_length) =
        .ok p ∧ p.m_adaptative = allow_offsets ∧ p.m_zero_init_offset = zero_init_offset ∧
      p.m_step_size = quantum ∧ (p.m_past_length : ℤ) = archive_length := by
  obtain ⟨n, rfl⟩ : ∃ n : ℕ, archive_length = n := ⟨archive_length.toNat, by omega⟩
  have hmod : ((n : ℤ) % 2 ^ 32).toNat = n := by omega
  unfold construct
  simp only [Option.getD_some, hmod]
  rw [dif_neg (not_le.mpr hquantum), dif_neg (by omega)]
  exact ⟨_, rfl, rfl, rfl, rfl, rfl⟩

namespace AdaptativeQuantifier

variable (p : Parameters K)

/-- `init`. The members that it leaves have the values that they had. -/
def init (s : AdaptativeQuantifier K) : AdaptativeQuantifier K :=
  { s with
    m_offset := 0
    m_state := .INIT }

/-- `update_thresholds`. -/
def update_thresholds (s : AdaptativeQuantifier K) : AdaptativeQuantifier K :=
  { s with
    m_upthreshold := s.m_offset + p.m_step_size * (s.m_step_number + 1)
    m_downthreshold := s.m_offset + p.m_step_size * (s.m_step_number - 1) }

/-- `update_thresholds` with a factor and a direction. -/
def shift_thresholds (factor : K) (d : Direction) (s : AdaptativeQuantifier K) :
    AdaptativeQuantifier K :=
  if d = .UP then
    { s with
      m_upthreshold := s.m_offset + p.m_step_size * (s.m_step_number + (1 - factor))
      m_downthreshold := s.m_offset + p.m_step_size * (s.m_step_number - 1) }
  else
    { s with
      m_upthreshold := s.m_offset + p.m_step_size * (s.m_step_number + 1)
      m_downthreshold := s.m_offset + p.m_step_size * (s.m_step_number - (1 - factor)) }

/-- `init_step_number_and_offset`. -/
def init_step_number_and_offset (value : K) (s : AdaptativeQuantifier K) : AdaptativeQuantifier K :=
  let m_step_number := ⌊value / p.m_step_size⌋
  { s with
    m_step_number := m_step_number
    m_offset := if p.m_zero_init_offset then 0 else value - m_step_number * p.m_step_size }

/-- No two moves that follow each other go the same way. -/
def alternate : List (Record K) → Bool
  | a :: b :: l => if 0 < a.value * b.value then false else alternate (b :: l)
  | _ => true

/-- `oscillating`, which looks at the last moves of the archive. -/
def oscillating (archive : List (Record K)) (range : ℕ) : Bool :=
  if archive.length < range + 1 then false else alternate (archive.drop (archive.length - range))

/-- The loop of `shift_quanta`, with the value of the last move, the sum and the counter. -/
def estimate (last : K) : List (Record K) → K → ℕ → Except Fault (K × ℕ)
  | a :: b :: c :: l, acc, cnt =>
    if c.date - a.date ≠ 0 then do
      let part ← divide (b.date - a.date) (c.date - a.date)
      let local_estim := if 0 < last * b.value then 1 - part else part
      estimate last (b :: c :: l) (acc + local_estim) (cnt + 1)
    else estimate last (b :: c :: l) acc cnt
  | _, acc, cnt => .ok (acc, cnt)

/-- `shift_quanta`: the factor, which is zero when there is no shift, and the archive that is left. -/
def shift_quanta (archive : List (Record K)) : Except Fault (K × List (Record K)) :=
  if oscillating archive (p.m_past_length - 1) then
    match archive.head?, archive.getLast? with
    | some front, some back =>
      if back.date - front.date ≠ 0 then do
        let (acc, cnt) ← estimate back.value archive 0 0
        let factor ← divide acc cnt
        return (factor, [])
      else return (0, archive)
    | _, _ => throw .outOfRange
  else return (0, archive)

/-- `store_change`, which drops the oldest moves. -/
def store_change (val time : K) (archive : List (Record K)) : List (Record K) :=
  let archive := archive ++ [⟨val, time⟩]
  archive.drop (archive.length - p.m_past_length)

/-- The condition of the loop. -/
def outside (val : K) (s : AdaptativeQuantifier K) : Bool :=
  s.m_upthreshold ≤ val ∨ val ≤ s.m_downthreshold

/-- The step number moves towards a value. -/
def move (val : K) (s : AdaptativeQuantifier K) : AdaptativeQuantifier K :=
  { s with m_step_number := if s.m_upthreshold ≤ val then s.m_step_number + 1 else s.m_step_number - 1 }

/-- The turn of the loop when a shift is possible, after the move. -/
def possible (time : K) (up : Bool) (s : AdaptativeQuantifier K) :
    Except Fault (AdaptativeQuantifier K) := do
  let stored := store_change p (if up then p.m_step_size else -p.m_step_size) time s.archive
  let (shifting_factor, archive) ← shift_quanta p stored
  let s := { s with archive := archive }
  if shifting_factor < 0 then
    throw (.modellingError "Bad shifting value (value : %f, should be strictly positive)\n")
  else if 1 < shifting_factor then
    throw (.modellingError "Bad shifting value (value : %f, should be less than 1)\n")
  else if shifting_factor ≠ 0 ∧ shifting_factor ≠ 1 then
    let s := shift_thresholds p shifting_factor (if up then .DOWN else .UP) s
    return { s with m_adapt_state := .DONE }
  else return update_thresholds p s

/-- A turn of the loop. -/
def turn (time val : K) (s : AdaptativeQuantifier K) : Except Fault (AdaptativeQuantifier K) :=
  match s.m_adapt_state with
  | .IMPOSSIBLE => .ok (update_thresholds p (move val s))
  | .POSSIBLE => possible p time (s.m_upthreshold ≤ val) (move val s)
  | .DONE =>
    let s := init_step_number_and_offset p val (move val s)
    .ok (update_thresholds p { s with m_adapt_state := .POSSIBLE })

/-- The part of `externalTransition` that treats one value. -/
def treat (fuel : ℕ) (time val : K) (s : AdaptativeQuantifier K) :
    Except Fault (AdaptativeQuantifier K) :=
  if s.m_state = .INIT then
    let s := update_thresholds p (init_step_number_and_offset p val s)
    .ok { s with m_state := .RESPONSE }
  else whileLoop .unfinished (outside val) (turn p time val) fuel s

/-- `externalTransition`, for the values of the events. -/
def externalTransition (fuel : ℕ) (time : K) (events : List K) (s : AdaptativeQuantifier K) :
    Except Fault (AdaptativeQuantifier K) := do
  let s ← events.foldlM (fun s val => treat p fuel time val s) s
  return { s with m_state := .RESPONSE }

/-- `internalTransition`. -/
def internalTransition (s : AdaptativeQuantifier K) : AdaptativeQuantifier K :=
  match s.m_state with
  | .INIT => s
  | .IDLE => s
  | .RESPONSE => { s with m_state := .IDLE }

/-- `confluentTransitions`. -/
def confluentTransitions (fuel : ℕ) (time : K) (externals : List K) (s : AdaptativeQuantifier K) :
    Except Fault (AdaptativeQuantifier K) :=
  externalTransition p fuel time externals (internalTransition s)

/-! ## Runs -/

/-- The states of a run, with the date of the last transition. There is an event in each bag. -/
inductive Reachable : K → AdaptativeQuantifier K → Prop
  | init {t : K} {s : AdaptativeQuantifier K} (harchive : s.archive = [])
      (hadapt : s.m_adapt_state = if p.m_adaptative then .POSSIBLE else .IMPOSSIBLE) :
      Reachable t (init s)
  | internal {t t' : K} {s : AdaptativeQuantifier K} (h : Reachable t s) (ht : t ≤ t') :
      Reachable t' (internalTransition s)
  | external {t t' : K} {s s' : AdaptativeQuantifier K} {fuel : ℕ} {events : List K}
      (h : Reachable t s) (ht : t ≤ t') (hevents : events ≠ [])
      (hrun : externalTransition p fuel t' events s = .ok s') :
      Reachable t' s'
  | confluent {t t' : K} {s s' : AdaptativeQuantifier K} {fuel : ℕ} {events : List K}
      (h : Reachable t s) (ht : t ≤ t') (hevents : events ≠ [])
      (hrun : confluentTransitions p fuel t' events s = .ok s') :
      Reachable t' s'

/-- The states between the turns of the loops at a date, whatever the values. -/
inductive Visited (time : K) (s : AdaptativeQuantifier K) : AdaptativeQuantifier K → Prop
  | start : Visited time s s
  | treat {u u' : AdaptativeQuantifier K} {fuel : ℕ} {val : K} (h : Visited time s u)
      (hrun : treat p fuel time val u = .ok u') : Visited time s u'
  | turn {u u' : AdaptativeQuantifier K} {val : K} (h : Visited time s u) (hstate : u.m_state ≠ .INIT)
      (hval : outside val u = true) (hrun : turn p time val u = .ok u') : Visited time s u'

/-- The interval is that of the step number, unless a bound has been brought nearer. The archive is that
of moves up to a date, in order. -/
structure Inv (t : K) (s : AdaptativeQuantifier K) : Prop where
  standard : s.m_state ≠ .INIT → s.m_adapt_state ≠ .DONE →
    s.m_upthreshold = s.m_offset + p.m_step_size * (s.m_step_number + 1) ∧
      s.m_downthreshold = s.m_offset + p.m_step_size * (s.m_step_number - 1)
  width : s.m_state ≠ .INIT →
    0 < s.m_upthreshold - s.m_downthreshold ∧ s.m_upthreshold - s.m_downthreshold ≤ 2 * p.m_step_size
  sorted : s.archive.Pairwise fun a b => a.date ≤ b.date
  past : ∀ r ∈ s.archive, r.date ≤ t

end AdaptativeQuantifier

namespace AdaptativeQuantifier

/-! ## The factor -/

/-- The loop over an archive whose dates go up sums as many parts of one as it counts, and counts some
unless all dates are the same. -/
theorem estimate_run (last : K) {l : List (Record K)} (hl : l.Pairwise fun a b => a.date ≤ b.date)
    (acc : K) (cnt : ℕ) : ∃ acc' k, estimate last l acc cnt = .ok (acc', cnt + k) ∧ acc ≤ acc' ∧
      acc' ≤ acc + k ∧ (k = 0 → 3 ≤ l.length → ∀ a ∈ l, ∀ b ∈ l, a.date = b.date) := by
  induction l generalizing acc cnt with
  | nil => exact ⟨acc, 0, rfl, le_rfl, by simp, by simp⟩
  | cons a l ih =>
    cases l with
    | nil => exact ⟨acc, 0, rfl, le_rfl, by simp, by simp⟩
    | cons b l =>
      cases l with
      | nil => exact ⟨acc, 0, rfl, le_rfl, by simp, by simp⟩
      | cons c l =>
        obtain ⟨hfirst, htail⟩ := List.pairwise_cons.mp hl
        have hab : a.date ≤ b.date := hfirst b (by simp)
        have hac : a.date ≤ c.date := hfirst c (by simp)
        have hbc : b.date ≤ c.date := (List.pairwise_cons.mp htail).1 c (by simp)
        unfold estimate
        by_cases hdate : c.date - a.date ≠ 0
        · -- the part of one is the place of the middle date between the others
          have hpos : 0 < c.date - a.date := lt_of_le_of_ne (sub_nonneg.mpr hac) hdate.symm
          have hpart0 : 0 ≤ (b.date - a.date) / (c.date - a.date) :=
            div_nonneg (sub_nonneg.mpr hab) hpos.le
          have hpart1 : (b.date - a.date) / (c.date - a.date) ≤ 1 :=
            (div_le_one hpos).mpr (sub_le_sub_right hbc _)
          obtain ⟨local_estim, hlocal, h0, h1⟩ : ∃ x, x = (if 0 < last * b.value then
              1 - (b.date - a.date) / (c.date - a.date) else (b.date - a.date) / (c.date - a.date)) ∧
              0 ≤ x ∧ x ≤ 1 := by
            refine ⟨_, rfl, ?_⟩
            split_ifs
            · exact ⟨sub_nonneg.mpr hpart1, sub_le_self _ hpart0⟩
            · exact ⟨hpart0, hpart1⟩
          obtain ⟨acc', k, hrun, hle, hge, -⟩ := ih htail (acc + local_estim) (cnt + 1)
          refine ⟨acc', k + 1, ?_, by linarith, by push_cast; linarith, by simp⟩
          rw [if_pos hdate, divide, if_neg hdate, Except.ok_bind, ← hlocal, hrun,
            add_assoc, add_comm 1 k]
        · obtain ⟨acc', k, hrun, hle, hge, hsame⟩ := ih htail acc cnt
          refine ⟨acc', k, by rw [if_neg hdate, hrun], hle, hge, fun hk _ => ?_⟩
          have hca : c.date = a.date := sub_eq_zero.mp (not_not.mp hdate)
          have hba : b.date = a.date := le_antisymm (hca ▸ hbc) hab
          -- the dates of the rest are those of its first two
          have hrest : ∀ x ∈ b :: c :: l, x.date = a.date := fun x hx => by
            cases l with
            | nil =>
              rcases List.mem_cons.mp hx with rfl | hx
              · exact hba
              · rw [List.mem_singleton.mp hx, hca]
            | cons d l => exact (hsame hk (by simp) x hx b List.mem_cons_self).trans hba
          have hall : ∀ x ∈ a :: b :: c :: l, x.date = a.date := fun x hx => by
            rcases List.mem_cons.mp hx with rfl | hx
            · rfl
            · exact hrest x hx
          exact fun x hx y hy => (hall x hx).trans (hall y hy).symm

variable (p : Parameters K)

/-- The factor is between zero and one when the dates of the archive go up, and there is one. -/
theorem shift_quanta_run {archive : List (Record K)}
    (hsorted : archive.Pairwise fun a b => a.date ≤ b.date) :
    ∃ factor rest, shift_quanta p archive = .ok (factor, rest) ∧ 0 ≤ factor ∧ factor ≤ 1 ∧
      (rest = archive ∨ rest = []) := by
  unfold shift_quanta
  cases hosc : oscillating archive (p.m_past_length - 1) with
  | false => exact ⟨0, archive, rfl, le_rfl, zero_le_one, .inl rfl⟩
  | true =>
    have hlength : 3 ≤ archive.length := by
      have := p.past_le
      unfold oscillating at hosc
      split_ifs at hosc
      omega
    have hne : archive ≠ [] := List.ne_nil_of_length_pos (by omega)
    rw [if_pos rfl, List.head?_eq_some_head hne, List.getLast?_eq_some_getLast hne]
    simp only
    by_cases hdate : (archive.getLast hne).date - (archive.head hne).date ≠ 0
    · obtain ⟨acc, k, hrun, hle, hge, hsame⟩ := estimate_run (archive.getLast hne).value hsorted 0 0
      have hk : k ≠ 0 := fun hk => hdate (sub_eq_zero.mpr
        (hsame hk hlength _ (List.getLast_mem hne) _ (List.head_mem hne)))
      have hpos : (0 : K) < k := Nat.cast_pos.mpr (Nat.pos_of_ne_zero hk)
      rw [Nat.zero_add] at hrun
      rw [zero_add] at hge
      refine ⟨acc / k, [], ?_, div_nonneg hle hpos.le, (div_le_one hpos).mpr hge, .inr rfl⟩
      rw [if_pos hdate, hrun, Except.ok_bind]
      simp only [divide, if_neg hpos.ne']
      rfl
    · refine ⟨0, archive, ?_, le_rfl, zero_le_one, .inl rfl⟩
      rw [if_neg hdate]
      rfl

/-- The archive stays in order when a move of a later date is stored. -/
theorem store_change_sorted {archive : List (Record K)} {t : K} (val : K)
    (hsorted : archive.Pairwise fun a b => a.date ≤ b.date) (hpast : ∀ r ∈ archive, r.date ≤ t) :
    (store_change p val t archive).Pairwise (fun a b => a.date ≤ b.date) ∧
      ∀ r ∈ store_change p val t archive, r.date ≤ t := by
  have happend : (archive ++ [(⟨val, t⟩ : Record K)]).Pairwise fun a b => a.date ≤ b.date := by
    refine List.pairwise_append.mpr ⟨hsorted, List.pairwise_singleton _ _, fun a ha b hb => ?_⟩
    rw [List.mem_singleton.mp hb]
    exact hpast a ha
  refine ⟨happend.sublist (List.drop_sublist _ _), fun r hr => ?_⟩
  rcases List.mem_append.mp (List.mem_of_mem_drop hr) with hr | hr
  · exact hpast r hr
  · rw [List.mem_singleton.mp hr]

/-! ## The loop -/

/-- The middle of the interval of the step number. -/
def centre (s : AdaptativeQuantifier K) : K := s.m_offset + p.m_step_size * s.m_step_number

/-- What the turns lower: twice the number of quanta to a value, and one when a bound has been brought
nearer, since the next turn starts from scratch. -/
def distance (val : K) (s : AdaptativeQuantifier K) : ℕ :=
  if s.m_adapt_state = .DONE then 1 else 2 * ⌊|val - centre p s| / p.m_step_size⌋₊

variable {p} {t val : K} {s : AdaptativeQuantifier K}

/-- The interval of the step number. -/
theorem Inv.of_update (hsorted : s.archive.Pairwise fun a b => a.date ≤ b.date)
    (hpast : ∀ r ∈ s.archive, r.date ≤ t) : Inv p t (update_thresholds p s) where
  standard _ _ := ⟨rfl, rfl⟩
  width _ := by
    have := p.step_pos
    unfold update_thresholds
    constructor
    · ring_nf
      linarith
    · ring_nf
      exact le_rfl
  sorted := hsorted
  past := hpast

/-- An interval of which a bound has been brought nearer. -/
theorem Inv.of_shift {factor : K} (h0 : 0 < factor) (h1 : factor < 1) (d : Direction)
    (hsorted : s.archive.Pairwise fun a b => a.date ≤ b.date) (hpast : ∀ r ∈ s.archive, r.date ≤ t) :
    Inv p t { shift_thresholds p factor d s with m_adapt_state := .DONE } := by
  have hq := p.step_pos
  have hwidth : (shift_thresholds p factor d s).m_upthreshold -
      (shift_thresholds p factor d s).m_downthreshold = p.m_step_size * (2 - factor) := by
    unfold shift_thresholds
    split_ifs
    · ring
    · ring
  refine ⟨fun _ h => absurd rfl h, fun _ => ?_, ?_, ?_⟩
  · change 0 < (shift_thresholds p factor d s).m_upthreshold -
      (shift_thresholds p factor d s).m_downthreshold ∧
      (shift_thresholds p factor d s).m_upthreshold -
      (shift_thresholds p factor d s).m_downthreshold ≤ 2 * p.m_step_size
    rw [hwidth]
    constructor
    · exact mul_pos hq (by linarith)
    · have := mul_le_mul_of_nonneg_left (show 2 - factor ≤ 2 by linarith) hq.le
      linarith
  · unfold shift_thresholds
    split_ifs
    · exact hsorted
    · exact hsorted
  · unfold shift_thresholds
    split_ifs
    · exact hpast
    · exact hpast

/-- From scratch, the value is less than a quantum from the middle of the interval. -/
theorem abs_sub_centre_init (val : K) (s : AdaptativeQuantifier K) :
    |val - centre p (init_step_number_and_offset p val s)| < p.m_step_size := by
  have hq := p.step_pos
  unfold centre init_step_number_and_offset
  cases p.m_zero_init_offset with
  | true =>
    have h0 := Int.sub_floor_div_mul_nonneg val hq
    have h1 := Int.sub_floor_div_mul_lt val hq
    simp only [if_true, zero_add]
    rw [mul_comm, abs_of_nonneg h0]
    exact h1
  | false =>
    simp only [Bool.false_eq_true, if_false]
    rw [mul_comm (⌊val / p.m_step_size⌋ : K), sub_add_cancel, sub_self, abs_zero]
    exact hq

/-- The value is outside of the interval of the step number when it is a quantum or more from the
middle. -/
theorem outside_update (val : K) (s : AdaptativeQuantifier K) :
    outside val (update_thresholds p s) = true ↔ p.m_step_size ≤ |val - centre p s| := by
  unfold outside update_thresholds centre
  rw [decide_eq_true_iff, le_abs]
  constructor
  · rintro (h | h)
    · left
      linarith
    · right
      linarith
  · rintro (h | h)
    · left
      linarith
    · right
      linarith

/-- From scratch, the value is in the interval. -/
theorem not_outside_init (val : K) (s : AdaptativeQuantifier K) :
    outside val (update_thresholds p (init_step_number_and_offset p val s)) = false := by
  rw [Bool.eq_false_iff, ne_eq, outside_update, not_le]
  exact abs_sub_centre_init val s

/-- A value that is outside is a quantum nearer after a move. -/
theorem abs_sub_centre_move (hinv : Inv p t s) (hstate : s.m_state ≠ .INIT)
    (hadapt : s.m_adapt_state ≠ .DONE) (hout : outside val s = true) :
    |val - centre p (move val s)| = |val - centre p s| - p.m_step_size := by
  have hq := p.step_pos
  obtain ⟨hup, hdown⟩ := hinv.standard hstate hadapt
  unfold move
  by_cases hle : s.m_upthreshold ≤ val
  · have hfar : p.m_step_size ≤ val - centre p s := by
      unfold centre
      rw [hup] at hle
      linarith
    have hnew : val - centre p { s with m_step_number := s.m_step_number + 1 } =
        val - centre p s - p.m_step_size := by
      unfold centre
      push_cast
      ring
    rw [if_pos hle, hnew, abs_of_nonneg (by linarith), abs_of_nonneg (by linarith)]
  · have hfar : val - centre p s ≤ -p.m_step_size := by
      have hbelow : val ≤ s.m_downthreshold := (of_decide_eq_true hout).resolve_left hle
      unfold centre
      rw [hdown] at hbelow
      linarith
    have hnew : val - centre p { s with m_step_number := s.m_step_number - 1 } =
        val - centre p s + p.m_step_size := by
      unfold centre
      push_cast
      ring
    rw [if_neg hle, hnew, abs_of_nonpos (by linarith), abs_of_nonpos (by linarith)]
    ring

/-- The number of quanta to a value that is outside is lower by one after a move. -/
theorem floor_move (hinv : Inv p t s) (hstate : s.m_state ≠ .INIT) (hadapt : s.m_adapt_state ≠ .DONE)
    (hout : outside val s = true) : ⌊|val - centre p s| / p.m_step_size⌋₊ =
      ⌊|val - centre p (move val s)| / p.m_step_size⌋₊ + 1 := by
  have hq := p.step_pos
  have hmove := abs_sub_centre_move hinv hstate hadapt hout
  rw [← Nat.floor_add_one (div_nonneg (abs_nonneg _) hq.le), hmove, sub_div, div_self hq.ne',
    sub_add_cancel]

/-- A turn where a shift is possible does not fail: either a bound is brought nearer, or the interval is
that of the step number. -/
theorem possible_run (up : Bool) (hsorted : s.archive.Pairwise fun a b => a.date ≤ b.date)
    (hpast : ∀ r ∈ s.archive, r.date ≤ t) : ∃ s', possible p t up s = .ok s' ∧ Inv p t s' ∧
      s'.m_state = s.m_state ∧ (s'.m_adapt_state = .DONE ∨
        s'.m_adapt_state = s.m_adapt_state ∧ centre p s' = centre p s) := by
  obtain ⟨hstored, hstored'⟩ := store_change_sorted p (if up then p.m_step_size else -p.m_step_size)
    hsorted hpast
  obtain ⟨factor, rest, hshift, h0, h1, hrest⟩ := shift_quanta_run p hstored
  have hsorted' : rest.Pairwise fun a b => a.date ≤ b.date := by
    rcases hrest with rfl | rfl
    · exact hstored
    · exact List.Pairwise.nil
  have hpast' : ∀ r ∈ rest, r.date ≤ t := by
    rcases hrest with rfl | rfl
    · exact hstored'
    · simp
  unfold possible
  dsimp only
  rw [hshift, Except.ok_bind]
  dsimp only
  rw [if_neg (not_lt.mpr h0), if_neg (not_lt.mpr h1)]
  by_cases hfactor : factor ≠ 0 ∧ factor ≠ 1
  · rw [if_pos hfactor]
    refine ⟨_, rfl, Inv.of_shift (s := { s with archive := rest }) (lt_of_le_of_ne h0 hfactor.1.symm)
      (lt_of_le_of_ne h1 hfactor.2) _ hsorted' hpast', ?_, .inl rfl⟩
    unfold shift_thresholds
    split_ifs <;> rfl
  · rw [if_neg hfactor]
    exact ⟨_, rfl, Inv.of_update (s := { s with archive := rest }) hsorted' hpast', rfl,
      .inr ⟨rfl, rfl⟩⟩

theorem distance_of_ne (h : s.m_adapt_state ≠ .DONE) :
    distance p val s = 2 * ⌊|val - centre p s| / p.m_step_size⌋₊ :=
  if_neg h

/-- A turn of the loop keeps the invariant and lowers the distance. -/
theorem turn_run (hinv : Inv p t s) (hstate : s.m_state ≠ .INIT) (hout : outside val s = true) :
    ∃ s', turn p t val s = .ok s' ∧ Inv p t s' ∧ s'.m_state = s.m_state ∧
      distance p val s' < distance p val s := by
  have hsorted : (move val s).archive.Pairwise fun a b => a.date ≤ b.date := hinv.sorted
  have hpast : ∀ r ∈ (move val s).archive, r.date ≤ t := hinv.past
  unfold turn
  cases hadapt : s.m_adapt_state with
  | IMPOSSIBLE =>
    have hne : s.m_adapt_state ≠ .DONE := by rw [hadapt]; decide
    refine ⟨_, rfl, .of_update hsorted hpast, rfl, ?_⟩
    have hnew : distance p val (update_thresholds p (move val s)) =
        2 * ⌊|val - centre p (move val s)| / p.m_step_size⌋₊ := distance_of_ne hne
    rw [hnew, distance_of_ne hne, floor_move hinv hstate hne hout]
    omega
  | POSSIBLE =>
    have hne : s.m_adapt_state ≠ .DONE := by rw [hadapt]; decide
    obtain ⟨s', hrun, hinv', hstate', hdone | ⟨hsame, hcentre⟩⟩ :=
      possible_run (p := p) (s.m_upthreshold ≤ val) hsorted hpast
    · refine ⟨s', hrun, hinv', hstate', ?_⟩
      rw [distance, if_pos hdone, distance_of_ne hne, floor_move hinv hstate hne hout]
      omega
    · refine ⟨s', hrun, hinv', hstate', ?_⟩
      rw [distance_of_ne (hsame.symm ▸ hne : s'.m_adapt_state ≠ .DONE), hcentre, distance_of_ne hne,
        floor_move hinv hstate hne hout]
      omega
  | DONE =>
    refine ⟨_, rfl, Inv.of_update (s := { init_step_number_and_offset p val (move val s) with
      m_adapt_state := .POSSIBLE }) hsorted hpast, rfl, ?_⟩
    have hzero : ⌊|val - centre p (init_step_number_and_offset p val (move val s))| / p.m_step_size⌋₊ = 0 :=
      Nat.floor_eq_zero.mpr ((div_lt_one p.step_pos).mpr (abs_sub_centre_init val (move val s)))
    have hnew : distance p val (update_thresholds p
        { init_step_number_and_offset p val (move val s) with m_adapt_state := .POSSIBLE }) =
        2 * ⌊|val - centre p (init_step_number_and_offset p val (move val s))| / p.m_step_size⌋₊ :=
      distance_of_ne AdaptState.noConfusion
    rw [hnew, hzero, distance, if_pos hadapt]
    exact Nat.zero_lt_one

/-- A value is treated, and is then inside of the interval. -/
theorem treat_run (hinv : Inv p t s) (val : K) : ∃ s' n, (∀ fuel, n ≤ fuel →
      treat p fuel t val s = .ok s') ∧ Inv p t s' ∧ s'.m_state ≠ .INIT ∧ outside val s' = false := by
  unfold treat
  by_cases hstate : s.m_state = .INIT
  · refine ⟨_, 0, fun fuel _ => if_pos hstate, ?_, State.noConfusion, not_outside_init val s⟩
    exact Inv.of_update (s := { init_step_number_and_offset p val s with m_state := .RESPONSE })
      hinv.sorted hinv.past
  · have hturn : ∀ u, (Inv p t u ∧ u.m_state ≠ .INIT) → outside val u = true → ∃ u',
        turn p t val u = .ok u' ∧ (Inv p t u' ∧ u'.m_state ≠ .INIT) ∧ distance p val u' < distance p val u := by
      intro u hu hout
      obtain ⟨u', hrun, hinv', hsame, hlt⟩ := turn_run hu.1 hu.2 hout
      exact ⟨u', hrun, ⟨hinv', hsame ▸ hu.2⟩, hlt⟩
    obtain ⟨s', ⟨hinv', hstate'⟩, hend, hloop⟩ := whileLoop_total _ (distance p val) hturn ⟨hinv, hstate⟩
    refine ⟨s', distance p val s, fun fuel hfuel => ?_, hinv', hstate', hend⟩
    rw [if_neg hstate]
    exact hloop fuel hfuel

theorem Inv.of_state (hinv : Inv p t s) {state : State} (h : s.m_state ≠ .INIT) :
    Inv p t { s with m_state := state } :=
  ⟨fun _ => hinv.standard h, fun _ => hinv.width h, hinv.sorted, hinv.past⟩

theorem Inv.mono (hinv : Inv p t s) {t' : K} (ht : t ≤ t') : Inv p t' s :=
  ⟨hinv.standard, hinv.width, hinv.sorted, fun r hr => (hinv.past r hr).trans ht⟩

/-- Values are treated in turn, and the last one is then inside of the interval. -/
theorem foldlM_treat_run (hinv : Inv p t s) {events : List K} (hne : events ≠ []) : ∃ s' n,
    (∀ fuel, n ≤ fuel → events.foldlM (fun s val => treat p fuel t val s) s = .ok s') ∧ Inv p t s' ∧
      s'.m_state ≠ .INIT ∧ outside (events.getLast hne) s' = false := by
  induction events generalizing s with
  | nil => exact absurd rfl hne
  | cons val events ih =>
    obtain ⟨s₁, n₁, hrun₁, hinv₁, hstate₁, hin₁⟩ := treat_run hinv val
    cases events with
    | nil =>
      refine ⟨s₁, n₁, fun fuel hfuel => ?_, hinv₁, hstate₁, hin₁⟩
      rw [List.foldlM_cons, hrun₁ fuel hfuel]
      rfl
    | cons val' events =>
      obtain ⟨s₂, n₂, hrun₂, hinv₂, hstate₂, hin₂⟩ := ih hinv₁ (List.cons_ne_nil _ _)
      refine ⟨s₂, max n₁ n₂, fun fuel hfuel => ?_, hinv₂, hstate₂, hin₂⟩
      rw [List.foldlM_cons, hrun₁ fuel (le_of_max_le_left hfuel)]
      exact hrun₂ fuel (le_of_max_le_right hfuel)

/-- What a value that is treated leaves keeps the invariant, however long its loop has been given. -/
theorem inv_of_treat (hinv : Inv p t s) {fuel : ℕ} {s' : AdaptativeQuantifier K}
    (h : treat p fuel t val s = .ok s') : Inv p t s' ∧ s'.m_state ≠ .INIT := by
  unfold treat at h
  by_cases hstate : s.m_state = .INIT
  · rw [if_pos hstate] at h
    cases h
    exact ⟨Inv.of_update (s := { init_step_number_and_offset p val s with m_state := .RESPONSE })
      hinv.sorted hinv.past, State.noConfusion⟩
  · rw [if_neg hstate] at h
    refine whileLoop_keeps (fun u => Inv p t u ∧ u.m_state ≠ .INIT) (fun u u' hu hout hturn => ?_)
      ⟨hinv, hstate⟩ h
    obtain ⟨u₁, hrun, hinv₁, hsame, -⟩ := turn_run hu.1 hu.2 hout
    rw [hrun] at hturn
    cases hturn
    exact ⟨hinv₁, hsame ▸ hu.2⟩

theorem inv_of_externalTransition (hinv : Inv p t s) {fuel : ℕ} {events : List K}
    (hevents : events ≠ []) {s' : AdaptativeQuantifier K}
    (h : externalTransition p fuel t events s = .ok s') : Inv p t s' := by
  obtain ⟨val, events, rfl⟩ := List.exists_cons_of_ne_nil hevents
  obtain ⟨s₂, hfold, hlast⟩ := Except.bind_eq_ok.mp h
  rw [List.foldlM_cons] at hfold
  obtain ⟨s₁, hfirst, hfold⟩ := Except.bind_eq_ok.mp hfold
  have hinv₂ : Inv p t s₂ ∧ s₂.m_state ≠ .INIT :=
    Except.foldlM_keeps (p := fun u => Inv p t u ∧ u.m_state ≠ .INIT)
      (fun u val u' hu hrun => inv_of_treat hu.1 hrun) hfold (inv_of_treat hinv hfirst)
  cases hlast
  exact hinv₂.1.of_state hinv₂.2

theorem inv_internalTransition (hinv : Inv p t s) : Inv p t (internalTransition s) := by
  unfold internalTransition
  cases hstate : s.m_state with
  | INIT => exact hinv
  | IDLE => exact hinv
  | RESPONSE => exact hinv.of_state (by rw [hstate]; decide)

/-- The invariant holds along the runs. -/
theorem Reachable.inv (h : Reachable p t s) : Inv p t s := by
  induction h with
  | init harchive hadapt =>
    refine ⟨fun h => absurd rfl h, fun h => absurd rfl h, ?_, ?_⟩
    · rw [AdaptativeQuantifier.init, harchive]
      exact List.Pairwise.nil
    · rw [AdaptativeQuantifier.init, harchive]
      simp
  | internal _ ht ih => exact inv_internalTransition (ih.mono ht)
  | external _ ht hevents hrun ih => exact inv_of_externalTransition (ih.mono ht) hevents hrun
  | confluent _ ht hevents hrun ih =>
    exact inv_of_externalTransition (inv_internalTransition (ih.mono ht)) hevents hrun

theorem Visited.inv {u : AdaptativeQuantifier K} (hinv : Inv p t s) (h : Visited p t s u) :
    Inv p t u := by
  induction h with
  | start => exact hinv
  | treat _ hrun ih => exact (inv_of_treat ih hrun).1
  | turn _ hstate hval hrun ih =>
    obtain ⟨u₁, hturn, hinv₁, -, -⟩ := turn_run ih hstate hval
    rw [hrun] at hturn
    cases hturn
    exact hinv₁

/-- From any state of a run, the values of a bag are treated without a failure, the last one is inside of
an interval that is not longer than two quanta, and the factors on the way are between zero and one. -/
theorem brackets (p : Parameters K) {t t' : K} {s : AdaptativeQuantifier K} (h : Reachable p t s)
    (ht : t ≤ t') {events : List K} (hevents : events ≠ []) :
    (∃ s' n, (∀ fuel, n ≤ fuel → externalTransition p fuel t' events s = .ok s') ∧
      (s'.m_downthreshold < events.getLast hevents ∧ events.getLast hevents < s'.m_upthreshold) ∧
      0 < s'.m_upthreshold - s'.m_downthreshold ∧
      s'.m_upthreshold - s'.m_downthreshold ≤ 2 * p.m_step_size) ∧
    ∀ u, Visited p t' s u → ∀ val, ∃ factor rest,
      shift_quanta p (store_change p val t' u.archive) = .ok (factor, rest) ∧
        0 ≤ factor ∧ factor ≤ 1 := by
  have hinv : Inv p t' s := h.inv.mono ht
  constructor
  · obtain ⟨s', n, hrun, hinv', hstate, hin⟩ := foldlM_treat_run hinv hevents
    refine ⟨{ s' with m_state := .RESPONSE }, n, fun fuel hfuel => ?_, ?_, hinv'.width hstate⟩
    · rw [externalTransition, hrun fuel hfuel]
      rfl
    · have hboth := of_decide_eq_false hin
      push Not at hboth
      exact ⟨hboth.2, hboth.1⟩
  · intro u hu val
    have hinvu := Visited.inv hinv hu
    obtain ⟨factor, rest, hrun, h0, h1, -⟩ :=
      shift_quanta_run p (store_change_sorted p val hinvu.sorted hinvu.past).1
    exact ⟨factor, rest, hrun, h0, h1⟩

/-- A quantum of one, with an archive of three moves. -/
def unit : Parameters ℚ := ⟨true, false, 1, 3, by decide, by decide⟩

/-- The first value of a run. -/
theorem brackets_unit : ∃ s' n, (∀ fuel, n ≤ fuel →
      externalTransition unit fuel 2 [5 / 2] (init ⟨.IDLE, .POSSIBLE, 0, 0, 0, 0, []⟩) = .ok s') ∧
    s'.m_downthreshold < 5 / 2 ∧ 5 / 2 < s'.m_upthreshold := by
  have h : Reachable unit 0 (init ⟨.IDLE, .POSSIBLE, 0, 0, 0, 0, []⟩) := .init rfl rfl
  have ht : (0 : ℚ) ≤ 2 := by decide
  obtain ⟨⟨s', n, hrun, hin, -⟩, -⟩ := brackets unit h ht (List.cons_ne_nil (5 / 2 : ℚ) [])
  exact ⟨s', n, hrun, hin⟩

end AdaptativeQuantifier

end Vle.Qss
