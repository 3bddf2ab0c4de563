import Vle.Lib.Runs
import Mathlib

/-!
# The simulation thread pool

`SimulatorProcessParallel` of `devs/Thread.hpp` shares out the blocks of a vector between the
calling thread of `for_each` and the workers. A thread takes a block by `m_block_id.fetch_sub(1)`,
processes the block's elements, then counts it as finished by `m_block_count.fetch_sub(1)`. The two
counters are reused by the next call. Here each atomic operation, each read of `m_jobs` and each
call of `simulator_process` is one step of one thread, the counters are integers, and the threads'
steps interleave in any order (`Step`).

`ForEach.reachable_history` says what the interleavings may do: the recorded events of a run are a
sequence of completed calls, each of which processes every element of its vector exactly once and
at its own date, followed by the events of the call in progress, none of which belongs to another
call. The proof carries `Running`: the elements already processed, those of the blocks not yet
taken, and those left in the blocks that the threads hold make up the vector, and the second
counter counts the blocks not finished.
-/

namespace Vle.Devs.ForEach

variable {α T W : Type}

/-- What is recorded of a run: the calls of `for_each` and their returns, each element processed
with its index and the date it was given, and `fault` for a read through a null `m_jobs` or past
the end of the vector. -/
inductive Event (α T : Type) where
  | enter (simulators : List α) (time : T)
  | processed (index : ℕ) (elem : α) (time : T)
  | leave
  | fault

/-- Where a thread stands in the block that it took. -/
inductive BlockPc (α T : Type) where
  /-- about to read `m_jobs->size()` -/
  | size (block : ℤ)
  /-- at the head of `for (; begin < end; ++begin)` -/
  | loop (first last : ℕ)
  /-- has read `(*m_jobs)[begin]` and `m_time`, about to call `simulator_process` -/
  | process (first last : ℕ) (elem : α) (time : T)
  /-- about to count the block as finished -/
  | finished

/-- Where a worker stands in `run`. -/
inductive WorkerPc (α T : Type) where
  | flag
  | fetch
  | block (pc : BlockPc α T)
  | sleep
  | exited

/-- Where the calling thread stands in `for_each`. -/
inductive CallerPc (α T : Type) where
  | outside
  | setJobs (simulators : List α) (time : T)
  | setTime (simulators : List α) (time : T)
  | storeCount (simulators : List α)
  | storeId (sz : ℤ)
  | fetch
  | block (pc : BlockPc α T)
  | wait
  | clearJobs

/-- The shared members of `SimulatorProcessParallel`, its threads, and the record of the run. -/
structure SimulatorProcessParallel (α T W : Type) where
  blockId : ℤ
  blockCount : ℤ
  runningFlag : Bool
  jobs : Option (List α)
  time : Option T
  blockSize : ℕ
  caller : CallerPc α T
  workers : W → WorkerPc α T
  events : List (Event α T)

namespace SimulatorProcessParallel

/-- The pool as its constructor leaves it, the workers at the head of their loop. -/
def init (blockSize : ℕ) : SimulatorProcessParallel α T W where
  blockId := -1
  blockCount := -1
  runningFlag := true
  jobs := none
  time := none
  blockSize := blockSize
  caller := .outside
  workers := fun _ => .flag
  events := []

/-- Record an event. -/
def record (s : SimulatorProcessParallel α T W) (e : Event α T) : SimulatorProcessParallel α T W :=
  { s with events := s.events ++ [e] }

/-- The number of blocks of `for_each`: `size / block_size`, rounded up. -/
def blocks (size blockSize : ℕ) : ℕ :=
  size / blockSize + if size % blockSize = 0 then 0 else 1

/-- One step of a thread inside a block, the same code in `run` and in `for_each`. The thread leaves
the block when the second component is `none`. -/
def blockStep (s : SimulatorProcessParallel α T W) :
    BlockPc α T → SimulatorProcessParallel α T W × Option (BlockPc α T)
  | .size block =>
    match s.jobs with
    | some v =>
      let first := block.toNat * s.blockSize
      (s, some (.loop first (min v.length (first + s.blockSize))))
    | none => (s.record .fault, some .finished)
  | .loop first last =>
    if first < last then
      match s.jobs.bind (·[first]?), s.time with
      | some x, some t => (s, some (.process first last x t))
      | _, _ => (s.record .fault, some .finished)
    else (s, some .finished)
  | .process first last x t => (s.record (.processed first x t), some (.loop (first + 1) last))
  | .finished => ({ s with blockCount := s.blockCount - 1 }, none)

/-- One step of the worker `w` in `run`. -/
def workerStep [DecidableEq W] (s : SimulatorProcessParallel α T W) (w : W) :
    SimulatorProcessParallel α T W :=
  match s.workers w with
  | .flag =>
    { s with workers := Function.update s.workers w (if s.runningFlag then .fetch else .exited) }
  | .fetch =>
    let block := s.blockId
    { s with
      blockId := block - 1
      workers := Function.update s.workers w (if 0 ≤ block then .block (.size block) else .sleep) }
  | .block pc =>
    let (s', next) := s.blockStep pc
    { s' with
      workers := Function.update s'.workers w (match next with
        | some pc' => .block pc'
        | none => .flag) }
  | .sleep => { s with workers := Function.update s.workers w .flag }
  | .exited => s

/-- One step of the calling thread inside `for_each`; outside of it nothing happens. -/
def callerStep (s : SimulatorProcessParallel α T W) : SimulatorProcessParallel α T W :=
  match s.caller with
  | .outside => s
  | .setJobs v t => { s with jobs := some v, caller := .setTime v t }
  | .setTime v t => { s with time := some t, caller := .storeCount v }
  | .storeCount v =>
    { s with blockCount := blocks v.length s.blockSize,
             caller := .storeId (blocks v.length s.blockSize) }
  | .storeId sz => { s with blockId := sz, caller := .fetch }
  | .fetch =>
    let block := s.blockId
    { s with blockId := block - 1, caller := if block < 0 then .wait else .block (.size block) }
  | .block pc =>
    let (s', next) := s.blockStep pc
    { s' with caller := match next with
        | some pc' => .block pc'
        | none => .fetch }
  | .wait => if 0 ≤ s.blockCount then s else { s with caller := .clearJobs }
  | .clearJobs => { s.record .leave with jobs := none, caller := .outside }

end SimulatorProcessParallel

open SimulatorProcessParallel

/-- One step of the program: a call of `for_each` begins, the calling thread or a worker takes a
step, or, outside of any call, the destructor clears the running flag. -/
inductive Step [DecidableEq W] :
    SimulatorProcessParallel α T W → SimulatorProcessParallel α T W → Prop where
  | enter (s) (v : List α) (t : T) (hout : s.caller = .outside) (hrun : s.runningFlag = true) :
      Step s { s.record (.enter v t) with caller := .setJobs v t }
  | caller (s) : Step s s.callerStep
  | worker (s) (w : W) : Step s (s.workerStep w)
  | stop (s) (hout : s.caller = .outside) : Step s { s with runningFlag := false }

/-- The states that the pool can reach, with blocks of size `blockSize`. -/
def Reachable [DecidableEq W] (blockSize : ℕ) (s : SimulatorProcessParallel α T W) : Prop :=
  Relation.ReflTransGen Step (init blockSize) s

/-- What a call on the vector `v` at the date `t` has to do: process each element once, at `t`. -/
def processes (v : List α) (t : T) : List (Event α T) :=
  v.mapIdx fun i x => .processed i x t

/-- A sequence of completed calls, each of which does exactly what it has to, in some order. -/
inductive Completed : List (Event α T) → Prop where
  | nil : Completed []
  | call {h ps} (v : List α) (t : T) (hh : Completed h) (hps : ps.Perm (processes v t)) :
      Completed (h ++ .enter v t :: (ps ++ [.leave]))

/-! ## Indices

The elements of a vector are followed by their indices. -/

/-- The events that process the elements of `v` at the indices `is`, in this order. -/
def handled (v : List α) (t : T) (is : List ℕ) : List (Event α T) :=
  is.filterMap fun i => v[i]?.map (.processed i · t)

/-- Processing one more element. -/
theorem handled_concat (v : List α) (t : T) (is : List ℕ) (i : ℕ) (x : α) (hx : v[i]? = some x) :
    handled v t (is ++ [i]) = handled v t is ++ [.processed i x t] := by
  simp [handled, hx]

/-- All the indices in increasing order give what a call has to do. -/
theorem handled_range (v : List α) (t : T) : handled v t (List.range v.length) = processes v t := by
  induction v using List.reverseRecOn with
  | nil => rfl
  | append_singleton v x ih =>
    have hlt : ∀ i ∈ List.range v.length, (v ++ [x])[i]?.map (Event.processed i · t) =
        v[i]?.map (Event.processed i · t) := by
      intro i hi
      rw [List.getElem?_append_left (List.mem_range.mp hi)]
    rw [List.length_append, List.length_singleton, List.range_succ, handled, List.filterMap_append,
      List.filterMap_congr hlt]
    change handled v t (List.range v.length) ++ _ = _
    rw [ih]
    simp [processes]

/-- Indices that are all the indices of the vector, in some order, give what a call has to do. -/
theorem handled_perm (v : List α) (t : T) {is : List ℕ} (h : is.Perm (List.range v.length)) :
    (handled v t is).Perm (processes v t) := by
  rw [← handled_range]
  exact h.filterMap _

/-- Distinct indices of the vector give a part of what a call has to do. -/
theorem handled_subperm (v : List α) (t : T) {is : List ℕ}
    (h : is.Subperm (List.range v.length)) : (handled v t is).Subperm (processes v t) := by
  rw [← handled_range]
  obtain ⟨l, hl, hsub⟩ := h
  exact ⟨handled v t l, hl.filterMap _, hsub.filterMap _⟩

/-- One when `i` lies in `[first, last)`. -/
def within (first last i : ℕ) : ℕ := if first ≤ i ∧ i < last then 1 else 0

/-- One when the index `i` is still to be processed in the block of a thread at `pc`, for a vector
of `size` elements. -/
def BlockPc.left (size blockSize : ℕ) (pc : BlockPc α T) (i : ℕ) : ℕ :=
  match pc with
  | .size block => within (block.toNat * blockSize)
      (min size (block.toNat * blockSize + blockSize)) i
  | .loop first last => within first last i
  | .process first last _ _ => within first last i
  | .finished => 0

/-- A thread's place in a block is consistent with the vector `v` and the date `t` of the call: the
block exists, the bounds are the vector's, and the element and the date read are its own. -/
def BlockPc.Valid (v : List α) (t : T) : BlockPc α T → Prop
  | .size block => 0 ≤ block
  | .loop _ last => last ≤ v.length
  | .process first last x t' => first < last ∧ last ≤ v.length ∧ v[first]? = some x ∧ t' = t
  | .finished => True

/-- The block that a worker holds. -/
def WorkerPc.held : WorkerPc α T → Option (BlockPc α T)
  | .block pc => some pc
  | _ => none

/-- The block that the calling thread holds. -/
def CallerPc.held : CallerPc α T → Option (BlockPc α T)
  | .block pc => some pc
  | _ => none

/-- The block that a thread holds, `none` being the calling thread. -/
def SimulatorProcessParallel.holds (s : SimulatorProcessParallel α T W) :
    Option W → Option (BlockPc α T)
  | none => s.caller.held
  | some w => (s.workers w).held

/-- A step inside a block changes no thread's place. -/
theorem blockStep_frame (s : SimulatorProcessParallel α T W) (pc : BlockPc α T) :
    (s.blockStep pc).1.caller = s.caller ∧ (s.blockStep pc).1.workers = s.workers ∧
      (s.blockStep pc).1.blockSize = s.blockSize := by
  cases pc with
  | size block => cases hj : s.jobs <;> simp [SimulatorProcessParallel.blockStep, hj, record]
  | loop first last =>
    unfold SimulatorProcessParallel.blockStep
    dsimp only
    split
    · split <;> exact ⟨rfl, rfl, rfl⟩
    · exact ⟨rfl, rfl, rfl⟩
  | process first last x t => exact ⟨rfl, rfl, rfl⟩
  | finished => exact ⟨rfl, rfl, rfl⟩

/-- A step inside a block changes no thread's block by itself. -/
theorem blockStep_holds (s : SimulatorProcessParallel α T W) (pc : BlockPc α T) :
    (s.blockStep pc).1.holds = s.holds := by
  obtain ⟨hcaller, hworkers, -⟩ := blockStep_frame s pc
  funext o
  cases o with
  | none => simp only [holds, hcaller]
  | some w => simp only [holds, hworkers]

/-- A step of the calling thread keeps the size of the blocks. -/
theorem callerStep_blockSize (s : SimulatorProcessParallel α T W) :
    s.callerStep.blockSize = s.blockSize := by
  unfold SimulatorProcessParallel.callerStep
  cases hpc : s.caller with
  | block pc => exact (blockStep_frame s pc).2.2
  | wait => dsimp only; split_ifs <;> rfl
  | outside | setJobs | setTime | storeCount | storeId | fetch | clearJobs => rfl

/-- No block is free and no thread holds one, so no thread touches the vector. -/
structure Quiet (s : SimulatorProcessParallel α T W) (f : Option W → Option (BlockPc α T)) :
    Prop where
  blockId : s.blockId < 0
  holds : ∀ o, f o = none

section Places

variable [DecidableEq W]

/-- When a worker changes its place, the blocks held change for it alone. -/
theorem holds_worker (s : SimulatorProcessParallel α T W) (w : W) (pc : WorkerPc α T) :
    SimulatorProcessParallel.holds { s with workers := Function.update s.workers w pc } =
      Function.update s.holds (some w) pc.held := by
  funext o
  cases o with
  | none => rfl
  | some w' =>
    by_cases e : w' = w
    · subst e; simp [holds]
    · rw [Function.update_of_ne (by simpa using e)]
      simp [holds, Function.update_of_ne e]

/-- When the calling thread changes its place, the blocks held change for it alone. -/
theorem holds_caller (s : SimulatorProcessParallel α T W) (pc : CallerPc α T) :
    SimulatorProcessParallel.holds { s with caller := pc } =
      Function.update s.holds none pc.held := by
  funext o
  cases o with
  | none => simp [holds]
  | some w => rfl

/-- When the calling thread holds no block before and after, the blocks held are the same. -/
theorem holds_turn (s : SimulatorProcessParallel α T W) (pc : CallerPc α T)
    (hnone : s.caller.held = none) (hpc : pc.held = none) :
    SimulatorProcessParallel.holds { s with caller := pc } = s.holds := by
  rw [holds_caller, hpc, ← hnone]
  exact Function.update_eq_self none s.holds

/-- A worker's step leaves the calling thread where it is. -/
theorem workerStep_frame (s : SimulatorProcessParallel α T W) (w : W) :
    (s.workerStep w).caller = s.caller ∧ (s.workerStep w).blockSize = s.blockSize := by
  unfold SimulatorProcessParallel.workerStep
  cases hpc : s.workers w with
  | block pc => exact ⟨(blockStep_frame s pc).1, (blockStep_frame s pc).2.2⟩
  | flag | fetch | sleep | exited => exact ⟨rfl, rfl⟩

/-- Outside of a running call a worker only turns in its loop. -/
theorem Quiet.workerStep {s : SimulatorProcessParallel α T W} (hq : Quiet s s.holds) (w : W) :
    Quiet (s.workerStep w) (s.workerStep w).holds ∧ (s.workerStep w).jobs = s.jobs ∧
      (s.workerStep w).time = s.time ∧ (s.workerStep w).events = s.events ∧
      (s.workerStep w).blockCount = s.blockCount := by
  have hw : s.holds (some w) = none := hq.holds (some w)
  have hkeep : ∀ pc : WorkerPc α T, pc.held = none → ∀ o,
      Function.update s.holds (some w) pc.held o = none := by
    intro pc hpc o
    by_cases e : o = some w
    · subst e; rw [Function.update_self, hpc]
    · rw [Function.update_of_ne e]; exact hq.holds o
  unfold SimulatorProcessParallel.workerStep
  cases hpc : s.workers w with
  | flag =>
    refine ⟨⟨hq.blockId, ?_⟩, rfl, rfl, rfl, rfl⟩
    dsimp only
    rw [holds_worker]
    exact hkeep _ (by split_ifs <;> rfl)
  | fetch =>
    have hneg : ¬ 0 ≤ s.blockId := not_le.mpr hq.blockId
    refine ⟨⟨by have := hq.blockId; dsimp only; omega, ?_⟩, rfl, rfl, rfl, rfl⟩
    dsimp only
    rw [if_neg hneg]
    exact fun o => (congrFun (holds_worker s w .sleep) o).trans (hkeep .sleep rfl o)
  | block pc => rw [SimulatorProcessParallel.holds, hpc] at hw; cases hw
  | sleep =>
    refine ⟨⟨hq.blockId, ?_⟩, rfl, rfl, rfl, rfl⟩
    dsimp only
    rw [holds_worker]
    exact hkeep _ rfl
  | exited => exact ⟨hq, rfl, rfl, rfl, rfl⟩

end Places

/-! ## The invariant -/

section Invariant

variable [Fintype W]

/-- One when the index `i` is still to be processed by a thread. -/
def leftIn (size blockSize i : ℕ) (pc : Option (BlockPc α T)) : ℕ :=
  pc.elim 0 fun pc => pc.left size blockSize i

/-- One when the thread holds a block. -/
def busy (pc : Option (BlockPc α T)) : ℕ := pc.elim 0 fun _ => 1

/-- The state of a call on `v` at `t` once both counters are set, the elements at the indices `is`
being processed: each index is processed, or lies in a block not yet taken, or is left in the block
of one thread; and the second counter counts the blocks not finished. -/
structure Running (s : SimulatorProcessParallel α T W) (f : Option W → Option (BlockPc α T))
    (h : List (Event α T)) (v : List α) (t : T) (is : List ℕ) : Prop where
  jobs : s.jobs = some v
  time : s.time = some t
  events : s.events = h ++ .enter v t :: handled v t is
  valid : ∀ o pc, f o = some pc → pc.Valid v t
  share : ∀ i, is.count i + within 0 (min v.length ((s.blockId + 1).toNat * s.blockSize)) i +
    ∑ o, leftIn v.length s.blockSize i (f o) = within 0 v.length i
  count : s.blockCount + 1 = (s.blockId + 1).toNat + ∑ o, busy (f o)

/-- The blocks numbered up to `blocks size blockSize` cover the vector; the last one is empty. -/
theorem size_le_blocks (size : ℕ) {blockSize : ℕ} (hb : 1 ≤ blockSize) :
    size ≤ (blocks size blockSize + 1) * blockSize := by
  have h1 := Nat.div_add_mod size blockSize
  have h2 := Nat.mod_lt size hb
  calc size = blockSize * (size / blockSize) + size % blockSize := h1.symm
    _ ≤ blockSize * (size / blockSize) + blockSize := by omega
    _ = (size / blockSize + 1) * blockSize := by ring
    _ ≤ _ := Nat.mul_le_mul_right _ (by unfold blocks; omega)

/-- Storing the second counter starts the call: every block is free. -/
theorem Quiet.start {s : SimulatorProcessParallel α T W} (s' : SimulatorProcessParallel α T W)
    {f : Option W → Option (BlockPc α T)} (hq : Quiet s f) (hb : 1 ≤ s.blockSize)
    {h : List (Event α T)} {v : List α} {t : T} (hjobs : s.jobs = some v) (htime : s.time = some t)
    (hevents : s.events = h ++ [.enter v t])
    (hcount : s.blockCount = blocks v.length s.blockSize)
    (hs' : s' = { s with blockId := blocks v.length s.blockSize, caller := s'.caller }) :
    Running s' f h v t [] := by
  rw [hs']
  have hpos : (((blocks v.length s.blockSize : ℕ) : ℤ) + 1).toNat = blocks v.length s.blockSize + 1 :=
    by omega
  have hnone := hq.holds
  refine ⟨hjobs, htime, hevents, fun o pc h' => ?_, fun i => ?_, ?_⟩
  · rw [hnone o] at h'; cases h'
  · have hcover := size_le_blocks v.length hb
    simp only [hpos, min_eq_left hcover, hnone]
    simp [leftIn]
  · simp only [hpos, hnone, hcount]
    simp [busy]

/-- When the second counter is negative, no block is free or held and every element has been
processed once. -/
theorem Running.done {s : SimulatorProcessParallel α T W}
    {f : Option W → Option (BlockPc α T)} {h : List (Event α T)} {v : List α} {t : T}
    {is : List ℕ} (hs : Running s f h v t is) (hneg : s.blockCount < 0) :
    Quiet s f ∧ is.Perm (List.range v.length) := by
  have hcount := hs.count
  have hid : (s.blockId + 1).toNat = 0 := by omega
  have hbusy : ∑ o, busy (f o) = 0 := by omega
  have hnone : ∀ o, f o = none := by
    intro o
    have := Finset.sum_eq_zero_iff.mp hbusy o (Finset.mem_univ o)
    cases hf : f o with
    | none => rfl
    | some pc => rw [hf] at this; cases this
  refine ⟨⟨by omega, hnone⟩, List.perm_iff_count.mpr fun i => ?_⟩
  have h1 := hs.share i
  simp only [hid, hnone, leftIn, Option.elim_none, Finset.sum_const_zero, add_zero, zero_mul] at h1
  have h2 : within 0 (min v.length 0) i = 0 := if_neg (by omega)
  have h3 : List.count i (List.range v.length) = within 0 v.length i := by
    rw [List.count_range]
    simp [within]
  omega

/-- The indices processed so far are distinct indices of the vector. -/
theorem Running.subperm {s : SimulatorProcessParallel α T W}
    {f : Option W → Option (BlockPc α T)} {h : List (Event α T)} {v : List α} {t : T}
    {is : List ℕ} (hs : Running s f h v t is) : is.Subperm (List.range v.length) := by
  refine List.subperm_ext_iff.mpr fun i _ => ?_
  have h1 := hs.share i
  have h3 : List.count i (List.range v.length) = within 0 v.length i := by
    rw [List.count_range]
    simp [within]
  omega

/-- The invariant of the pool, by the place of the calling thread. -/
def Inv (s : SimulatorProcessParallel α T W) : Prop :=
  match s.caller with
  | .outside => Quiet s s.holds ∧ Completed s.events
  | .setJobs v t => Quiet s s.holds ∧ ∃ h, Completed h ∧ s.events = h ++ [.enter v t]
  | .setTime v t => Quiet s s.holds ∧ s.jobs = some v ∧
      ∃ h, Completed h ∧ s.events = h ++ [.enter v t]
  | .storeCount v => Quiet s s.holds ∧ s.jobs = some v ∧
      ∃ h t, Completed h ∧ s.time = some t ∧ s.events = h ++ [.enter v t]
  | .storeId sz => Quiet s s.holds ∧ ∃ h v t, Completed h ∧ s.jobs = some v ∧ s.time = some t ∧
      s.events = h ++ [.enter v t] ∧ sz = blocks v.length s.blockSize ∧ s.blockCount = sz
  | .fetch | .block _ | .wait => ∃ h v t is, Completed h ∧ Running s s.holds h v t is
  | .clearJobs => Quiet s s.holds ∧
      ∃ h v t ps, Completed h ∧ ps.Perm (processes v t) ∧ s.events = h ++ .enter v t :: ps

variable [DecidableEq W]

/-- A thread moves on to the place `x`, processing the elements that `is'` has over `is` out of those
it had left, and counting its block if it leaves it: the call is still running. -/
theorem Running.move {s s' : SimulatorProcessParallel α T W}
    {f : Option W → Option (BlockPc α T)} {h : List (Event α T)} {v : List α} {t : T}
    {is is' : List ℕ} (hs : Running s f h v t is) (o : Option W) (x : Option (BlockPc α T))
    (hjobs : s'.jobs = s.jobs) (htime : s'.time = s.time) (hid : s'.blockId = s.blockId)
    (hsize : s'.blockSize = s.blockSize) (hevents : s'.events = h ++ .enter v t :: handled v t is')
    (hvalid : ∀ pc, x = some pc → pc.Valid v t)
    (hleft : ∀ i, is'.count i + leftIn v.length s.blockSize i x =
      is.count i + leftIn v.length s.blockSize i (f o))
    (hcount : s'.blockCount + busy (f o) = s.blockCount + busy x) :
    Running s' (Function.update f o x) h v t is' := by
  refine ⟨by rw [hjobs, hs.jobs], by rw [htime, hs.time], hevents, fun o' pc' h' => ?_,
    fun i => ?_, ?_⟩
  · by_cases e : o' = o
    · subst e; rw [Function.update_self] at h'; exact hvalid pc' h'
    · rw [Function.update_of_ne e] at h'; exact hs.valid o' pc' h'
  · have h1 := hs.share i
    have h2 := hleft i
    have h3 := Lib.sum_update (leftIn v.length s.blockSize i) f (Finset.mem_univ o) x
    rw [hid, hsize]
    omega
  · have h1 := hs.count
    have h3 := Lib.sum_update busy f (Finset.mem_univ o) x
    rw [hid]
    omega

/-- An index of `[first, last)` is `first` or lies in `[first + 1, last)`. -/
theorem within_first {first last : ℕ} (hlt : first < last) (i : ℕ) :
    within first last i = List.count i [first] + within (first + 1) last i := by
  unfold within
  by_cases e : first = i
  · subst e; simp [hlt]
  · rw [List.count_eq_zero_of_not_mem (by simpa using fun h => e h.symm), zero_add]
    congr 1
    exact propext ⟨fun h => ⟨by omega, h.2⟩, fun h => ⟨by omega, h.2⟩⟩

/-- A step of a thread inside its block keeps the call running. -/
theorem Running.blockStep {s : SimulatorProcessParallel α T W}
    {f : Option W → Option (BlockPc α T)} {h : List (Event α T)} {v : List α} {t : T}
    {is : List ℕ} (hs : Running s f h v t is) {o : Option W} {pc : BlockPc α T}
    (ho : f o = some pc) :
    ∃ is', Running (s.blockStep pc).1 (Function.update f o (s.blockStep pc).2) h v t is' := by
  have hv := hs.valid o pc ho
  cases pc with
  | size block =>
    simp only [SimulatorProcessParallel.blockStep, hs.jobs]
    refine ⟨is, hs.move o _ rfl rfl rfl rfl hs.events ?_ (fun i => ?_) (by rw [ho]; rfl)⟩
    · rintro _ ⟨⟩; exact min_le_left _ _
    · rw [ho]; rfl
  | loop first last =>
    by_cases hlt : first < last
    · obtain ⟨x, hx⟩ : ∃ x, v[first]? = some x :=
        ⟨_, List.getElem?_eq_getElem (lt_of_lt_of_le hlt hv)⟩
      simp only [SimulatorProcessParallel.blockStep, hs.jobs, hs.time, if_pos hlt,
        Option.bind_some, hx]
      refine ⟨is, hs.move o _ rfl rfl rfl rfl hs.events ?_ (fun i => ?_) (by rw [ho]; rfl)⟩
      · rintro _ ⟨⟩; exact ⟨hlt, hv, hx, rfl⟩
      · rw [ho]; rfl
    · simp only [SimulatorProcessParallel.blockStep, if_neg hlt]
      refine ⟨is, hs.move o _ rfl rfl rfl rfl hs.events ?_ (fun i => ?_) (by rw [ho]; rfl)⟩
      · rintro _ ⟨⟩; trivial
      · have hz : within first last i = 0 := if_neg (by omega)
        rw [ho]
        exact congrArg (List.count i is + ·) hz.symm
  | process first last x t' =>
    obtain ⟨hlt, hle, hx, rfl⟩ := hv
    refine ⟨is ++ [first], hs.move o _ rfl rfl rfl rfl ?_ ?_ (fun i => ?_) (by rw [ho]; rfl)⟩
    · simp [SimulatorProcessParallel.blockStep, record, hs.events,
        handled_concat v t' is first x hx]
    · rintro _ ⟨⟩; exact hle
    · have := within_first hlt i
      rw [ho, List.count_append]
      simp only [SimulatorProcessParallel.blockStep, leftIn, Option.elim_some, BlockPc.left]
      omega
  | finished =>
    refine ⟨is, hs.move o _ rfl rfl rfl rfl hs.events (fun _ => nofun) (fun i => by rw [ho]; rfl)
      ?_⟩
    rw [ho]
    simp only [SimulatorProcessParallel.blockStep, busy, Option.elim_some, Option.elim_none]
    omega

/-- A thread that holds no block takes the next one, or finds that none is left. -/
theorem Running.fetch {s : SimulatorProcessParallel α T W} (s' : SimulatorProcessParallel α T W)
    {f : Option W → Option (BlockPc α T)} {h : List (Event α T)} {v : List α} {t : T}
    {is : List ℕ} (hs : Running s f h v t is) {o : Option W} (ho : f o = none)
    (hs' : s' = { s with blockId := s.blockId - 1, caller := s'.caller, workers := s'.workers }) :
    Running s' (Function.update f o (if 0 ≤ s.blockId then some (.size s.blockId) else none))
      h v t is := by
  rw [hs']
  have hbusy := Lib.sum_update busy f (Finset.mem_univ o)
  have hleft := fun i => Lib.sum_update (leftIn v.length s.blockSize i) f (Finset.mem_univ o)
  split_ifs with hpos
  · obtain ⟨b, hb⟩ : ∃ b : ℕ, s.blockId = b := ⟨_, (Int.toNat_of_nonneg hpos).symm⟩
    have hsucc : (s.blockId + 1).toNat = b + 1 := by omega
    have hpred : (s.blockId - 1 + 1).toNat = b := by omega
    refine ⟨hs.jobs, hs.time, hs.events, fun o' pc' h' => ?_, fun i => ?_, ?_⟩
    · by_cases e : o' = o
      · subst e; rw [Function.update_self] at h'; cases h'; exact hpos
      · rw [Function.update_of_ne e] at h'; exact hs.valid o' pc' h'
    · -- The elements of the block go from the free blocks to the thread.
      have hsplit : within 0 (min v.length ((b + 1) * s.blockSize)) i =
          within 0 (min v.length (b * s.blockSize)) i +
            within (b * s.blockSize) (min v.length (b * s.blockSize + s.blockSize)) i := by
        have : (b + 1) * s.blockSize = b * s.blockSize + s.blockSize := by ring
        rw [this]
        unfold within
        split_ifs <;> omega
      have h1 := hs.share i
      have h2 := hleft i (some (.size s.blockId))
      have h3 : leftIn v.length s.blockSize i (some (BlockPc.size s.blockId : BlockPc α T)) =
          within (b * s.blockSize) (min v.length (b * s.blockSize + s.blockSize)) i := by
        simp [leftIn, BlockPc.left, hb]
      have h4 : leftIn v.length s.blockSize i (none : Option (BlockPc α T)) = 0 := rfl
      rw [hsucc, hsplit] at h1
      rw [ho, h4, h3] at h2
      simp only [hpred]
      omega
    · have h1 := hs.count
      have h2 := hbusy (some (.size s.blockId))
      have h3 : busy (some (BlockPc.size s.blockId : BlockPc α T)) = 1 := rfl
      have h4 : busy (none : Option (BlockPc α T)) = 0 := rfl
      rw [hsucc] at h1
      rw [ho, h3, h4] at h2
      simp only [hpred]
      omega
  · have hnone : (s.blockId - 1 + 1).toNat = (s.blockId + 1).toNat := by omega
    rw [show Function.update f o none = f by rw [← ho, Function.update_eq_self]]
    exact ⟨hs.jobs, hs.time, hs.events, hs.valid, fun i => by simp only [hnone]; exact hs.share i,
      by simp only [hnone]; exact hs.count⟩

/-- A worker's step keeps the call running. -/
theorem Running.workerStep {s : SimulatorProcessParallel α T W} {h : List (Event α T)}
    {v : List α} {t : T} {is : List ℕ} (hs : Running s s.holds h v t is) (w : W) :
    ∃ is', Running (s.workerStep w) (s.workerStep w).holds h v t is' := by
  -- A worker that holds no block before or after its step changes nothing of the call.
  have hturn : ∀ pc : WorkerPc α T, pc.held = none → (s.workers w).held = none →
      Running { s with workers := Function.update s.workers w pc }
        (SimulatorProcessParallel.holds { s with workers := Function.update s.workers w pc })
        h v t is := by
    intro pc hpc hw
    rw [holds_worker, hpc, show Function.update s.holds (some w) none = s.holds by
      rw [← hw]; exact Function.update_eq_self _ _]
    exact ⟨hs.jobs, hs.time, hs.events, hs.valid, hs.share, hs.count⟩
  unfold SimulatorProcessParallel.workerStep
  cases hpc : s.workers w with
  | flag => exact ⟨is, hturn _ (by split_ifs <;> rfl) (by rw [hpc]; rfl)⟩
  | fetch =>
    have hw : s.holds (some w) = none := by rw [holds, hpc]; rfl
    refine ⟨is, ?_⟩
    have hf := hs.fetch (o := some w) { s with
      blockId := s.blockId - 1
      workers := Function.update s.workers w
        (if 0 ≤ s.blockId then .block (.size s.blockId) else .sleep) } hw rfl
    have hh := holds_worker { s with blockId := s.blockId - 1 } w
      (if 0 ≤ s.blockId then .block (.size s.blockId) else .sleep)
    have hheld : WorkerPc.held (if 0 ≤ s.blockId then .block (.size s.blockId) else .sleep) =
        if 0 ≤ s.blockId then some (BlockPc.size s.blockId : BlockPc α T) else none := by
      split_ifs <;> rfl
    rw [hheld] at hh
    dsimp only
    rw [hh]
    exact hf
  | block pc =>
    have hw : s.holds (some w) = some pc := by rw [holds, hpc]; rfl
    obtain ⟨is', hs'⟩ := hs.blockStep hw
    refine ⟨is', ?_⟩
    have hholds := blockStep_holds s pc
    have hh := holds_worker (s.blockStep pc).1 w (match (s.blockStep pc).2 with
      | some pc' => .block pc'
      | none => .flag)
    have hheld : WorkerPc.held (match (s.blockStep pc).2 with
        | some pc' => .block pc'
        | none => .flag) = (s.blockStep pc).2 := by
      cases (s.blockStep pc).2 <;> rfl
    rw [hheld, hholds] at hh
    dsimp only
    rw [hh]
    exact ⟨hs'.jobs, hs'.time, hs'.events, hs'.valid, hs'.share, hs'.count⟩
  | sleep => exact ⟨is, hturn _ rfl (by rw [hpc]; rfl)⟩
  | exited => exact ⟨is, hs⟩

/-- A step of the calling thread keeps the invariant. -/
theorem Inv.callerStep {s : SimulatorProcessParallel α T W} (hb : 1 ≤ s.blockSize) (hi : Inv s) :
    Inv s.callerStep := by
  unfold Inv at hi
  unfold SimulatorProcessParallel.callerStep
  have hturn : ∀ pc : CallerPc α T, s.caller.held = none → pc.held = none →
      SimulatorProcessParallel.holds { s with caller := pc } = s.holds :=
    fun pc hnone hpc => holds_turn s pc hnone hpc
  cases hpc : s.caller with
  | outside => unfold Inv; simpa only [hpc] using hi
  | setJobs v t =>
    simp only [hpc] at hi hturn
    have hh := hturn (.setTime v t) rfl rfl
    exact ⟨⟨hi.1.blockId, fun o => (congrFun hh o).trans (hi.1.holds o)⟩, rfl, hi.2⟩
  | setTime v t =>
    simp only [hpc] at hi hturn
    obtain ⟨hq, hjobs, h, hc, hevents⟩ := hi
    have hh := hturn (.storeCount v) rfl rfl
    exact ⟨⟨hq.blockId, fun o => (congrFun hh o).trans (hq.holds o)⟩, hjobs, h, t, hc, rfl,
      hevents⟩
  | storeCount v =>
    simp only [hpc] at hi hturn
    obtain ⟨hq, hjobs, h, t, hc, htime, hevents⟩ := hi
    have hh := hturn (.storeId (blocks v.length s.blockSize)) rfl rfl
    exact ⟨⟨hq.blockId, fun o => (congrFun hh o).trans (hq.holds o)⟩, h, v, t, hc, hjobs, htime,
      hevents, rfl, rfl⟩
  | storeId sz =>
    simp only [hpc] at hi hturn
    obtain ⟨hq, h, v, t, hc, hjobs, htime, hevents, rfl, hcount⟩ := hi
    refine ⟨h, v, t, [], hc, ?_⟩
    have hs := hq.start { s with blockId := blocks v.length s.blockSize, caller := .fetch }
      hb hjobs htime hevents hcount rfl
    rw [← hturn .fetch rfl rfl] at hs
    exact hs
  | fetch =>
    simp only [hpc] at hi hturn
    obtain ⟨h, v, t, is, hc, hs⟩ := hi
    have hnone : s.holds none = none := by rw [holds, hpc]; rfl
    have hf := hs.fetch (o := none) { s with
      blockId := s.blockId - 1
      caller := if s.blockId < 0 then .wait else .block (.size s.blockId) } hnone rfl
    have hh := holds_caller s (if s.blockId < 0 then .wait else .block (.size s.blockId))
    have hheld : CallerPc.held (if s.blockId < 0 then .wait else .block (.size s.blockId)) =
        if 0 ≤ s.blockId then some (BlockPc.size s.blockId : BlockPc α T) else none := by
      split_ifs <;> first | rfl | omega
    rw [← hheld, ← hh] at hf
    dsimp only
    unfold Inv
    split_ifs at hf ⊢
    · exact ⟨h, v, t, is, hc, hf⟩
    · exact ⟨h, v, t, is, hc, hf⟩
  | block pc =>
    simp only [hpc] at hi
    obtain ⟨h, v, t, is, hc, hs⟩ := hi
    have hsome : s.holds none = some pc := by rw [holds, hpc]; rfl
    obtain ⟨is', hs'⟩ := hs.blockStep hsome
    have hholds : (s.blockStep pc).1.holds = s.holds := blockStep_holds s pc
    have hh := holds_caller (s.blockStep pc).1
    rw [hholds] at hh
    dsimp only
    cases hnext : (s.blockStep pc).2 with
    | some pc' =>
      rw [hnext] at hs'
      refine ⟨h, v, t, is', hc, ?_⟩
      dsimp only
      rw [hh]
      exact ⟨hs'.jobs, hs'.time, hs'.events, hs'.valid, hs'.share, hs'.count⟩
    | none =>
      rw [hnext] at hs'
      refine ⟨h, v, t, is', hc, ?_⟩
      dsimp only
      rw [hh]
      exact ⟨hs'.jobs, hs'.time, hs'.events, hs'.valid, hs'.share, hs'.count⟩
  | wait =>
    simp only [hpc] at hi hturn
    obtain ⟨h, v, t, is, hc, hs⟩ := hi
    dsimp only
    split_ifs with hpos
    · unfold Inv
      simp only [hpc]
      exact ⟨h, v, t, is, hc, hs⟩
    · obtain ⟨hq, hperm⟩ := hs.done (by omega)
      have hh := hturn .clearJobs rfl rfl
      exact ⟨⟨hq.blockId, fun o => (congrFun hh o).trans (hq.holds o)⟩, h, v, t, handled v t is, hc,
        handled_perm v t hperm, hs.events⟩
  | clearJobs =>
    simp only [hpc] at hi hturn
    obtain ⟨hq, h, v, t, ps, hc, hps, hevents⟩ := hi
    have hh := hturn .outside rfl rfl
    refine ⟨⟨hq.blockId, fun o => (congrFun hh o).trans (hq.holds o)⟩, ?_⟩
    have hcompleted := Completed.call v t hc hps
    simpa [record, hevents] using hcompleted

/-- A step of a worker keeps the invariant. -/
theorem Inv.workerStep {s : SimulatorProcessParallel α T W} (hi : Inv s) (w : W) :
    Inv (s.workerStep w) := by
  have hcaller := (workerStep_frame s w).1
  have hsize := (workerStep_frame s w).2
  -- Before the second counter is set and after the call is over, the worker only turns.
  have hquiet : Quiet s s.holds → _ := fun hq => hq.workerStep w
  have hrunning : (∃ h v t is, Completed h ∧ Running s s.holds h v t is) →
      ∃ h v t is, Completed h ∧ Running (s.workerStep w) (s.workerStep w).holds h v t is := by
    rintro ⟨h, v, t, is, hc, hs⟩
    obtain ⟨is', hs'⟩ := hs.workerStep w
    exact ⟨h, v, t, is', hc, hs'⟩
  unfold Inv at hi ⊢
  rw [hcaller]
  cases hpc : s.caller with
  | fetch | block pc | wait =>
    simp only [hpc] at hi
    exact hrunning hi
  | outside | setJobs v t | setTime v t | storeCount v | storeId sz | clearJobs =>
    simp only [hpc] at hi
    obtain ⟨hq, hrest⟩ := hi
    obtain ⟨hq', hjobs, htime, hevents, hcount⟩ := hquiet hq
    refine ⟨hq', ?_⟩
    simpa only [hjobs, htime, hevents, hcount, hsize] using hrest

/-- Every step keeps the invariant. -/
theorem Inv.step {s s' : SimulatorProcessParallel α T W} (hb : 1 ≤ s.blockSize) (hi : Inv s)
    (h : Step s s') : Inv s' ∧ s'.blockSize = s.blockSize := by
  cases h with
  | enter v t hout hrun =>
    unfold Inv at hi
    rw [hout] at hi
    have hh := holds_turn (s.record (.enter v t)) (.setJobs v t)
      (congrArg CallerPc.held hout) rfl
    exact ⟨⟨⟨hi.1.blockId, fun o => (congrFun hh o).trans (hi.1.holds o)⟩, s.events, hi.2, rfl⟩,
      rfl⟩
  | caller => exact ⟨hi.callerStep hb, callerStep_blockSize s⟩
  | worker w => exact ⟨hi.workerStep w, (workerStep_frame s w).2⟩
  | stop hout =>
    refine ⟨?_, rfl⟩
    unfold Inv at hi ⊢
    simp only [hout] at hi ⊢
    refine ⟨⟨hi.1.blockId, fun o => ?_⟩, hi.2⟩
    cases o with
    | none => rfl
    | some w => exact hi.1.holds (some w)

omit [DecidableEq W] in
/-- The invariant holds at the start. -/
theorem Inv.init (blockSize : ℕ) : Inv (init blockSize : SimulatorProcessParallel α T W) := by
  refine ⟨⟨neg_one_lt_zero, fun o => ?_⟩, .nil⟩
  cases o <;> rfl

/-- Every reachable state has the invariant. -/
theorem Reachable.inv {blockSize : ℕ} (hb : 1 ≤ blockSize) {s : SimulatorProcessParallel α T W}
    (h : Reachable blockSize s) : Inv s ∧ s.blockSize = blockSize := by
  induction h with
  | refl => exact ⟨Inv.init blockSize, rfl⟩
  | tail _ hstep ih =>
    obtain ⟨hi, hsize⟩ := ih
    obtain ⟨hi', hsize'⟩ := hi.step (hsize ▸ hb) hstep
    exact ⟨hi', hsize'.trans hsize⟩

/-- In every interleaving, outside of `for_each` the run is a sequence of completed calls, each of
which processed every element of its own vector once at its own date before it returned; inside of
it, the call in progress has only processed elements of its own vector, none of them twice. -/
theorem reachable_history {blockSize : ℕ} (hb : 1 ≤ blockSize)
    {s : SimulatorProcessParallel α T W} (h : Reachable blockSize s) :
    (s.caller = .outside → Completed s.events) ∧
    (s.caller ≠ .outside → ∃ past v t ps, Completed past ∧ ps.Subperm (processes v t) ∧
      s.events = past ++ .enter v t :: ps) := by
  obtain ⟨hi, -⟩ := h.inv hb
  unfold Inv at hi
  cases hpc : s.caller with
  | outside =>
    simp only [hpc] at hi
    exact ⟨fun _ => hi.2, fun hne => absurd rfl hne⟩
  | setJobs v t =>
    simp only [hpc] at hi
    obtain ⟨-, past, hc, hevents⟩ := hi
    exact ⟨nofun, fun _ => ⟨past, v, t, [], hc, List.nil_subperm, hevents⟩⟩
  | setTime v t =>
    simp only [hpc] at hi
    obtain ⟨-, -, past, hc, hevents⟩ := hi
    exact ⟨nofun, fun _ => ⟨past, v, t, [], hc, List.nil_subperm, hevents⟩⟩
  | storeCount v =>
    simp only [hpc] at hi
    obtain ⟨-, -, past, t, hc, -, hevents⟩ := hi
    exact ⟨nofun, fun _ => ⟨past, v, t, [], hc, List.nil_subperm, hevents⟩⟩
  | storeId sz =>
    simp only [hpc] at hi
    obtain ⟨-, past, v, t, hc, -, -, hevents, -⟩ := hi
    exact ⟨nofun, fun _ => ⟨past, v, t, [], hc, List.nil_subperm, hevents⟩⟩
  | fetch | block pc | wait =>
    simp only [hpc] at hi
    obtain ⟨past, v, t, is, hc, hs⟩ := hi
    exact ⟨nofun, fun _ => ⟨past, v, t, handled v t is, hc, handled_subperm v t hs.subperm,
      hs.events⟩⟩
  | clearJobs =>
    simp only [hpc] at hi
    obtain ⟨-, past, v, t, ps, hc, hps, hevents⟩ := hi
    exact ⟨nofun, fun _ => ⟨past, v, t, ps, hc, hps.subperm, hevents⟩⟩

/-- A call on two elements whose single worker never wakes up: the calling thread takes the three
blocks itself, the empty one first. -/
theorem single_call_history : ∃ s : SimulatorProcessParallel ℕ ℕ (Fin 1), Reachable 1 s ∧
    s.events = [.enter [7, 8] 3, .processed 1 8 3, .processed 0 7 3, .leave] ∧
    Completed s.events := by
  have hiter : ∀ (k : ℕ) (s : SimulatorProcessParallel ℕ ℕ (Fin 1)), Reachable 1 s →
      Reachable 1 (callerStep^[k] s) := by
    intro k
    induction k with
    | zero => exact fun _ h => h
    | succ k ih => exact fun s h => ih _ (h.tail (.caller s))
  have hs := hiter 23 _ (Relation.ReflTransGen.single (.enter _ [7, 8] 3 rfl rfl))
  exact ⟨_, hs, rfl, (reachable_history le_rfl hs).1 rfl⟩

end Invariant

end Vle.Devs.ForEach
