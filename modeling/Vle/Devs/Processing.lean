import Vle.Devs.Loading

/-!
# Transitions

The second part of a step calls one transition of each simulator of the bag, and puts those that have a
next date back in the heap. `Processing` is a state on the way: a simulator of the bag waits for its
transition with the events that it received, or was called and waits for its next date to be scheduled;
any other is idle. What an executive commands on the way adds idle simulators.
-/

namespace Vle.Devs

open Vle.Lib Vle.Lib.EState Vle.Vpz

variable {σ V : Type}

/-- The transition that is called, for whether there is an internal event and for the events received. -/
def kindOf (internal : Bool) (events : List (ExternalEvent V)) : Transition :=
  if internal then
    if events.isEmpty then .internal else .confluent
  else .external

/-- How far a step is with a simulator. -/
inductive Status where
  | waiting
  | called
  | idle

/-- A simulator whose transition is to be called. -/
structure Core.Waiting (internal : Bool) (events : List (ExternalEvent V)) (core : Core V) : Prop where
  handle : core.handle = none
  haveInternal : core.haveInternal = internal
  externalEvents : core.externalEvents = events
  result : core.result = []

/-- A simulator whose transition was called, with its next date. -/
structure Core.Called (t : Time) (core : Core V) : Prop where
  handle : core.handle = none
  haveInternal : core.haveInternal = false
  externalEvents : core.externalEvents = []
  result : core.result = []
  tn : t ≤ core.tn

/-- The state of a step after some transitions, which are the last calls. -/
structure Processing (internal : SimId → Bool) (events : SimId → List (ExternalEvent V))
    (k₁ : Kernel σ V) (status : SimId → Status) (l : List (Event σ V)) (k : Kernel σ V) : Prop
    extends Scheduled k₁.currentTime k where
  nextSim : k₁.nextSim ≤ k.nextSim
  old : ∀ id, status id ≠ .idle → id < k₁.nextSim
  waiting : ∀ id core, status id = .waiting → k.cores id = some core →
    core.Waiting (internal id) (events id)
  called : ∀ id core, status id = .called → k.cores id = some core → core.Called k₁.currentTime
  idle : ∀ id core, status id = .idle → k.cores id = some core → core.Idle
  currentBag : k.table.currentBag = k₁.table.currentBag
  tableTime : k.table.currentTime = k₁.table.currentTime
  currentTime : k.currentTime = k₁.currentTime
  parallelize : k.parallelize = k₁.parallelize
  calls : k.calls = k₁.calls ++ l

section Steps

variable {internal : SimId → Bool} {events : SimId → List (ExternalEvent V)} {k₁ k k' : Kernel σ V}
  {status : SimId → Status} {l : List (Event σ V)} {id : SimId} {core core' : Core V}

/-- What an executive commands leaves the simulators of the bag as they are. -/
theorem Processing.grown (h : Processing internal events k₁ status l k)
    (hg : Grown k₁.currentTime k k') : Processing internal events k₁ status l k' where
  toScheduled := hg.toScheduled
  nextSim := h.nextSim.trans hg.nextSim
  old := h.old
  waiting id core hs hid := by
    rw [hg.old id ((h.old id (by simp [hs])).trans_le h.nextSim)] at hid
    exact h.waiting id core hs hid
  called id core hs hid := by
    rw [hg.old id ((h.old id (by simp [hs])).trans_le h.nextSim)] at hid
    exact h.called id core hs hid
  idle id core hs hid := by
    by_cases hlt : id < k.nextSim
    · rw [hg.old id hlt] at hid
      exact h.idle id core hs hid
    · exact hg.new id core (not_lt.mp hlt) hid
  currentBag := hg.currentBag.trans h.currentBag
  tableTime := hg.tableTime.trans h.tableTime
  currentTime := hg.currentTime.trans h.currentTime
  parallelize := hg.parallelize.trans h.parallelize
  calls := hg.calls.trans h.calls

/-- A transition was called, and gave a next date. -/
theorem Processing.call (h : Processing internal events k₁ status l k) (hid : k.cores id = some core)
    (hstatus : status id = .waiting) (hhandle : core'.handle = core.handle)
    (hcalled : core'.Called k₁.currentTime) (event : Event σ V) :
    Processing internal events k₁ (Function.update status id .called) (l ++ [event])
      { k.put id core' with calls := k.calls ++ [event] } where
  toScheduled := by
    have hnone := (h.waiting id core hstatus hid).handle
    have hput : Scheduled k₁.currentTime (k.put id core') := h.toScheduled.put hid hhandle (.inl hnone)
    exact hput.withBag _ _
  nextSim := h.nextSim
  old i hi := by
    by_cases heq : i = id
    · exact heq ▸ h.old id (by simp [hstatus])
    · exact h.old i (by rwa [Function.update_of_ne heq] at hi)
  waiting i c hs hc := by
    have heq : i ≠ id := by
      rintro rfl
      simp at hs
    simp only [Kernel.put, Function.update_of_ne heq] at hs hc
    exact h.waiting i c hs hc
  called i c hs hc := by
    by_cases heq : i = id
    · subst heq
      simp only [Kernel.put, Function.update_self, Option.some.injEq] at hc
      exact hc ▸ hcalled
    · simp only [Kernel.put, Function.update_of_ne heq] at hs hc
      exact h.called i c hs hc
  idle i c hs hc := by
    have heq : i ≠ id := by
      rintro rfl
      simp at hs
    simp only [Kernel.put, Function.update_of_ne heq] at hs hc
    exact h.idle i c hs hc
  currentBag := h.currentBag
  tableTime := h.tableTime
  currentTime := h.currentTime
  parallelize := h.parallelize
  calls := by
    change k.calls ++ [event] = _
    rw [h.calls, List.append_assoc]

/-- A simulator that was called has no next date. -/
theorem Processing.leave (h : Processing internal events k₁ status l k) (hid : k.cores id = some core)
    (hstatus : status id = .called) (hinf : isInfinity core.tn = true) :
    Processing internal events k₁ (Function.update status id .idle) l k where
  toScheduled := h.toScheduled
  nextSim := h.nextSim
  old i hi := by
    have heq : i ≠ id := by
      rintro rfl
      simp at hi
    exact h.old i (by rwa [Function.update_of_ne heq] at hi)
  waiting i c hs hc := by
    have heq : i ≠ id := by
      rintro rfl
      simp at hs
    exact h.waiting i c (by rwa [Function.update_of_ne heq] at hs) hc
  called i c hs hc := by
    have heq : i ≠ id := by
      rintro rfl
      simp at hs
    exact h.called i c (by rwa [Function.update_of_ne heq] at hs) hc
  idle i c hs hc := by
    by_cases heq : i = id
    · subst heq
      rw [hid, Option.some.injEq] at hc
      have hcalled := h.called i core hstatus hid
      exact hc ▸ ⟨hcalled.haveInternal, hcalled.externalEvents, hcalled.result, fun _ => hinf⟩
    · exact h.idle i c (by rwa [Function.update_of_ne heq] at hs) hc
  currentBag := h.currentBag
  tableTime := h.tableTime
  currentTime := h.currentTime
  parallelize := h.parallelize
  calls := h.calls

/-- A simulator that was called goes back to the heap. -/
theorem Processing.push (h : Processing internal events k₁ status l k) (hid : k.cores id = some core)
    (hstatus : status id = .called) (hinf : isInfinity core.tn = false) :
    Processing internal events k₁ (Function.update status id .idle) l (k.push id core core.tn) where
  toScheduled :=
    have hcalled := h.called id core hstatus hid
    h.toScheduled.push hid hcalled.handle hinf hcalled.tn
  nextSim := h.nextSim
  old i hi := by
    have heq : i ≠ id := by
      rintro rfl
      simp at hi
    exact h.old i (by rwa [Function.update_of_ne heq] at hi)
  waiting i c hs hc := by
    have heq : i ≠ id := by
      rintro rfl
      simp at hs
    simp only [Kernel.push, Function.update_of_ne heq] at hs hc
    exact h.waiting i c hs hc
  called i c hs hc := by
    have heq : i ≠ id := by
      rintro rfl
      simp at hs
    simp only [Kernel.push, Function.update_of_ne heq] at hs hc
    exact h.called i c hs hc
  idle i c hs hc := by
    by_cases heq : i = id
    · subst heq
      simp only [Kernel.push, Function.update_self, Option.some.injEq] at hc
      have hcalled := h.called i core hstatus hid
      exact hc ▸ ⟨hcalled.haveInternal, hcalled.externalEvents, hcalled.result,
        fun hnone => absurd hnone (Option.some_ne_none _)⟩
    · simp only [Kernel.push, Function.update_of_ne heq] at hs hc
      exact h.idle i c hs hc
  currentBag := h.currentBag
  tableTime := h.tableTime
  currentTime := h.currentTime
  parallelize := h.parallelize
  calls := h.calls

end Steps

/-! ## Programs -/

section Programs

variable {internal : SimId → Bool} {events : SimId → List (ExternalEvent V)} {k₁ : Kernel σ V}
  {status : SimId → Status} {l : List (Event σ V)} {id : SimId} {c : Coordinator σ V} {t₁ : Time}

/-- A time advance that is returned is not negative. -/
theorem wlp_timeAdvance (env : Environment σ V) (id : SimId) (c : Coordinator σ V) :
    wlp (Simulator.timeAdvance env id) (fun ta c' => kernel c' = kernel c ∧ ¬ ta < 0) c := by
  unfold Simulator.timeAdvance wlp
  rw [wp_bind]
  refine (still_dynamicsOf id).wp (fun d c₁ h₁ => ?_) fun _ _ _ => trivial
  rw [wp_bind]
  refine (still_ofExcept _).wp (fun tn c₂ h₂ => ?_) fun _ _ _ => trivial
  split_ifs with hneg
  · rw [wp_bind]
    exact (still_getName id).wp (fun _ _ _ => trivial) fun _ _ _ => trivial
  · exact ⟨h₂.trans h₁, hneg⟩

/-- The transition that a simulator of the bag is called with. -/
theorem process_eq (env : Environment σ V) (fuel : ℕ) (id : SimId) (time : Time) :
    Coordinator.process env fuel id time = (do
      let sim ← simulator id
      let kind := kindOf sim.haveInternal sim.externalEvents
      Simulator.transition env (Executive.perform env fuel) kind id time) := by
  unfold Coordinator.process
  congr 1
  funext sim
  unfold kindOf Simulator.haveInternalEvent Simulator.haveExternalEvents
  cases sim.haveInternal with
  | false => rfl
  | true =>
    cases sim.externalEvents with
    | nil => rfl
    | cons e l => rfl

/-- The transition is given the events received. -/
theorem events_kindOf (sim : Simulator σ V) :
    sim.events (kindOf sim.haveInternal sim.externalEvents) = sim.externalEvents := by
  unfold kindOf
  cases sim.haveInternal with
  | false => rfl
  | true =>
    cases h : sim.externalEvents with
    | nil => rfl
    | cons e l => exact h

/-- It clears what it was given. -/
theorem clear_kindOf (core : Core V) (sim : Simulator σ V) (h : sim.core = core) :
    (sim.clear (kindOf core.haveInternal core.externalEvents)).core =
      { core with haveInternal := false, externalEvents := [] } := by
  subst h
  unfold kindOf Simulator.core
  cases hi : sim.haveInternal with
  | false => simp [Simulator.clear, hi]
  | true =>
    cases he : sim.externalEvents with
    | nil => simp [Simulator.clear, he]
    | cons e l => simp [Simulator.clear]

/-- One transition, of a simulator that waits for it. -/
theorem wlp_process (env : Environment σ V) (fuel : ℕ) (hclock : k₁.currentTime = t₁)
    (h : Processing internal events k₁ status l (kernel c)) (hstatus : status id = .waiting) :
    wlp (Coordinator.process env fuel id t₁) (fun _ c' => ∃ state,
      Processing internal events k₁ (Function.update status id .called)
        (l ++ [.transition (kindOf (internal id) (events id)) id t₁ (events id) state]) (kernel c')) c := by
  subst hclock
  rw [process_eq]
  unfold wlp
  rw [wp_bind]
  refine wp_simulator trivial fun sim hsim => ?_
  have hcore : (kernel c).cores id = some sim.core := by simp [hsim]
  have hwaiting := h.waiting id _ hstatus hcore
  unfold Simulator.transition
  rw [wp_bind, wp_simulator_of hsim, events_kindOf, wp_bind]
  refine wp_dynamicsOf (fun _ => trivial) fun _ d _ _ => ?_
  rw [wp_bind]
  have hrun := (grows_perform env fuel).runScript (h.currentTime.ge) id
    (d.transition (kindOf sim.haveInternal sim.externalEvents) k₁.currentTime sim.externalEvents)
  refine wlp_mono ((hrun.wlp) h.toScheduled.grown_self) fun _ c₁ hgrown => ?_
  have h₁ := h.grown hgrown
  have hcore₁ : (kernel c₁).cores id = some sim.core :=
    (hgrown.old id (h.lt_nextSim hcore)).trans hcore
  rw [wp_bind]
  refine (still_dynamicsOf id).wp (fun d₁ c₂ h₂ => ?_) fun _ _ _ => trivial
  rw [wp_bind]
  refine wp_noteCall rfl fun c₃ h₃ => ?_
  rw [wp_bind]
  refine (still_simulator id).wp (fun _ c₄ h₄ => ?_) fun _ _ _ => trivial
  rw [wp_bind]
  refine (still_observe id _ _).wp (fun _ c₅ h₅ => ?_) fun _ _ _ => trivial
  rw [wp_bind]
  have hcore₅ : (kernel c₅).cores id = some sim.core := by rw [h₅, h₄, h₃, h₂, hcore₁]
  refine wp_modifyCore hcore₅ (clear_kindOf sim.core) fun c₆ h₆ => ?_
  rw [wp_bind]
  refine wlp_mono (wlp_timeAdvance env id c₆) fun ta c₇ ⟨h₇, hneg⟩ => ?_
  let core' : Core V := { sim.core with
    haveInternal := false, externalEvents := [], tn := ta + k₁.currentTime }
  have hcore₇ : (kernel c₇).cores id =
      some { sim.core with haveInternal := false, externalEvents := [] } := by
    rw [h₇, h₆]
    exact Function.update_self ..
  refine @wp_modifyCore _ _ _ _ _ _ _ _ core' hcore₇ ?_ fun c₈ h₈ => ⟨d₁.state, ?_⟩
  · rintro s hs
    have hcore' : (s.core) = { sim.core with haveInternal := false, externalEvents := [] } := hs
    simp only [Simulator.core, core', Core.mk.injEq] at hcore' ⊢
    simp [hcore']
  · have hcalled : core'.Called k₁.currentTime :=
      ⟨hwaiting.handle, rfl, rfl, hwaiting.result, le_add_date hneg⟩
    have hhandle : core'.handle = sim.core.handle := rfl
    have hcall := h₁.call hcore₁ hstatus hhandle hcalled
      (.transition (kindOf sim.haveInternal sim.externalEvents) id k₁.currentTime sim.externalEvents
        d₁.state)
    have hkernel : kernel c₈ = { (kernel c₁).put id core' with calls := (kernel c₁).calls ++
        [.transition (kindOf sim.haveInternal sim.externalEvents) id k₁.currentTime sim.externalEvents
          d₁.state] } := by
      rw [h₈, h₇, h₆, h₅, h₄, h₃, h₂]
      simp only [Kernel.put, Function.update_idem]
    rw [hkernel, ← hwaiting.haveInternal, ← hwaiting.externalEvents]
    exact hcall

/-- The next date of a simulator that was called is scheduled. -/
theorem wlp_schedule (h : Processing internal events k₁ status l (kernel c)) (hstatus : status id = .called) :
    wlp (Coordinator.schedule id) (fun _ c' =>
      Processing internal events k₁ (Function.update status id .idle) l (kernel c')) c := by
  unfold Coordinator.schedule wlp
  rw [wp_bind]
  refine wp_simulator trivial fun sim hsim => ?_
  have hcore : (kernel c).cores id = some sim.core := by simp [hsim]
  have hcalled := h.called id _ hstatus hcore
  dsimp only
  split_ifs with hinf
  · refine wp_addInternal hcore hcalled.handle fun c₁ h₁ => ?_
    rw [h₁]
    exact h.push hcore hstatus (by simpa [Simulator.core] using hinf)
  · exact h.leave hcore hstatus (by simpa [Simulator.core] using hinf)

/-! ## Loops -/

/-- What a loop over some simulators makes of them. -/
def Status.set (status : SimId → Status) (ids : List SimId) (s : Status) : SimId → Status := fun id =>
  if id ∈ ids then s else status id

theorem Status.set_of_mem {status : SimId → Status} {ids : List SimId} {s : Status} {id : SimId}
    (h : id ∈ ids) : Status.set status ids s id = s := if_pos h

theorem Status.set_of_notMem {status : SimId → Status} {ids : List SimId} {s : Status} {id : SimId}
    (h : id ∉ ids) : Status.set status ids s id = status id := if_neg h

theorem Status.set_cons (status : SimId → Status) (id : SimId) (ids : List SimId) (s : Status) :
    Status.set (Function.update status id s) ids s = Status.set status (id :: ids) s := by
  funext i
  unfold Status.set
  by_cases heq : i = id
  · subst heq
    simp
  · simp [heq]

/-- The call of a transition. -/
def transitionOf (internal : SimId → Bool) (events : SimId → List (ExternalEvent V)) (time : Time)
    (call : SimId × σ) : Event σ V :=
  .transition (kindOf (internal call.1) (events call.1)) call.1 time (events call.1) call.2

/-- A transition of each of some simulators. -/
theorem wlp_processAll (env : Environment σ V) (fuel : ℕ) (hclock : k₁.currentTime = t₁)
    (ids : List SimId) (hids : ids.Nodup) (hstatus : ∀ id ∈ ids, status id = .waiting)
    (h : Processing internal events k₁ status l (kernel c)) :
    wlp (ids.forM fun id => Coordinator.process env fuel id t₁) (fun _ c' => ∃ trans : List (SimId × σ),
      trans.map (·.1) = ids ∧ Processing internal events k₁ (Status.set status ids .called)
        (l ++ trans.map (transitionOf internal events t₁)) (kernel c')) c := by
  induction ids generalizing status l c with
  | nil =>
    refine ⟨[], rfl, ?_⟩
    rw [List.map_nil, List.append_nil]
    exact h
  | cons id ids ih =>
    obtain ⟨hnot, hids⟩ := List.nodup_cons.mp hids
    unfold wlp
    rw [wp_forM_cons]
    refine wlp_mono (wlp_process env fuel hclock h (hstatus id List.mem_cons_self)) ?_
    rintro _ c₁ ⟨state, h₁⟩
    have hrest : ∀ i ∈ ids, Function.update status id .called i = .waiting := by
      intro i hi
      have hne : i ≠ id := fun heq => hnot (heq ▸ hi)
      rw [Function.update_of_ne hne]
      exact hstatus i (List.mem_cons_of_mem _ hi)
    refine wlp_mono (ih hids hrest h₁) ?_
    rintro _ c₂ ⟨trans, htrans, h₂⟩
    refine ⟨(id, state) :: trans, by rw [List.map_cons, htrans], ?_⟩
    rw [Status.set_cons, List.append_assoc] at h₂
    exact h₂

/-- The next dates of some simulators are scheduled. -/
theorem wlp_scheduleAll (ids : List SimId) (hids : ids.Nodup) (hstatus : ∀ id ∈ ids, status id = .called)
    (h : Processing internal events k₁ status l (kernel c)) :
    wlp (ids.forM Coordinator.schedule) (fun _ c' =>
      Processing internal events k₁ (Status.set status ids .idle) l (kernel c')) c := by
  induction ids generalizing status c with
  | nil => exact h
  | cons id ids ih =>
    obtain ⟨hnot, hids⟩ := List.nodup_cons.mp hids
    unfold wlp
    rw [wp_forM_cons]
    refine wlp_mono (wlp_schedule h (hstatus id List.mem_cons_self)) fun _ c₁ h₁ => ?_
    have hrest : ∀ i ∈ ids, Function.update status id .idle i = .called := by
      intro i hi
      have hne : i ≠ id := fun heq => hnot (heq ▸ hi)
      rw [Function.update_of_ne hne]
      exact hstatus i (List.mem_cons_of_mem _ hi)
    refine wlp_mono (ih hids hrest h₁) fun _ c₂ h₂ => ?_
    rwa [Status.set_cons] at h₂

end Programs

end Vle.Devs
