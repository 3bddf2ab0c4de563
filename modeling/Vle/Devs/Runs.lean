import Vle.Devs.Steps

/-!
# Runs

The states that the root coordinator reaches from a first state, with one thread. In each of them the heap,
the handles, the dates of the simulators and the bag are in accordance (`reached_accordance`), and a step
from it is a step of Parallel DEVS (`reached_step`).
-/

namespace Vle.Devs

open Vle.Lib Vle.Lib.EState Vle.Vpz

variable {σ V : Type}

/-- The states that the root coordinator reaches, without the pool of threads. -/
inductive Reached (env : Environment σ V) : Coordinator σ V → Prop
  | init (graph : Graph) (fuel : ℕ) (node : Option NodeId) (current duration : ℚ) (c : Coordinator σ V) :
    Coordinator.init env fuel node current duration { graph } = .ok () c → Reached env c
  | run (fuel : ℕ) (c : Coordinator σ V) (b : Bool) (c' : Coordinator σ V) : Reached env c →
    Coordinator.rootRun env fuel c = .ok b c' → Reached env c'

section Reached

variable {env : Environment σ V} {fuel : ℕ} {c c' : Coordinator σ V}

/-- The root coordinator makes a step when the date is not past the end. -/
theorem rootRun_ok {b : Bool} (h : Coordinator.rootRun env fuel c = .ok b c') :
    (b = false ∧ c' = c) ∨ (b = true ∧ isInfinity c.currentTime = false ∧
      c.currentTime ≤ c.durationTime ∧ Coordinator.run env fuel c = .ok () c') := by
  unfold Coordinator.rootRun at h
  obtain ⟨c₁, s, hget, hrest⟩ := bind_eq_ok.mp h
  cases hget
  split_ifs at hrest with hover
  · cases hrest
    exact .inl ⟨rfl, rfl⟩
  · rw [not_or, not_lt] at hover
    obtain ⟨_, c₂, hstep, hpure⟩ := bind_eq_ok.mp hrest
    cases hpure
    exact .inr ⟨rfl, by simpa using hover.1, hover.2, hstep⟩

/-- A state that is reached is ready for a step. -/
theorem Reached.ready (h : Reached env c) : Ready (kernel c) ∧ c.parallelize = false := by
  induction h with
  | init graph fuel node current duration c hc =>
    exact wlp_iff.mp (wlp_init env fuel graph node current duration) _ _ hc
  | run fuel c b c' _ hrun ih =>
    rcases rootRun_ok hrun with ⟨-, rfl⟩ | ⟨-, -, -, hstep⟩
    · exact ih
    · obtain ⟨hready, hseq, -⟩ := wlp_iff.mp (wlp_run env fuel ih.1 ih.2) _ _ hstep
      exact ⟨hready, hseq⟩

end Reached

/-- The scheduler, the simulators and the bag are in accordance between two steps. -/
structure Accordance (c : Coordinator σ V) : Prop where
  /-- A simulator has one element in the heap at most. -/
  single : (c.eventTable.scheduler.map (·.simulator)).Nodup
  /-- The handle of a simulator is that of its element. -/
  handle : ∀ id sim, c.sims id = some sim → ∀ n, sim.handle = some n ↔
    ∃ e ∈ c.eventTable.scheduler, e.simulator = id ∧ e.handle = n
  /-- The key of an element is the next date of its simulator, after that of the bag. -/
  key : ∀ e ∈ c.eventTable.scheduler, ∃ sim, c.sims e.simulator = some sim ∧ sim.tn = e.time ∧
    c.eventTable.currentTime < e.time
  /-- A simulator with a next date is in the bag, at its date, or in the heap. -/
  scheduled : ∀ id sim, c.sims id = some sim → isInfinity sim.tn = false →
    (id ∈ c.eventTable.currentBag.uniqueSimulators ∧ sim.tn = c.eventTable.currentTime) ∨
      ∃ e ∈ c.eventTable.scheduler, e.simulator = id ∧ e.time = sim.tn
  nodup : (c.eventTable.currentBag.dynamics ++ c.eventTable.currentBag.executives).Nodup
  unique : ∀ id, id ∈ c.eventTable.currentBag.uniqueSimulators ↔
    id ∈ c.eventTable.currentBag.dynamics ∨ id ∈ c.eventTable.currentBag.executives
  executive : ∀ id ∈ c.eventTable.currentBag.uniqueSimulators, ∃ sim d, c.sims id = some sim ∧
    sim.dynamics = some d ∧ (id ∈ c.eventTable.currentBag.executives ↔ d.isExecutive = true)
  /-- The flag of an internal event is set for the simulators of the bag, which are due. -/
  internal : ∀ id sim, c.sims id = some sim → (sim.haveInternal = true ↔
    id ∈ c.eventTable.currentBag.uniqueSimulators ∧ sim.tn = c.eventTable.currentTime)
  /-- No event is left over from another step. -/
  cleared : ∀ id sim, c.sims id = some sim → sim.externalEvents = [] ∧ sim.result = []

section Reached

variable {env : Environment σ V} {fuel : ℕ} {c c' : Coordinator σ V}

/-- A state that is ready is in accordance. -/
theorem Ready.accordance (h : Ready (kernel c)) : Accordance c := by
  have hcore : ∀ {id : SimId} {sim : Simulator σ V}, c.sims id = some sim →
      (kernel c).cores id = some sim.core := fun hsim => by simp [hsim]
  have hsim : ∀ {id : SimId} {core : Core V}, (kernel c).cores id = some core →
      ∃ sim, c.sims id = some sim ∧ sim.core = core := fun hid => Option.map_eq_some_iff.mp hid
  have hexec : ∀ {id : SimId} {b : Bool}, (∃ core, (kernel c).cores id = some core ∧
      core.executive = some b) → ∃ sim d, c.sims id = some sim ∧ sim.dynamics = some d ∧
        d.isExecutive = b := by
    rintro id b ⟨core, hid, hb⟩
    obtain ⟨sim, hs, rfl⟩ := hsim hid
    obtain ⟨d, hd, rfl⟩ := Option.map_eq_some_iff.mp hb
    exact ⟨sim, d, hs, hd, rfl⟩
  refine ⟨?_, fun id sim hs n => ⟨fun hn => ?_, ?_⟩, fun e he => ?_, fun id sim hs hfin => ?_, h.nodup,
    h.unique, fun id hid => ?_, fun id sim hs => ⟨fun hint => ?_, fun hin => ?_⟩, fun id sim hs => ?_⟩
  · refine List.Nodup.map_on (fun e he e' he' heq => ?_) (List.Nodup.of_map _ h.handles)
    obtain ⟨core, hid, hn, -⟩ := h.element e he
    obtain ⟨core', hid', hn', -⟩ := h.element e' he'
    rw [heq, hid', Option.some.injEq] at hid
    subst hid
    exact List.inj_on_of_nodup_map h.handles he he' (Option.some.inj (hn.symm.trans hn'))
  · obtain ⟨e, he, hen, hei⟩ := h.handle id sim.core n (hcore hs) hn
    exact ⟨e, he, hei, hen⟩
  · rintro ⟨e, he, rfl, rfl⟩
    obtain ⟨core, hid, hn, -⟩ := h.element e he
    rw [hcore hs, Option.some.injEq] at hid
    subst hid
    exact hn
  · obtain ⟨core, hid, -, htn⟩ := h.element e he
    obtain ⟨sim, hs, rfl⟩ := hsim hid
    exact ⟨sim, hs, htn, h.strict e he⟩
  · by_cases hin : id ∈ c.eventTable.currentBag.uniqueSimulators
    · exact .inl ⟨hin, (h.due id _ (hcore hs) hin).tn⟩
    · refine .inr ?_
      have hidle := h.idle id _ (hcore hs) hin
      cases hn : sim.handle with
      | none =>
        have hinf : isInfinity sim.tn = true := hidle.handle hn
        rw [hfin] at hinf
        cases hinf
      | some n =>
        obtain ⟨e, he, rfl, rfl⟩ := h.handle id sim.core n (hcore hs) hn
        obtain ⟨core, hid, -, htn⟩ := h.element e he
        rw [hcore hs, Option.some.injEq] at hid
        subst hid
        exact ⟨e, he, rfl, htn.symm⟩
  · rcases (h.unique id).mp hid with hd | he
    · obtain ⟨sim, d, hs, hdyn, hb⟩ := hexec (h.dynamics id hd)
      have hnot : id ∉ c.eventTable.currentBag.executives := fun he =>
        (List.nodup_append.mp h.nodup).2.2 id hd id he rfl
      exact ⟨sim, d, hs, hdyn, by simp [hnot, hb]⟩
    · obtain ⟨sim, d, hs, hdyn, hb⟩ := hexec (h.executives id he)
      have hmem : id ∈ c.eventTable.currentBag.executives := he
      exact ⟨sim, d, hs, hdyn, by simp [hmem, hb]⟩
  · by_cases hin : id ∈ c.eventTable.currentBag.uniqueSimulators
    · exact ⟨hin, (h.due id _ (hcore hs) hin).tn⟩
    · have hnone : sim.haveInternal = false := (h.idle id _ (hcore hs) hin).haveInternal
      rw [hnone] at hint
      cases hint
  · exact (h.due id _ (hcore hs) hin.1).haveInternal
  · by_cases hin : id ∈ c.eventTable.currentBag.uniqueSimulators
    · have hdue := h.due id _ (hcore hs) hin
      exact ⟨hdue.externalEvents, hdue.result⟩
    · have hidle := h.idle id _ (hcore hs) hin
      exact ⟨hidle.externalEvents, hidle.result⟩

end Reached

/-! ## A run

A model sends at each date from 1 on, and another one counts what it gets. -/

namespace Sample

/-- The model that sends. -/
def sender : Dynamics ℕ ℕ where
  state := 0
  isExecutive := false
  init _ s := .done s (date 1)
  output _ s := .ok [⟨"out", s⟩]
  timeAdvance _ := .ok (date 1)
  internalTransition _ s := .done (s + 1) ()
  externalTransition _ _ s := .done s ()
  confluentTransitions _ _ s := .done s ()
  finish s := (s, none)
  observation _ s := .ok s
  plain _ _ _ := ⟨trivial, trivial, fun _ => ⟨trivial, trivial⟩⟩

/-- The model that counts. -/
def counter : Dynamics ℕ ℕ where
  state := 0
  isExecutive := false
  init _ s := .done s infinity
  output _ _ := .ok []
  timeAdvance _ := .ok infinity
  internalTransition _ s := .done s ()
  externalTransition l _ s := .done (s + l.length) ()
  confluentTransitions _ l s := .done (s + l.length) ()
  finish s := (s, none)
  observation _ s := .ok s
  plain _ _ _ := ⟨trivial, trivial, fun _ => ⟨trivial, trivial⟩⟩

/-- Both models, connected. -/
def graph : Graph where
  model m := match m with
    | 0 => some {
        name := "top", parent := none
        kind := .coupled { modelList := (AList.insert "a" 1 ∅).insert "b" 2 } }
    | 1 => some {
        name := "a", parent := some 0
        outPortList := AList.insert "out" ⟨[(2, "in")], List.pairwise_singleton _ _⟩ ∅
        kind := .atomic { dynamics := "sender" } }
    | 2 => some {
        name := "b", parent := some 0
        inPortList := AList.insert "in" ⟨[(1, "out")], List.pairwise_singleton _ _⟩ ∅
        kind := .atomic { dynamics := "counter" } }
    | _ => none
  nextId := 3

/-- The names of the dynamics, without conditions, views and classes. -/
def env : Environment ℕ ℕ where
  pick _ := 0
  pickView _ := 0
  sort depth l := l.insertionSort fun a b => depth a ≤ depth b
  sort_perm _ l := List.perm_insertionSort _ l
  sort_sorted _ l := List.pairwise_insertionSort _ l
  jobs _ l := l
  jobs_perm _ l := .refl l
  format _ := ""
  dynamics name :=
    if name = "sender" then some fun _ _ _ => .ok sender
    else if name = "counter" then some fun _ _ _ => .ok counter
    else none
  classes _ := none
  conditions _ := .ok []
  observables _ := none
  views := ∅
  loadingProblem _ _ := ""

/-- What a program returns. -/
def returned {ε τ α : Type} : EStateM.Result ε τ α → Option α
  | .ok a _ => some a
  | .error _ _ => none

/-- The step at date 1, in which the first model sends. -/
theorem exists_step : ∃ c c', Reached env c ∧ Coordinator.rootRun env 1 c = .ok true c' ∧
    c.eventTable.currentBag.dynamics = [0] := by
  have hrun : returned ((do
      Coordinator.init env 1 (some 0) 0 10
      let _ ← Coordinator.rootRun env 1
      let c ← get
      let b ← Coordinator.rootRun env 1
      return (b, c.eventTable.currentBag.dynamics) : CoordM ℕ ℕ (Bool × List SimId)) { graph }) =
      some (true, [0]) := by decide +kernel
  unfold returned at hrun
  split at hrun
  · rename_i r c' hok
    cases hrun
    obtain ⟨_, c₁, hinit, hrest⟩ := bind_eq_ok.mp hok
    obtain ⟨b₁, c₂, hfirst, hrest⟩ := bind_eq_ok.mp hrest
    obtain ⟨_, c₃, hget, hrest⟩ := bind_eq_ok.mp hrest
    cases hget
    obtain ⟨b, c₄, hsecond, hpure⟩ := bind_eq_ok.mp hrest
    have hreached : Reached env c₁ := .init graph 1 (some 0) 0 10 c₁ hinit
    injection hpure with hpair hstate
    obtain ⟨rfl, hbag⟩ := Prod.mk.inj hpair
    exact ⟨c₂, c₄, hreached.run 1 c₁ b₁ c₂ hfirst, hsecond, hbag⟩
  · cases hrun

end Sample

section Reached

variable {env : Environment σ V} {fuel : ℕ} {c c' : Coordinator σ V}

/-- **One step is a step of Parallel DEVS.** From every state that the root coordinator reaches, a step is
made at a date that is not past the end: each simulator of the bag has its output function called once, and
each event that it emits is delivered to the ends of its port; then the simulators of the bag and the
receivers have one transition called each, whose kind and events are those of the step, and the next bag is
not earlier. -/
theorem reached_step (h : Reached env c) (hrun : Coordinator.rootRun env fuel c = .ok true c') :
    isInfinity c.eventTable.currentTime = false ∧ c.eventTable.currentTime ≤ c.durationTime ∧ Step c c' := by
  obtain ⟨hready, hseq⟩ := h.ready
  have hclock : c.currentTime = c.eventTable.currentTime := hready.clock
  rcases rootRun_ok hrun with ⟨hfalse, -⟩ | ⟨-, hfinite, hend, hstep⟩
  · cases hfalse
  · obtain ⟨-, -, hresult, -⟩ := wlp_iff.mp (wlp_run env fuel hready hseq) _ _ hstep
    exact ⟨hclock ▸ hfinite, hclock ▸ hend, hresult⟩

end Reached

/-- The step at date 1 is such a step. -/
theorem reached_step_sample : ∃ c c' : Coordinator ℕ ℕ, c.eventTable.currentBag.dynamics = [0] ∧
    c.eventTable.currentTime ≤ c.durationTime ∧ Step c c' := by
  obtain ⟨c, c', hreached, hrun, hbag⟩ := Sample.exists_step
  obtain ⟨-, hend, hstep⟩ := reached_step hreached hrun
  exact ⟨c, c', hbag, hend, hstep⟩

/-! ## Executives -/

/-- **Executives.** Whatever commands a function performs, with the models that they create and initialize,
and whether it ends well or throws, every simulator that there was keeps its date, its element of the heap,
its flags and its events, and so does the bag; the simulators that are created are idle, and in the heap
when they have a next date. -/
theorem runScript_grown {α : Type} (env : Environment σ V) (fuel : ℕ) (id : SimId) (s : Script σ V α)
    {t : Time} {c : Coordinator σ V} (h : Scheduled t (kernel c)) (hclock : t ≤ c.currentTime) :
    (∀ a c', runScript (Executive.perform env fuel) id s c = .ok a c' → Grown t (kernel c) (kernel c')) ∧
    ∀ e c', runScript (Executive.perform env fuel) id s c = .error e c' → Grown t (kernel c) (kernel c') := by
  have hrun : wp (runScript (Executive.perform env fuel) id s) (fun _ c' => Grown t (kernel c) (kernel c'))
      (fun _ c' => Grown t (kernel c) (kernel c')) c :=
    (grows_perform env fuel).runScript hclock id s c h.grown_self
  constructor
  · intro a c' hok
    have hgrown := wp_of_ok hrun hok
    exact hgrown
  · intro e c' herror
    have hgrown := wp_of_error hrun herror
    exact hgrown

namespace Sample

/-- A function that creates a model that sends. -/
def creation : Script ℕ ℕ Unit :=
  .call (.createModel "c" [] [] "sender" [] "" false fun _ => .ok []) fun _ _ => .done 5 ()

end Sample

/-- So it is for this one, in the run of the two models. -/
theorem runScript_grown_sample : ∃ c : Coordinator ℕ ℕ, c.eventTable.currentBag.dynamics = [0] ∧
    ∀ a c', runScript (Executive.perform Sample.env 2) 0 Sample.creation c = .ok a c' →
      Grown c.eventTable.currentTime (kernel c) (kernel c') := by
  obtain ⟨c, c', hreached, -, hbag⟩ := Sample.exists_step
  obtain ⟨hready, -⟩ := hreached.ready
  exact ⟨c, hbag, (runScript_grown Sample.env 2 0 Sample.creation hready.toScheduled hready.clock.ge).1⟩

end Vle.Devs
