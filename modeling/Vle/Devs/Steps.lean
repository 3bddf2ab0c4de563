import Vle.Devs.NextBag
import Vle.Devs.Processing

/-!
# Steps

`StepCalls` says what a step of Parallel DEVS calls: the output of each simulator of the bag, of the
dynamics before the executives, with the deliveries of what was emitted, and then one transition of each
simulator of the bag and of each receiver, which is given the events it received. `Coordinator.calls` makes
such a step of a state that is ready (`wlp_calls`), after which every simulator is idle. Timed observations
and deletions leave it so, and the next bag is ready again: so every state that the root coordinator
reaches is ready for a step.
-/

namespace Vle.Devs

open Vle.Lib Vle.Lib.EState Vle.Vpz

variable {σ V : Type} {t : Time}

/-- The calls of a step at a date: those of a bag, with the ends of each port. -/
structure StepCalls (t : Time) (imminent : Finset SimId)
    (route : SimId → String → Except Error (List TargetSimulator)) (l : List (Event σ V)) : Prop where
  exists_calls : ∃ (dynamics executives : List (SimId × List (ExternalEvent V)))
    (transitions : List (SimId × σ)),
    let outs := dynamics ++ executives
    let recs := deliveries route outs
    l = (dynamics.map fun o => .output o.1 t o.2) ++
        ((deliveries route dynamics).map fun r => .external r.1 r.2) ++
        (executives.map fun o => .output o.1 t o.2) ++
        ((deliveries route executives).map fun r => .external r.1 r.2) ++
        transitions.map (transitionOf (fun id => id ∈ imminent) (fun id => received id recs) t) ∧
      (outs.map (·.1)).Nodup ∧ (∀ id, id ∈ outs.map (·.1) ↔ id ∈ imminent) ∧
      (transitions.map (·.1)).Nodup ∧
      ∀ id, id ∈ transitions.map (·.1) ↔ id ∈ imminent ∨ id ∈ recs.map (·.1)

section Loading

variable {k₀ k : Kernel σ V} {recs : List (SimId × ExternalEvent V)}
  {pending : SimId → List (ExternalEvent V)} {l : List (Event σ V)}

/-- The executives of the bag may be sorted. -/
theorem Loading.sort (h : Loading k₀ recs pending l k) {sorted : List SimId}
    (hperm : sorted.Perm k.table.currentBag.executives) :
    Loading k₀ recs pending l { k with table := { k.table with
      currentBag := { k.table.currentBag with executives := sorted } } } where
  toScheduled := h.toScheduled.withBag _ k.calls
  toBagged :=
    { nodup := (hperm.append_left _).nodup_iff.mpr h.nodup
      unique := fun id => (h.unique id).trans (or_congr_right hperm.mem_iff.symm)
      dynamics := h.dynamics
      executives := fun id hid => h.executives id (hperm.mem_iff.mp hid) }
  strict := h.strict
  members := h.members
  nextSim := h.nextSim
  tableTime := h.tableTime
  currentTime := h.currentTime
  parallelize := h.parallelize
  calls := h.calls
  core := h.core

/-- A simulator without delivery received nothing. -/
theorem received_of_notMem {id : SimId} (h : id ∉ recs.map (·.1)) : received id recs = [] := by
  unfold received
  have hnone : recs.filter (fun x => decide (x.1 = id)) = [] := by
    refine List.filter_eq_nil_iff.mpr fun x hx heq => h ?_
    exact List.mem_map.mpr ⟨x, hx, by simpa using heq⟩
  simp [hnone]

/-- After the deliveries the simulators of the bag wait for a transition. -/
theorem Loading.processing (h₀ : Ready k₀) (h : Loading k₀ recs (fun _ => []) l k) :
    Processing (fun id => id ∈ k₀.table.currentBag.uniqueSimulators) (fun id => received id recs) k
      (Status.set (fun _ => .idle) (k.table.currentBag.dynamics ++ k.table.currentBag.executives)
        .waiting) [] k := by
  have hin : ∀ id, id ∈ k.table.currentBag.dynamics ++ k.table.currentBag.executives ↔
      id ∈ k.table.currentBag.uniqueSimulators := fun id => List.mem_append.trans (h.unique id).symm
  refine ⟨?_, le_rfl, fun id hid => ?_, fun id core hs hcore => ?_, fun id core hs => ?_,
    fun id core hs hcore => ?_, rfl, rfl, rfl, rfl, by simp⟩
  · rw [h.currentTime, h₀.clock]
    exact h.toScheduled
  · have hmem : id ∈ k.table.currentBag.uniqueSimulators := by
      by_contra hnot
      rw [Status.set_of_notMem (mt (hin id).mp hnot)] at hid
      exact hid rfl
    rcases (h.unique id).mp hmem with hmem | hmem
    · obtain ⟨core, hcore, -⟩ := h.dynamics id hmem
      exact h.lt_nextSim hcore
    · obtain ⟨core, hcore, -⟩ := h.executives id hmem
      exact h.lt_nextSim hcore
  · have hmem : id ∈ k.table.currentBag.uniqueSimulators := by
      by_contra hnot
      rw [Status.set_of_notMem (mt (hin id).mp hnot)] at hs
      cases hs
    obtain ⟨core₀, hcore₀, rfl⟩ := h.core id core hcore
    refine ⟨if_pos hmem, ?_, rfl, rfl⟩
    by_cases hin₀ : id ∈ k₀.table.currentBag.uniqueSimulators
    · simp [hin₀, (h₀.due id core₀ hcore₀ hin₀).haveInternal]
    · simp [hin₀, (h₀.idle id core₀ hcore₀ hin₀).haveInternal]
  · unfold Status.set at hs
    split_ifs at hs
  · have hnot : id ∉ k.table.currentBag.uniqueSimulators := by
      intro hmem
      rw [Status.set_of_mem ((hin id).mpr hmem)] at hs
      cases hs
    have hnot' := mt (h.members id).mpr hnot
    rw [not_or] at hnot'
    obtain ⟨core₀, hcore₀, rfl⟩ := h.core id core hcore
    have hidle := h₀.idle id core₀ hcore₀ hnot'.1
    exact ⟨hidle.haveInternal, received_of_notMem hnot'.2, rfl, by simpa [hnot] using hidle.handle⟩

end Loading

/-- What a step leaves of the kernel. -/
structure Stepped (k₀ k : Kernel σ V) : Prop extends Rested k₀.table.currentTime k where
  tableTime : k.table.currentTime = k₀.table.currentTime
  parallelize : k.parallelize = k₀.parallelize

section Calls

variable {c : Coordinator σ V}

/-- With the clock at the date of the bag, the clock is not changed. -/
theorem wp_clock {α : Type} {Q : α → Coordinator σ V → Prop} {E : Error → Coordinator σ V → Prop}
    {p : Prop} [Decidable p] {x : PUnit → CoordM σ V α} (hclock : c.currentTime = c.eventTable.currentTime)
    (h : wp (x ⟨⟩) Q E c) :
    wp (if p then (do
        let r ← modify fun c => { c with currentTime := c.eventTable.currentTime }
        x r) else x ⟨⟩) Q E c := by
  split_ifs
  · rw [wp_bind, wp_modify, ← hclock]
    exact h
  · exact h

/-- The reads of the depths leave the kernel. -/
theorem still_depths (ids : List SimId) : Still (ids.mapM fun id => do
    return (id, ← Coordinator.depth id) : CoordM σ V (List (SimId × ℤ))) :=
  fixes_mapM (fun id => fixes_bind (still_depth id) fun _ => fixes_pure _) ids

/-- The transitions of the bag, of the dynamics and then of the executives. -/
theorem wlp_transitions (env : Environment σ V) (fuel : ℕ) {internal : SimId → Bool}
    {events : SimId → List (ExternalEvent V)} {k₁ : Kernel σ V} {t₁ : Time} (hclock : k₁.currentTime = t₁)
    {dynamics executives : List SimId} (hnodup : (dynamics ++ executives).Nodup)
    (h : Processing internal events k₁ (Status.set (fun _ => .idle) (dynamics ++ executives) .waiting) []
      (kernel c)) :
    wlp (do
      dynamics.forM fun id => Coordinator.process env fuel id t₁
      dynamics.forM Coordinator.schedule
      executives.forM fun id => Coordinator.process env fuel id t₁
      executives.forM Coordinator.schedule
      dynamics.forM fun id => flushObservations id t₁
      executives.forM fun id => flushObservations id t₁) (fun _ c' =>
        ∃ transitions : List (SimId × σ), transitions.map (·.1) = dynamics ++ executives ∧
          Processing internal events k₁ (fun _ => .idle)
            (transitions.map (transitionOf internal events t₁)) (kernel c')) c := by
  obtain ⟨hdynamics, hexecutives, hdisjoint⟩ := List.nodup_append.mp hnodup
  have hnot : ∀ id ∈ executives, id ∉ dynamics := fun id he hd => hdisjoint id hd id he rfl
  unfold wlp
  rw [wp_bind]
  refine wlp_mono (wlp_processAll env fuel hclock dynamics hdynamics
    (fun id hid => Status.set_of_mem (List.mem_append_left _ hid)) h) ?_
  rintro _ c₁ ⟨trans₁, htrans₁, h₁⟩
  rw [wp_bind]
  refine wlp_mono (wlp_scheduleAll dynamics hdynamics (fun id hid => Status.set_of_mem hid) h₁) fun _ c₂ h₂ => ?_
  rw [wp_bind]
  refine wlp_mono (wlp_processAll env fuel hclock executives hexecutives (fun id hid => ?_) h₂) ?_
  · rw [Status.set_of_notMem (hnot id hid), Status.set_of_notMem (hnot id hid)]
    exact Status.set_of_mem (List.mem_append_right _ hid)
  rintro _ c₃ ⟨trans₂, htrans₂, h₃⟩
  rw [wp_bind]
  refine wlp_mono (wlp_scheduleAll executives hexecutives (fun id hid => Status.set_of_mem hid) h₃)
    fun _ c₄ h₄ => ?_
  have hidle : Status.set (Status.set (Status.set (Status.set
      (Status.set (fun _ => .idle) (dynamics ++ executives) .waiting)
      dynamics .called) dynamics .idle) executives .called) executives .idle = fun _ => .idle := by
    funext id
    by_cases he : id ∈ executives
    · rw [Status.set_of_mem he]
    · rw [Status.set_of_notMem he, Status.set_of_notMem he]
      by_cases hd : id ∈ dynamics
      · rw [Status.set_of_mem hd]
      · rw [Status.set_of_notMem hd, Status.set_of_notMem hd, Status.set_of_notMem]
        rw [List.mem_append, not_or]
        exact ⟨hd, he⟩
  rw [hidle] at h₄
  have hflush : ∀ ids : List SimId, Still (ids.forM fun id => flushObservations id t₁ : CoordM σ V PUnit) :=
    fun ids => fixes_forM (fun id => still_flushObservations id t₁) ids
  rw [wp_bind]
  refine (hflush dynamics).wp (fun _ c₅ h₅ => ?_) fun _ _ _ => trivial
  refine (hflush executives).wp (fun _ c₆ h₆ => ?_) fun _ _ _ => trivial
  refine ⟨trans₁ ++ trans₂, by rw [List.map_append, htrans₁, htrans₂], ?_⟩
  rw [h₆, h₅, List.map_append]
  exact h₄

/-- A step calls the output functions of the bag, delivers what they emit, and calls a transition of each
simulator that is concerned. -/
theorem wlp_calls (env : Environment σ V) (fuel : ℕ) (h : Ready (kernel c)) (hseq : c.parallelize = false) :
    wlp (Coordinator.calls env fuel) (fun _ c' => Stepped (kernel c) (kernel c') ∧
      ∃ l, (kernel c').calls = (kernel c).calls ++ l ∧ StepCalls c.eventTable.currentTime
        c.eventTable.currentBag.uniqueSimulators (wiring c).route l) c := by
  have hclock : c.currentTime = c.eventTable.currentTime := h.clock
  have hnodup := List.nodup_append.mp h.nodup
  unfold Coordinator.calls wlp
  rw [wp_bind, wp_get]
  refine wp_clock hclock ?_
  rw [wp_bind, wp_get, wp_bind]
  refine wlp_mono (wlp_and ((still_note rfl).wlp c) ((laid_note rfl).fixes_wiring.wlp c)) fun _ c₁ ⟨h₁, hw₁⟩ => ?_
  -- The outputs and the deliveries, of the dynamics and then of the executives.
  rw [wp_bind]
  have hload := h.loading
  rw [← h₁] at hload
  refine wlp_mono (wlp_emit _ hnodup.1 c.currentTime hload (.of_eq hw₁)) fun _ c₂ h₂ => ?_
  rw [wp_bind]
  refine wlp_mono h₂ fun _ c₃ ⟨dynamics, hdynamics, h₃, hw₃⟩ => ?_
  rw [wp_bind]
  refine wlp_mono (wlp_emit _ hnodup.2.1 c.currentTime h₃ hw₃) fun _ c₄ h₄ => ?_
  rw [wp_bind]
  refine wlp_mono h₄ fun _ c₅ ⟨executives, hexecutives, h₅, hw₅⟩ => ?_
  rw [wp_bind, wp_get, wp_bind]
  refine (still_depths _).wp (fun depths c₆ h₆ => ?_) fun _ _ _ => trivial
  dsimp only
  generalize hsorted : env.sort _ c₅.eventTable.currentBag.executives = sorted
  have hperm : sorted.Perm c₅.eventTable.currentBag.executives := hsorted ▸ env.sort_perm _ _
  rw [wp_bind]
  refine wp_changeBag fun c₇ h₇ => ?_
  have hk : kernel c₇ = { kernel c₅ with table := { (kernel c₅).table with
      currentBag := { (kernel c₅).table.currentBag with executives := sorted } } } := by rw [h₇, h₆]
  have hsort := h₅.sort hperm
  rw [← hk, h₁] at hsort
  have hclock₇ : c₇.currentTime = c.currentTime := hsort.currentTime
  have hsorted₇ : c₇.eventTable.currentBag.executives = sorted :=
    congrArg (·.table.currentBag.executives) h₇
  have hseq₇ : c₇.parallelize = false := hsort.parallelize.trans hseq
  have htrans := wlp_transitions env fuel hclock₇ hsort.nodup (hsort.processing h)
  rw [wp_bind, wp_get]
  simp only [hseq₇, Bool.false_eq_true, if_false]
  rw [kernel_table, hsorted₇] at htrans
  refine wlp_mono htrans ?_
  rintro _ c₈ ⟨transitions, htransitions, h₈⟩
  have hdeliveries : deliveries (wiring c).route (dynamics ++ executives) =
      [] ++ deliveries (wiring c).route dynamics ++ deliveries (wiring c).route executives := by
    simp [deliveries]
  have hnames : (dynamics ++ executives).map (·.1) =
      c.eventTable.currentBag.dynamics ++ c.eventTable.currentBag.executives := by
    rw [List.map_append, hdynamics, hexecutives]
    rfl
  have hcalled : transitions.map (·.1) =
      (kernel c₇).table.currentBag.dynamics ++ (kernel c₇).table.currentBag.executives := by
    rw [htransitions, kernel_table, hsorted₇]
  refine ⟨⟨⟨?_, fun id core hid => h₈.idle id core rfl hid⟩, ?_, ?_⟩, _, ?_, dynamics, executives,
    transitions, rfl, ?_, fun id => ?_, ?_, fun id => ?_⟩
  · have hsched := h₈.toScheduled
    rwa [hsort.currentTime, h.clock] at hsched
  · exact h₈.tableTime.trans hsort.tableTime
  · exact h₈.parallelize.trans hsort.parallelize
  · rw [h₈.calls, hsort.calls, hdeliveries, hclock]
    simp only [List.nil_append, List.append_assoc]
    rfl
  · rw [hnames]
    exact h.nodup
  · rw [hnames, List.mem_append]
    exact (h.unique id).symm
  · rw [hcalled]
    exact hsort.nodup
  · rw [hcalled, List.mem_append, ← hsort.unique, hsort.members, hdeliveries]
    rfl

end Calls

/-! ## Observations -/

/-- The kernel but for the clock, which a timed observation sets. -/
def unclocked (c : Coordinator σ V) : Kernel σ V := { kernel c with currentTime := 0 }

section Observations

variable {α : Type}

/-- What leaves the kernel leaves it but for the clock. -/
theorem unclocked_of_still {x : CoordM σ V α} (h : Still x) : Fixes unclocked x :=
  h.comp fun k => { k with currentTime := 0 }

theorem unclocked_observeElem (elem : ViewEvent) :
    Fixes unclocked (Coordinator.observeElem elem : CoordM σ V Unit) :=
  fixes_bind (unclocked_of_still (still_viewRun _ _)) fun _ => fixes_modify fun _ => rfl

theorem unclocked_observeLoop (env : Environment σ V) (eatuntil : Time) (n : ℕ) :
    Fixes unclocked (Coordinator.observeLoop env eatuntil n) := by
  induction n with
  | zero => exact fixes_throw _
  | succ n ih =>
    refine fixes_bind fixes_get fun c => ?_
    split_ifs
    · refine fixes_bind (fixes_modify fun _ => rfl) fun _ => ?_
      split
      · refine fixes_bind (fixes_modify fun _ => rfl) fun _ => ?_
        exact fixes_bind (fixes_forM unclocked_observeElem _) fun _ => ih
      · exact ih
    · exact fixes_pure _

/-- The timed observations leave the kernel but for the clock. -/
theorem unclocked_observeTimed (env : Environment σ V) :
    Fixes unclocked (Coordinator.observeTimed env) := by
  refine fixes_bind fixes_get fun c => ?_
  dsimp only
  split_ifs
  · refine fixes_bind (unclocked_observeLoop env _ _) fun _ => ?_
    exact fixes_bind (fixes_modify fun _ => rfl) fun _ => unclocked_of_still (still_finalize _)
  · exact fixes_bind (unclocked_observeLoop env _ _) fun _ => fixes_pure _
  · exact fixes_pure _

/-- Whether the simulators are idle does not depend on the clock. -/
theorem Rested.of_unclocked {c c' : Coordinator σ V} (h : Rested t (kernel c))
    (heq : unclocked c' = unclocked c) : Rested t (kernel c') := by
  have hfields := heq
  simp only [unclocked, Kernel.mk.injEq] at hfields
  obtain ⟨hcores, hnext, hsims, htable, -, -, -⟩ := hfields
  obtain ⟨⟨h1, h2, h3, h4, h5, h6, h7, h8⟩, h9⟩ := h
  refine ⟨⟨?_, ?_, ?_, ?_, ?_, ?_, ?_, ?_⟩, ?_⟩
  all_goals simp only [hcores, hnext, hsims, htable]
  all_goals assumption

end Observations

/-! ## Deletions -/

/-- A simulator is destroyed. -/
def Kernel.remove (k : Kernel σ V) (id : SimId) : Kernel σ V :=
  { k with cores := Function.update k.cores id none, simulators := k.simulators.erase id }

/-- What deletions leave of the kernel. -/
structure Kept (k k' : Kernel σ V) : Prop where
  tableTime : k'.table.currentTime = k.table.currentTime
  parallelize : k'.parallelize = k.parallelize
  calls : k'.calls = k.calls

theorem Kept.refl (k : Kernel σ V) : Kept k k := ⟨rfl, rfl, rfl⟩

theorem Kept.trans {k₀ k₁ k₂ : Kernel σ V} (h₁ : Kept k₀ k₁) (h₂ : Kept k₁ k₂) : Kept k₀ k₂ :=
  ⟨h₂.tableTime.trans h₁.tableTime, h₂.parallelize.trans h₁.parallelize, h₂.calls.trans h₁.calls⟩

section Deletions

variable {k : Kernel σ V} {id : SimId} {core : Core V} {c : Coordinator σ V}

/-- A simulator without element in the heap may be destroyed. -/
theorem Scheduled.remove (h : Scheduled t k) (hid : k.cores id = some core) (hhandle : core.handle = none) :
    Scheduled t (k.remove id) := by
  have hold : ∀ i c, (k.remove id).cores i = some c → i ≠ id ∧ k.cores i = some c := by
    intro i c hc
    by_cases heq : i = id
    · subst heq
      simp [Kernel.remove] at hc
    · simp only [Kernel.remove, Function.update_of_ne heq] at hc
      exact ⟨heq, hc⟩
  refine ⟨fun i hi => ?_, fun i c hc => ?_, h.handles, h.below, fun e he => ?_, h.finite, h.ahead,
    fun i c n hc hn => h.handle i c n (hold i c hc).2 hn⟩
  · have hne : i ≠ id := fun heq => absurd (h.lt_nextSim hid) (not_lt.mpr (heq ▸ hi))
    simp only [Kernel.remove, Function.update_of_ne hne]
    exact h.fresh i hi
  · obtain ⟨hne, hc⟩ := hold i c hc
    exact (List.mem_erase_of_ne hne).mpr (h.listed i c hc)
  · obtain ⟨c, hc, hch, htn⟩ := h.element e he
    have hne : e.simulator ≠ id := by
      intro heq
      rw [heq, hid] at hc
      cases hc
      rw [hhandle] at hch
      cases hch
    exact ⟨c, by simp only [Kernel.remove, Function.update_of_ne hne, hc], hch, htn⟩

/-- A simulator may be deleted, with its element in the heap and its place in the bag. -/
theorem Rested.delete (h : Rested t k) (hid : k.cores id = some core) (bag : Bag) :
    Rested t ({ k.drop id core with
      table := { (k.drop id core).table with currentBag := bag } }.remove id) where
  toScheduled := by
    have hdrop : Scheduled t (k.drop id core) := h.toScheduled.drop hid
    have hbag := hdrop.withBag bag k.calls
    exact hbag.remove (Function.update_self ..) rfl
  idle i c hc := by
    have hne : i ≠ id := by
      rintro rfl
      simp [Kernel.remove] at hc
    simp only [Kernel.remove, Kernel.drop, Function.update_of_ne hne] at hc
    exact h.idle i c hc

/-- What `delSimulator` does with a simulator that is out of the vectors. -/
def Scheduler.leave (id : SimId) : CoordM σ V Unit := do
  modifyBag fun bag => { bag with uniqueSimulators := bag.uniqueSimulators.erase id }
  match (← simulator id).handle with
  | some handle => eraseHandle id handle
  | none => pure ()
  snapshot (.delSimulator id) []

/-- A simulator leaves the scheduler. -/
theorem wlp_delSimulator (id : SimId) (c : Coordinator σ V) :
    wlp (Scheduler.delSimulator id) (fun _ c' => ∃ core bag, (kernel c).cores id = some core ∧
      kernel c' = { (kernel c).drop id core with
        table := { ((kernel c).drop id core).table with currentBag := bag } }) c := by
  have hrest : ∀ (bag : Bag) (core : Core V) (c₁ : Coordinator σ V), (kernel c).cores id = some core →
      kernel c₁ = { kernel c with table := { (kernel c).table with currentBag := bag } } →
      wlp (Scheduler.leave id) (fun _ c' => ∃ core bag, (kernel c).cores id = some core ∧
        kernel c' = { (kernel c).drop id core with
          table := { ((kernel c).drop id core).table with currentBag := bag } }) c₁ := by
    intro bag core c₁ hcore h₁
    unfold Scheduler.leave wlp
    rw [wp_bind]
    refine wp_changeBag fun c₂ h₂ => ?_
    have hcore₂ : (kernel c₂).cores id = some core := by rw [h₂, h₁, hcore]
    rw [wp_bind]
    refine wp_readCore hcore₂ fun sim hsim => ?_
    have hdrop : ∀ c', kernel c' = (kernel c₂).drop id core → ∃ core bag, (kernel c).cores id = some core ∧
        kernel c' = { (kernel c).drop id core with
          table := { ((kernel c).drop id core).table with currentBag := bag } } := by
      intro c' h'
      refine ⟨core, { bag with uniqueSimulators := bag.uniqueSimulators.erase id }, hcore, ?_⟩
      rw [h', h₂, h₁]
      rfl
    cases hhandle : sim.handle with
    | none =>
      have hnone : core.handle = none := (congrArg Core.handle hsim).symm.trans hhandle
      refine wp_snapshot fun c₃ h₃ => hdrop c₃ ?_
      rw [Kernel.drop_of_none hnone, Kernel.put_self hcore₂, h₃]
    | some handle =>
      have hsome : core.handle = some handle := (congrArg Core.handle hsim).symm.trans hhandle
      dsimp only
      rw [wp_bind]
      exact wp_eraseHandle hcore₂ hsome fun c₃ h₃ => wp_snapshot fun c₄ h₄ => hdrop c₄ (h₄.trans h₃)
  unfold Scheduler.delSimulator wlp
  rw [wp_bind]
  refine wp_isExecutive (fun _ => trivial) fun core b hcore _ => ?_
  cases b with
  | true =>
    simp only [if_true]
    rw [wp_bind]
    exact wp_changeBag fun c₁ h₁ => hrest _ core c₁ hcore h₁
  | false =>
    simp only [Bool.false_eq_true, if_false]
    rw [wp_bind]
    exact wp_changeBag fun c₁ h₁ => hrest _ core c₁ hcore h₁

theorem still_finish (id : SimId) : Still (Simulator.finish id : CoordM σ V Unit) := by
  refine fixes_bind (still_dynamicsOf id) fun d => ?_
  refine fixes_bind (still_setState id _) fun _ => fixes_bind (still_note rfl) fun _ => ?_
  cases (d.finish d.state).2 with
  | some e => exact fixes_throw e
  | none => exact fixes_bind (still_simulator id) fun _ => still_observe id _ _

/-- A deletion leaves the others idle. -/
theorem wlp_deleteSimulator (h : Rested t (kernel c)) (id : SimId) :
    wlp (Coordinator.deleteSimulator id) (fun _ c' =>
      Rested t (kernel c') ∧ Kept (kernel c) (kernel c')) c := by
  unfold Coordinator.deleteSimulator wlp
  rw [wp_bind]
  refine wlp_mono (wlp_delSimulator id c) ?_
  rintro _ c₁ ⟨core, bag, hcore, h₁⟩
  have hlisted : id ∈ c₁.simulators := by
    have hsims : c₁.simulators = c.simulators := congrArg (·.simulators) h₁
    rw [hsims]
    exact h.listed id core hcore
  rw [wp_bind, wp_get, if_pos hlisted, wp_bind]
  refine (still_finish id).wp (fun _ c₂ h₂ => ?_) fun _ _ _ => trivial
  rw [wp_bind, wp_get, wp_bind]
  refine (still_flushObservations id _).wp (fun _ c₃ h₃ => ?_) fun _ _ _ => trivial
  refine (wp_modify _).mpr ?_
  have hkernel : kernel { c₃ with
      simulators := c₃.simulators.erase id, sims := Function.update c₃.sims id none } =
      (kernel c₃).remove id := by
    have hcores : (fun i => (Function.update c₃.sims id none i).map Simulator.core) =
        Function.update (fun i => (c₃.sims i).map Simulator.core) id none := by
      funext i
      by_cases heq : i = id
      · subst heq
        simp
      · simp [Function.update_of_ne heq]
    simp only [kernel, Kernel.remove, hcores]
  rw [hkernel, h₃, h₂, h₁]
  exact ⟨h.delete hcore bag, rfl, rfl, rfl⟩

/-- The deletions that the executives asked for. -/
theorem wlp_dynamicDeletion (h : Rested t (kernel c)) :
    wlp Coordinator.dynamicDeletion (fun _ c' =>
      Rested t (kernel c') ∧ Kept (kernel c) (kernel c')) c := by
  have hloop : ∀ (ids : List SimId) (c₁ : Coordinator σ V), Rested t (kernel c₁) →
      Kept (kernel c) (kernel c₁) → wlp (ids.forM Coordinator.deleteSimulator) (fun _ c' =>
        Rested t (kernel c') ∧ Kept (kernel c) (kernel c')) c₁ := by
    intro ids
    induction ids with
    | nil => exact fun c₁ h₁ hk => ⟨h₁, hk⟩
    | cons id ids ih =>
      intro c₁ h₁ hk
      unfold wlp
      rw [wp_forM_cons]
      exact wlp_mono (wlp_deleteSimulator h₁ id) fun _ c₂ ⟨h₂, hk₂⟩ => ih c₂ h₂ (hk.trans hk₂)
  unfold Coordinator.dynamicDeletion wlp
  rw [wp_bind, wp_get, wp_bind]
  refine (fixes_mapM still_deleteGraph _).wp (fun lst c₁ h₁ => ?_) fun _ _ _ => trivial
  rw [wp_bind, wp_modify]
  have hkernel : kernel { c₁ with deleteModel := [] } = kernel c := h₁
  exact hloop lst.flatten _ (hkernel.symm ▸ h) (hkernel.symm ▸ .refl _)

end Deletions

/-! ## Runs -/

section Runs

variable {c : Coordinator σ V}

/-- What a step of the coordinator does: the calls of a step, and a next bag that is not earlier. -/
structure Step (c c' : Coordinator σ V) : Prop where
  date : c.eventTable.currentTime ≤ c'.eventTable.currentTime
  calls : ∃ l, (kernel c').calls = (kernel c).calls ++ l ∧ StepCalls c.eventTable.currentTime
    c.eventTable.currentBag.uniqueSimulators (wiring c).route l

/-- The end of a step: the next bag is ready. -/
theorem wlp_next (env : Environment σ V) {k : Kernel σ V} (h : Rested t (kernel c)) (hk : Kept k (kernel c)) :
    wlp (Coordinator.makeNextBag env) (fun _ c' => Ready (kernel c') ∧ t ≤ c'.eventTable.currentTime ∧
      c'.parallelize = k.parallelize ∧ (kernel c').calls = k.calls ∧
      (c'.eventTable.currentTime = infinity ∨ c'.eventTable.currentBag.uniqueSimulators.Nonempty)) c := by
  refine wlp_mono (wlp_makeNextBag env h) fun _ c' ⟨hready, hnext⟩ => ?_
  refine ⟨hready, ?_, hnext.parallelize.trans hk.parallelize, hnext.calls.trans hk.calls, ?_⟩
  · exact (le_getNextTime h.ahead).trans hnext.date.ge
  · rcases exists_getNextTime (kernel c).table with hnone | ⟨e, he, htime⟩
    · exact .inl (hnext.date.trans hnone)
    · exact .inr ⟨e.simulator, (hnext.members _).mpr ⟨e, he, rfl, htime⟩⟩

/-- From a state that is ready, the coordinator makes a step, to a state that is ready, with an empty bag only
when there is no date. -/
theorem wlp_run (env : Environment σ V) (fuel : ℕ) (h : Ready (kernel c)) (hseq : c.parallelize = false) :
    wlp (Coordinator.run env fuel) (fun _ c' =>
      Ready (kernel c') ∧ c'.parallelize = false ∧ Step c c' ∧
      (c'.eventTable.currentTime = infinity ∨ c'.eventTable.currentBag.uniqueSimulators.Nonempty)) c := by
  unfold Coordinator.run wlp
  rw [wp_bind]
  refine wlp_mono (wlp_calls env fuel h hseq) ?_
  rintro _ c₁ ⟨h₁, l, hl, hcalls⟩
  have hstep : ∀ c' : Coordinator σ V, Ready (kernel c') ∧
      (kernel c).table.currentTime ≤ c'.eventTable.currentTime ∧
      c'.parallelize = (kernel c₁).parallelize ∧ (kernel c').calls = (kernel c₁).calls ∧
      (c'.eventTable.currentTime = infinity ∨ c'.eventTable.currentBag.uniqueSimulators.Nonempty) →
      Ready (kernel c') ∧ c'.parallelize = false ∧ Step c c' ∧
      (c'.eventTable.currentTime = infinity ∨ c'.eventTable.currentBag.uniqueSimulators.Nonempty) := by
    rintro c' ⟨hready, hdate, hpar, hcalls', hbag⟩
    exact ⟨hready, hpar.trans (h₁.parallelize.trans hseq), ⟨hdate, l, hcalls'.trans hl, hcalls⟩, hbag⟩
  rw [wp_bind]
  refine (unclocked_observeTimed env).wp (fun _ c₂ h₂ => ?_) fun _ _ _ => trivial
  have hrested : Rested (kernel c).table.currentTime (kernel c₂) := h₁.toRested.of_unclocked h₂
  have hkept : Kept (kernel c₁) (kernel c₂) := by
    simp only [unclocked, Kernel.mk.injEq] at h₂
    exact ⟨congrArg (·.currentTime) h₂.2.2.2.1, h₂.2.2.2.2.2.1, h₂.2.2.2.2.2.2⟩
  rw [wp_bind, wp_get]
  split_ifs
  · rw [wp_bind]
    refine wlp_mono (wlp_dynamicDeletion hrested) fun _ c₃ ⟨h₃, hk₃⟩ => ?_
    exact wlp_mono (wlp_next env h₃ (hkept.trans hk₃)) fun _ c₄ h₄ => hstep c₄ h₄
  · exact wlp_mono (wlp_next env hrested hkept) fun _ c₄ h₄ => hstep c₄ h₄

theorem still_buildViews (env : Environment σ V) (current : ℚ) :
    Still (Coordinator.buildViews env current) := by
  refine fixes_forM (fun elem => ?_) _
  split_ifs
  · exact fixes_modify fun _ => rfl
  · exact fixes_modify fun _ => rfl
  · exact fixes_pure _

/-- The creation of the simulators of a hierarchy. -/
theorem keeps_addModels (env : Environment σ V) (fuel : ℕ) {k₀ : Kernel σ V} (hclock : t ≤ k₀.currentTime)
    (node : Option NodeId) :
    Keeps (fun c => Grown t k₀ (kernel c)) (Coordinator.addModels env fuel node) := by
  cases node with
  | none => exact keeps_pure _
  | some mdl =>
    exact keeps_bind ((still_readGraph _).keeps _) fun lst =>
      (grows_perform env fuel).createModelList hclock _ lst

/-- The first state is ready for a step. -/
theorem wlp_init (env : Environment σ V) (fuel : ℕ) (graph : Graph) (node : Option NodeId)
    (current duration : ℚ) : wlp (Coordinator.init env fuel node current duration) (fun _ c =>
      Ready (kernel c) ∧ c.parallelize = false) { graph } := by
  unfold Coordinator.init wlp
  rw [wp_bind, wp_modify, wp_bind]
  refine (still_buildViews env current).wp (fun _ c₁ h₁ => ?_) fun _ _ _ => trivial
  have hclock₁ : c₁.currentTime = date current := congrArg (·.currentTime) h₁
  have hscheduled : Scheduled (date current) (kernel c₁) := by
    rw [h₁]
    exact ⟨fun _ _ => rfl, nofun, List.nodup_nil, nofun, nofun, nofun, nofun, nofun⟩
  rw [wp_bind]
  refine wlp_mono ((keeps_addModels env fuel hclock₁.ge node).wlp hscheduled.grown_self) fun _ c₂ h₂ => ?_
  have hrested : Rested (date current) (kernel c₂) := by
    refine ⟨h₂.toScheduled, fun id core hid => h₂.new id core ?_ hid⟩
    rw [h₁]
    exact Nat.zero_le id
  rw [wp_bind, wp_modify]
  refine wlp_mono (wlp_schedulerInit env.toPlatform hrested ?_ rfl) ?_
  · exact h₂.currentTime.trans hclock₁
  · rintro _ c₃ ⟨hready, -, hpar, -⟩
    refine ⟨hready, hpar.trans (h₂.parallelize.trans ?_)⟩
    rw [h₁]
    rfl

end Runs

end Vle.Devs
