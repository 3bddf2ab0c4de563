import Vle.Devs.Loading

/-!
# The next bag

Between two steps every simulator is idle (`Rested`). `fillBag` takes the elements of the least date out of
the heap and puts their simulators in the bag, each with an internal event. `Filling` is a state on the
way: the elements that were taken out and not treated are still counted as elements of the heap.
-/

namespace Vle.Devs

open Vle.Lib Vle.Lib.EState Vle.Vpz

variable {σ V : Type} {t : Time}

/-- Between two steps: no simulator has an event to treat. -/
structure Rested (t : Time) (k : Kernel σ V) : Prop extends Scheduled t k where
  idle : ∀ id core, k.cores id = some core → core.Idle

/-- The order of the heap does not matter, nor do earlier dates. -/
theorem Scheduled.perm {t' : Time} {k : Kernel σ V} {heap : List HeapElement} (h : Scheduled t k)
    (hperm : heap.Perm k.table.scheduler) (hahead : ∀ e ∈ k.table.scheduler, t' ≤ e.time) :
    Scheduled t' { k with table := { k.table with scheduler := heap } } where
  fresh := h.fresh
  listed := h.listed
  handles := (hperm.map _).nodup_iff.mpr h.handles
  below e he := h.below e (hperm.mem_iff.mp he)
  element e he := h.element e (hperm.mem_iff.mp he)
  finite e he := h.finite e (hperm.mem_iff.mp he)
  ahead e he := hahead e (hperm.mem_iff.mp he)
  handle id core n hid hn := by
    obtain ⟨e, he, hen⟩ := h.handle id core n hid hn
    exact ⟨e, hperm.mem_iff.mpr he, hen⟩

/-- The kernel with the elements that are not treated in its heap. -/
def Kernel.withHeap (k : Kernel σ V) (heap : List HeapElement) : Kernel σ V :=
  { k with table := { k.table with scheduler := heap } }

/-- The state when some elements that were taken out are not treated yet. -/
structure Filling (k₀ : Kernel σ V) (rest todo : List HeapElement) (k : Kernel σ V) : Prop where
  scheduled : Scheduled k₀.table.currentTime (k.withHeap (todo ++ rest))
  bagged : Bagged k
  due : ∀ id core, k.cores id = some core → id ∈ k.table.currentBag.uniqueSimulators →
    core.Due k₀.table.currentTime
  idle : ∀ id core, k.cores id = some core → id ∉ k.table.currentBag.uniqueSimulators → core.Idle
  scheduler : k.table.scheduler = rest
  nextSim : k.nextSim = k₀.nextSim
  tableTime : k.table.currentTime = k₀.table.currentTime
  currentTime : k.currentTime = k₀.currentTime
  parallelize : k.parallelize = k₀.parallelize
  calls : k.calls = k₀.calls

/-- The other elements have other handles. -/
theorem filter_handle {e : HeapElement} {l : List HeapElement}
    (h : ((e :: l).map (·.handle)).Nodup) :
    (e :: l).filter (fun e' => some e.handle ≠ some e'.handle) = l := by
  rw [List.map_cons, List.nodup_cons] at h
  rw [List.filter_cons_of_neg (by simp), List.filter_eq_self]
  intro e' he'
  have hne : e.handle ≠ e'.handle := fun heq => h.1 (List.mem_map.mpr ⟨e', he', heq.symm⟩)
  simpa using hne

section Filling

variable {k₀ k : Kernel σ V} {rest todo : List HeapElement} {e : HeapElement}

/-- The simulator of an element joins the bag, with an internal event. -/
def Kernel.imminent (k : Kernel σ V) (id : SimId) (core : Core V) (executive : Bool) : Kernel σ V :=
  (k.join id executive).put id { core with haveInternal := true, handle := none }

/-- An element that was taken out is treated. -/
theorem Filling.imminent (h : Filling k₀ rest (e :: todo) k) (htime : e.time = k₀.table.currentTime)
    {core : Core V} (hid : k.cores e.simulator = some core) {executive : Bool}
    (hexec : core.executive = some executive) :
    Filling k₀ rest todo (k.imminent e.simulator core executive) := by
  have he : e ∈ (k.withHeap (e :: todo ++ rest)).table.scheduler := List.mem_cons_self
  obtain ⟨core', hcore', hhandle, htn⟩ := h.scheduled.element e he
  obtain rfl : core' = core := Option.some.inj (hcore'.symm.trans hid)
  have hnot : e.simulator ∉ k.table.currentBag.uniqueSimulators := by
    intro hin
    have hnone := (h.due _ _ hid hin).handle
    rw [hhandle] at hnone
    cases hnone
  have hidle := h.idle _ _ hid hnot
  let core₁ : Core V := { core' with haveInternal := true }
  have hput : Scheduled k₀.table.currentTime ((k.withHeap (e :: todo ++ rest)).put e.simulator core₁) :=
    h.scheduled.put hid rfl (.inr rfl)
  have hdrop := hput.drop (Function.update_self ..)
  have hbag : Bagged ((k.join e.simulator executive).put e.simulator
      { core' with haveInternal := true, handle := none }) :=
    (h.bagged.join hid hexec hnot).put hid rfl
  refine ⟨?_, hbag, ?_, ?_, h.scheduler, h.nextSim, h.tableTime, h.currentTime, h.parallelize, h.calls⟩
  · have hfilter : (e :: (todo ++ rest)).filter (fun e' => some e.handle ≠ some e'.handle) = todo ++ rest :=
      filter_handle h.scheduled.handles
    have heq : ((k.withHeap (e :: todo ++ rest)).put e.simulator core₁).drop e.simulator core₁ =
        (k.put e.simulator { core' with haveInternal := true, handle := none }).withHeap (todo ++ rest) := by
      simp only [Kernel.drop, Kernel.put, Kernel.withHeap, Function.update_idem, core₁, hhandle,
        List.cons_append, hfilter]
    rw [heq] at hdrop
    exact hdrop.withBag _ k.calls
  · intro i c hc hin
    by_cases heq : i = e.simulator
    · subst heq
      simp only [Kernel.imminent, Kernel.put, Function.update_self, Option.some.injEq] at hc
      exact hc ▸ ⟨htn.trans htime, rfl, rfl, hidle.externalEvents, hidle.result⟩
    · simp only [Kernel.imminent, Kernel.put, Function.update_of_ne heq] at hc
      have hin' : i ∈ insert e.simulator k.table.currentBag.uniqueSimulators := hin
      exact h.due i c hc ((Finset.mem_insert.mp hin').resolve_left heq)
  · intro i c hc hin
    have hin' : i ∉ insert e.simulator k.table.currentBag.uniqueSimulators := hin
    rw [Finset.mem_insert, not_or] at hin'
    simp only [Kernel.imminent, Kernel.put, Function.update_of_ne hin'.1] at hc
    exact h.idle i c hc hin'.2

end Filling

/-! ## Programs -/

section Programs

variable {k₀ : Kernel σ V} {rest todo : List HeapElement} {c : Coordinator σ V}

/-- The elements that were taken out are treated. -/
theorem wlp_fill (popped : List HeapElement) (htime : ∀ e ∈ popped, e.time = k₀.table.currentTime)
    (h : Filling k₀ rest popped (kernel c)) :
    wlp (popped.forM fun e => do
      Scheduler.push e.simulator
      modifyBag fun bag => { bag with uniqueSimulators := insert e.simulator bag.uniqueSimulators }
      modifySimulator e.simulator fun sim => { sim with haveInternal := true, handle := none })
      (fun _ c' => Filling k₀ rest [] (kernel c') ∧
        (kernel c').table.currentBag.uniqueSimulators =
          (kernel c).table.currentBag.uniqueSimulators ∪ (popped.map (·.simulator)).toFinset) c := by
  induction popped generalizing c with
  | nil => exact ⟨h, by simp⟩
  | cons e popped ih =>
    unfold wlp
    rw [wp_forM_cons, wp_bind]
    refine wp_push (fun _ => trivial) fun core executive c₁ hcore hexec h₁ => ?_
    rw [wp_bind]
    refine wp_changeBag fun c₂ h₂ => ?_
    have hcore₂ : (kernel c₂).cores e.simulator = some core := by rw [h₂, h₁, hcore]
    refine @wp_modifyCore _ _ _ _ _ _ _ core { core with haveInternal := true, handle := none } hcore₂ ?_
      fun c₃ h₃ => ?_
    · rintro sim rfl
      rfl
    · have hkernel : kernel c₃ = (kernel c).imminent e.simulator core executive := by
        rw [h₃, h₂, h₁]
        rfl
      have himm := h.imminent (htime e List.mem_cons_self) hcore hexec
      rw [← hkernel] at himm
      refine wlp_mono (ih (fun e' he' => htime e' (List.mem_cons_of_mem e he')) himm) ?_
      rintro _ c₄ ⟨h₄, hunique⟩
      refine ⟨h₄, ?_⟩
      have himminent : (kernel c₃).table.currentBag.uniqueSimulators =
          insert e.simulator (kernel c).table.currentBag.uniqueSimulators := by
        rw [hkernel]
        rfl
      rw [hunique, himminent, List.map_cons, List.toFinset_cons, Finset.insert_union, Finset.union_insert]

/-- The elements of the current date go to the bag, and those of later dates stay. -/
theorem wlp_fillBag (pf : Platform) (test : Time → Bool)
    (h : Rested (kernel c).table.currentTime (kernel c))
    (htest : ∀ e ∈ c.eventTable.scheduler, test e.time = true ↔ e.time = c.eventTable.currentTime) :
    wlp (Scheduler.fillBag pf test) (fun _ c' =>
      Filling (kernel c) (kernel c').table.scheduler [] (kernel c') ∧
      (∀ e ∈ (kernel c').table.scheduler, c.eventTable.currentTime < e.time) ∧
      ∀ id, id ∈ (kernel c').table.currentBag.uniqueSimulators ↔
        ∃ e ∈ c.eventTable.scheduler, e.simulator = id ∧ e.time = c.eventTable.currentTime) c := by
  have hmono : ∀ a ∈ c.eventTable.scheduler, ∀ b ∈ c.eventTable.scheduler, a.time ≤ b.time →
      test b.time = true → test a.time = true := by
    intro a ha b hb hle hb'
    have heq := (htest b hb).mp hb'
    exact (htest a ha).mpr (le_antisymm (hle.trans heq.le) (h.ahead a ha))
  unfold Scheduler.fillBag wlp
  rw [wp_bind]
  refine wp_changeBag fun c₁ h₁ => ?_
  have hheap : c₁.eventTable.scheduler = c.eventTable.scheduler := congrArg (·.table.scheduler) h₁
  rw [wp_bind, wp_get]
  dsimp only
  rw [hheap]
  have hmem := fun a => @Queue.mem_popWhile _ _ _ (·.time) pf.pick _ test c.eventTable.scheduler
    c.eventTable.scheduler.length le_rfl hmono a
  have hperm := Queue.popWhile_perm (·.time) pf.pick test c.eventTable.scheduler.length c.eventTable.scheduler
  generalize Queue.popWhile (·.time) pf.pick test c.eventTable.scheduler.length c.eventTable.scheduler = r
    at hmem hperm
  obtain ⟨popped, rest⟩ := r
  dsimp only at hmem hperm
  rw [wp_bind]
  refine wp_changeTable fun c₂ h₂ => ?_
  rw [wp_bind]
  have hkernel : kernel c₂ = { kernel c with table := { (kernel c).table with
      currentBag := {}, scheduler := rest } } := by rw [h₂, h₁]
  have htime : ∀ e ∈ popped, e.time = (kernel c).table.currentTime := by
    intro e he
    obtain ⟨he, ht⟩ := (hmem e).1.mp he
    exact (htest e he).mp ht
  have hfilling : Filling (kernel c) rest popped (kernel c₂) := by
    rw [hkernel]
    refine ⟨?_, ?_, nofun, fun id core hid _ => h.idle id core hid, rfl, rfl, rfl, rfl, rfl, rfl⟩
    · have hsched := (h.toScheduled.perm hperm h.ahead).withBag {} (kernel c).calls
      exact hsched
    · exact ⟨List.nodup_nil, by simp, nofun, nofun⟩
  refine wlp_mono (wlp_fill popped htime hfilling) ?_
  rintro _ c₃ ⟨h₃, hunique⟩
  refine ⟨?_, fun e he => ?_, fun id => ?_⟩
  · rw [h₃.scheduler]
    exact h₃
  · rw [h₃.scheduler] at he
    obtain ⟨he, ht⟩ := (hmem e).2.mp he
    refine lt_of_le_of_ne (h.ahead e he) fun heq => ?_
    rw [(htest e he).mpr heq.symm] at ht
    cases ht
  · rw [hunique, hkernel, Finset.mem_union, List.mem_toFinset, List.mem_map]
    constructor
    · rintro (hin | ⟨e, he, rfl⟩)
      · exact absurd hin (Finset.notMem_empty id)
      · exact ⟨e, ((hmem e).1.mp he).1, rfl, htime e he⟩
    · rintro ⟨e, he, rfl, ht⟩
      exact .inr ⟨e, (hmem e).1.mpr ⟨he, (htest e he).mpr ht⟩, rfl⟩

/-- The least date of the heap. -/
theorem getNextTime_le {s : Scheduler} {e : HeapElement} (he : e ∈ s.scheduler) : s.getNextTime ≤ e.time := by
  unfold Scheduler.getNextTime
  generalize s.scheduler = heap at he
  induction heap with
  | nil => cases he
  | cons e' l ih =>
    rcases List.mem_cons.mp he with rfl | he
    · exact min_le_left _ _
    · exact (min_le_right _ _).trans (ih he)

theorem le_getNextTime {s : Scheduler} (h : ∀ e ∈ s.scheduler, t ≤ e.time) : t ≤ s.getNextTime := by
  unfold Scheduler.getNextTime
  generalize s.scheduler = heap at h
  induction heap with
  | nil => exact le_top
  | cons e l ih =>
    exact le_min (h e List.mem_cons_self) (ih fun e' he' => h e' (List.mem_cons_of_mem e he'))

/-- The date of the next bag is that of an element, if there is one. -/
theorem exists_getNextTime (s : Scheduler) :
    s.getNextTime = infinity ∨ ∃ e ∈ s.scheduler, e.time = s.getNextTime := by
  unfold Scheduler.getNextTime
  generalize s.scheduler = heap
  induction heap with
  | nil => exact .inl rfl
  | cons e l ih =>
    right
    rcases min_choice e.time ((l.map (·.time)).foldr min infinity) with hmin | hmin
    · exact ⟨e, List.mem_cons_self, hmin.symm⟩
    · rcases ih with hnone | ⟨e', he', htime⟩
      · refine ⟨e, List.mem_cons_self, ?_⟩
        rw [List.map_cons, List.foldr_cons, hnone]
        exact (min_eq_left le_top).symm
      · exact ⟨e', List.mem_cons_of_mem e he', htime.trans hmin.symm⟩

/-- With all elements treated the state is ready for a step, at a date with the clock. -/
theorem Filling.ready {k : Kernel σ V} (h : Filling k₀ k.table.scheduler [] k) {time : Time}
    (hstrict : ∀ e ∈ k.table.scheduler, k₀.table.currentTime < e.time)
    (hdated : k.table.currentBag.uniqueSimulators.Nonempty → isInfinity k₀.table.currentTime = false)
    (htime : time = k₀.table.currentTime) : Ready { k with currentTime := time } where
  toScheduled := by
    have hsched := h.scheduled
    rw [← h.tableTime] at hsched
    cases hsched
    constructor <;> assumption
  toBagged := by
    have hbag := h.bagged
    cases hbag
    constructor <;> assumption
  clock := htime.trans h.tableTime.symm
  strict e he := h.tableTime.symm ▸ hstrict e he
  due id core hid hin := h.tableTime.symm ▸ h.due id core hid hin
  idle := h.idle
  dated hne := h.tableTime.symm ▸ hdated hne

/-- The simulators of the next bag are those with an event at the least date of the heap. -/
structure Next (k k' : Kernel σ V) : Prop where
  date : k'.table.currentTime = k.table.getNextTime
  members : ∀ id, id ∈ k'.table.currentBag.uniqueSimulators ↔
    ∃ e ∈ k.table.scheduler, e.simulator = id ∧ e.time = k.table.getNextTime
  nextSim : k'.nextSim = k.nextSim
  parallelize : k'.parallelize = k.parallelize
  calls : k'.calls = k.calls

/-- The next bag is ready for a step. -/
theorem wlp_makeNextBag (env : Environment σ V) (h : Rested t (kernel c)) :
    wlp (Coordinator.makeNextBag env) (fun _ c' => Ready (kernel c') ∧ Next (kernel c) (kernel c')) c := by
  unfold Coordinator.makeNextBag Scheduler.makeNextBag wlp
  rw [wp_bind, wp_bind, wp_get, wp_bind]
  refine wp_changeTable fun c₁ h₁ => ?_
  have hrested : Rested (kernel c₁).table.currentTime (kernel c₁) := by
    rw [h₁]
    have hsched := h.toScheduled.perm (.refl _) fun e he => getNextTime_le he
    refine ⟨?_, h.idle⟩
    cases hsched
    constructor <;> assumption
  have hheap : c₁.eventTable.scheduler = c.eventTable.scheduler := congrArg (·.table.scheduler) h₁
  have htime : c₁.eventTable.currentTime = c.eventTable.getNextTime := congrArg (·.table.currentTime) h₁
  rw [wp_bind]
  refine wlp_mono (wlp_fillBag env.toPlatform _ hrested fun e _ => ?_) ?_
  · rw [htime, decide_eq_true_eq]
  rintro popped c₂ ⟨h₂, hstrict, hmem⟩
  refine wp_snapshot fun c₃ h₃ => ?_
  have hkernel : kernel { c₃ with currentTime := c₃.eventTable.currentTime } =
      { kernel c₂ with currentTime := (kernel c₂).table.currentTime } := by
    rw [← h₃]
    rfl
  refine (wp_modify _).mpr ?_
  rw [hkernel]
  refine ⟨h₂.ready hstrict (fun ⟨id, hid⟩ => ?_) h₂.tableTime, ?_⟩
  · obtain ⟨e, he, -, ht⟩ := (hmem id).mp hid
    rw [kernel_table, ← ht]
    exact hrested.finite e he
  · refine ⟨h₂.tableTime.trans htime, fun id => ?_, h₂.nextSim.trans ?_, h₂.parallelize.trans ?_,
      h₂.calls.trans ?_⟩
    · change id ∈ (kernel c₂).table.currentBag.uniqueSimulators ↔ _
      rw [hmem id, hheap, htime]
      rfl
    all_goals rw [h₁]

/-- So is the first bag. -/
theorem wlp_schedulerInit (pf : Platform) {time : Time} (h : Rested time (kernel c))
    (hclock : c.currentTime = time) (hfinite : isInfinity time = false) :
    wlp (Scheduler.init pf time) (fun _ c' => Ready (kernel c') ∧
      (kernel c').table.currentTime = time ∧ (kernel c').parallelize = c.parallelize ∧
      (kernel c').calls = (kernel c).calls) c := by
  unfold Scheduler.init wlp
  rw [wp_bind]
  refine wp_changeTable fun c₁ h₁ => ?_
  have hrested : Rested (kernel c₁).table.currentTime (kernel c₁) := by
    rw [h₁]
    have hsched := h.toScheduled
    refine ⟨?_, h.idle⟩
    cases hsched
    constructor <;> assumption
  have htime : c₁.eventTable.currentTime = time := congrArg (·.table.currentTime) h₁
  rw [wp_bind]
  refine wlp_mono (wlp_fillBag pf _ hrested fun e he => ?_) ?_
  · rw [htime, decide_eq_true_eq]
    have hle := hrested.ahead e he
    rw [kernel_table, htime] at hle
    exact ⟨fun hle' => le_antisymm hle' hle, fun heq => heq.le⟩
  rintro popped c₂ ⟨h₂, hstrict, hmem⟩
  refine wp_snapshot fun c₃ h₃ => ?_
  have hcurrent : (kernel c₂).currentTime = (kernel c₁).table.currentTime := by
    rw [h₂.currentTime, h₁]
    exact hclock
  have hready := h₂.ready hstrict (fun _ => htime.symm ▸ hfinite) hcurrent
  rw [h₃]
  exact ⟨hready, h₂.tableTime.trans htime, h₂.parallelize.trans (by rw [h₁]; rfl),
    h₂.calls.trans (by rw [h₁])⟩

end Programs

end Vle.Devs
