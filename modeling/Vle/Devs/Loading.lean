import Vle.Devs.Growth
import Vle.Devs.Routes

/-!
# Outputs and deliveries

The first part of a step calls the output functions of the bag and delivers what they emit. `Ready` is the
state before a step: the simulators of the bag are those with an internal event, which is due, the others
are idle and wait for a later date. `Loading` is a state on the way, after some deliveries: a simulator has
the events that were delivered to it, and is in the bag when it was or when it got one. No element of the
heap is that of a simulator of the bag.
-/

namespace Vle.Devs

open Vle.Lib Vle.Lib.EState Vle.Vpz

variable {σ V : Type} {t : Time}

/-- The vectors of the bag are without double, and share out the simulators of the bag by whether their
dynamics is an executive. -/
structure Bagged (k : Kernel σ V) : Prop where
  nodup : (k.table.currentBag.dynamics ++ k.table.currentBag.executives).Nodup
  unique : ∀ id, id ∈ k.table.currentBag.uniqueSimulators ↔
    id ∈ k.table.currentBag.dynamics ∨ id ∈ k.table.currentBag.executives
  dynamics : ∀ id ∈ k.table.currentBag.dynamics, ∃ core, k.cores id = some core ∧
    core.executive = some false
  executives : ∀ id ∈ k.table.currentBag.executives, ∃ core, k.cores id = some core ∧
    core.executive = some true

/-- A simulator with an internal event that is due. -/
structure Core.Due (t : Time) (core : Core V) : Prop where
  tn : core.tn = t
  handle : core.handle = none
  haveInternal : core.haveInternal = true
  externalEvents : core.externalEvents = []
  result : core.result = []

/-- The state before a step. -/
structure Ready (k : Kernel σ V) : Prop extends Scheduled k.table.currentTime k, Bagged k where
  clock : k.currentTime = k.table.currentTime
  strict : ∀ e ∈ k.table.scheduler, k.table.currentTime < e.time
  due : ∀ id core, k.cores id = some core → id ∈ k.table.currentBag.uniqueSimulators →
    core.Due k.table.currentTime
  idle : ∀ id core, k.cores id = some core → id ∉ k.table.currentBag.uniqueSimulators → core.Idle
  dated : k.table.currentBag.uniqueSimulators.Nonempty → isInfinity k.table.currentTime = false

/-- What was delivered to a simulator. -/
def received (id : SimId) (recs : List (SimId × ExternalEvent V)) : List (ExternalEvent V) :=
  (recs.filter (·.1 = id)).map (·.2)

/-- What a simulator emitted. -/
def emitted (id : SimId) (outs : List (SimId × List (ExternalEvent V))) : List (ExternalEvent V) :=
  (outs.filter (·.1 = id)).flatMap (·.2)

/-- The state of a step after some outputs and deliveries, which are the last calls. The events `pending`
are not delivered yet. -/
structure Loading (k₀ : Kernel σ V) (recs : List (SimId × ExternalEvent V))
    (pending : SimId → List (ExternalEvent V)) (l : List (Event σ V)) (k : Kernel σ V) : Prop
    extends Scheduled k₀.table.currentTime k, Bagged k where
  strict : ∀ e ∈ k.table.scheduler, k₀.table.currentTime < e.time
  members : ∀ id, id ∈ k.table.currentBag.uniqueSimulators ↔
    id ∈ k₀.table.currentBag.uniqueSimulators ∨ id ∈ recs.map (·.1)
  nextSim : k.nextSim = k₀.nextSim
  tableTime : k.table.currentTime = k₀.table.currentTime
  currentTime : k.currentTime = k₀.currentTime
  parallelize : k.parallelize = k₀.parallelize
  calls : k.calls = k₀.calls ++ l
  core : ∀ id core, k.cores id = some core → ∃ core₀, k₀.cores id = some core₀ ∧
    core = { core₀ with
      externalEvents := received id recs
      result := pending id
      handle := if id ∈ k.table.currentBag.uniqueSimulators then none else core₀.handle }

/-! ## The heap -/

/-- The element of a simulator is erased, if there is one. -/
def Kernel.drop (k : Kernel σ V) (id : SimId) (core : Core V) : Kernel σ V :=
  { k with
    cores := Function.update k.cores id (some { core with handle := none })
    table := { k.table with
      scheduler := k.table.scheduler.filter fun e => core.handle ≠ some e.handle } }

section Heap

variable {k : Kernel σ V} {id : SimId} {core : Core V}

/-- An element of the heap is that of the simulator that has its handle. -/
theorem Scheduled.simulator_eq (h : Scheduled t k) {e : HeapElement} (he : e ∈ k.table.scheduler)
    (hid : k.cores id = some core) (hhandle : core.handle = some e.handle) : e.simulator = id := by
  obtain ⟨e', he', hh, hs⟩ := h.handle id core e.handle hid hhandle
  rw [List.inj_on_of_nodup_map h.handles he he' hh.symm, hs]

/-- The element of a simulator may be erased. -/
theorem Scheduled.drop (h : Scheduled t k) (hid : k.cores id = some core) :
    Scheduled t (k.drop id core) where
  fresh i hi := by
    have hne : i ≠ id := fun heq => absurd (h.lt_nextSim hid) (not_lt.mpr (heq ▸ hi))
    simp only [Kernel.drop, Function.update_of_ne hne]
    exact h.fresh i hi
  listed i c hc := by
    by_cases heq : i = id
    · exact heq ▸ h.listed id core hid
    · simp only [Kernel.drop, Function.update_of_ne heq] at hc
      exact h.listed i c hc
  handles := h.handles.sublist (List.filter_sublist.map _)
  below e he := h.below e (List.mem_filter.mp he).1
  element e he := by
    obtain ⟨he, hne⟩ := List.mem_filter.mp he
    obtain ⟨c, hc, hch, htn⟩ := h.element e he
    have hne' : e.simulator ≠ id := by
      intro heq
      rw [heq, hid] at hc
      cases hc
      simp [hch] at hne
    exact ⟨c, by simp only [Kernel.drop, Function.update_of_ne hne', hc], hch, htn⟩
  finite e he := h.finite e (List.mem_filter.mp he).1
  ahead e he := h.ahead e (List.mem_filter.mp he).1
  handle i c n hc hn := by
    by_cases heq : i = id
    · subst heq
      simp only [Kernel.drop, Function.update_self, Option.some.injEq] at hc
      subst hc
      cases hn
    · simp only [Kernel.drop, Function.update_of_ne heq] at hc
      obtain ⟨e, he, hen, hei⟩ := h.handle i c n hc hn
      refine ⟨e, List.mem_filter.mpr ⟨he, ?_⟩, hen, hei⟩
      simp only [decide_eq_true_eq]
      intro hcore
      exact heq (hei.symm.trans (h.simulator_eq he hid hcore))

/-- The bag is no matter of the heap. -/
theorem Scheduled.withBag (h : Scheduled t k) (bag : Bag) (l : List (Event σ V)) :
    Scheduled t { k with table := { k.table with currentBag := bag }, calls := l } := by
  cases h
  constructor <;> assumption

end Heap

/-! ## The bag -/

/-- A simulator is added to the vector that it belongs to. -/
def Bag.enlist (bag : Bag) (id : SimId) (executive : Bool) : Bag :=
  { bag with
    dynamics := if executive then bag.dynamics else bag.dynamics ++ [id]
    executives := if executive then bag.executives ++ [id] else bag.executives }

/-- A simulator joins the bag. -/
def Kernel.join (k : Kernel σ V) (id : SimId) (executive : Bool) : Kernel σ V :=
  { k with table := { k.table with currentBag := {
      k.table.currentBag.enlist id executive with
      uniqueSimulators := insert id k.table.currentBag.uniqueSimulators } } }

section Bag

variable {k : Kernel σ V} {id : SimId} {core core' : Core V}

/-- No simulator becomes an executive. -/
theorem Bagged.put (h : Bagged k) (hid : k.cores id = some core)
    (hexecutive : core'.executive = core.executive) : Bagged (k.put id core') := by
  have hkeep : ∀ i b, (∃ c, k.cores i = some c ∧ c.executive = some b) →
      ∃ c, (k.put id core').cores i = some c ∧ c.executive = some b := by
    rintro i b ⟨c, hc, hexec⟩
    by_cases heq : i = id
    · rw [heq, hid] at hc
      cases hc
      exact ⟨core', by simp only [Kernel.put, heq, Function.update_self], hexecutive.trans hexec⟩
    · exact ⟨c, by simp only [Kernel.put, Function.update_of_ne heq, hc], hexec⟩
  exact ⟨h.nodup, h.unique, fun i hi => hkeep i _ (h.dynamics i hi),
    fun i hi => hkeep i _ (h.executives i hi)⟩

theorem Bagged.withCalls (h : Bagged k) (l : List (Event σ V)) : Bagged { k with calls := l } := by
  cases h
  constructor <;> assumption

theorem Bagged.drop (h : Bagged k) (hid : k.cores id = some core) : Bagged (k.drop id core) := by
  have hput : Bagged (k.put id { core with handle := none }) := h.put hid rfl
  exact ⟨hput.nodup, hput.unique, hput.dynamics, hput.executives⟩

theorem Bagged.join (h : Bagged k) {executive : Bool} (hid : k.cores id = some core)
    (hexec : core.executive = some executive) (hnot : id ∉ k.table.currentBag.uniqueSimulators) :
    Bagged (k.join id executive) := by
  have hnot' := mt (h.unique id).mpr hnot
  rw [not_or] at hnot'
  have hcore : ∃ c, k.cores id = some c ∧ c.executive = some executive := ⟨core, hid, hexec⟩
  cases executive with
  | false =>
    refine ⟨?_, fun i => ?_, fun i hi => ?_, h.executives⟩
    · have hperm : (k.table.currentBag.dynamics ++ [id] ++ k.table.currentBag.executives).Perm
          (id :: (k.table.currentBag.dynamics ++ k.table.currentBag.executives)) := by
        rw [List.append_assoc]
        exact List.perm_middle
      refine hperm.nodup_iff.mpr (List.nodup_cons.mpr ⟨?_, h.nodup⟩)
      rw [List.mem_append, not_or]
      exact hnot'
    · simp only [Kernel.join, Bag.enlist, Finset.mem_insert, h.unique, Bool.false_eq_true, if_false, List.mem_append,
        List.mem_singleton]
      tauto
    · simp only [Kernel.join, Bag.enlist, Bool.false_eq_true, if_false, List.mem_append, List.mem_singleton] at hi
      rcases hi with hi | rfl
      · exact h.dynamics i hi
      · exact hcore
  | true =>
    refine ⟨?_, fun i => ?_, h.dynamics, fun i hi => ?_⟩
    · simp only [Kernel.join, Bag.enlist, if_true, ← List.append_assoc]
      refine (List.perm_append_singleton id _).nodup_iff.mpr (List.nodup_cons.mpr ⟨?_, h.nodup⟩)
      rw [List.mem_append, not_or]
      exact hnot'
    · simp only [Kernel.join, Bag.enlist, Finset.mem_insert, h.unique, if_true, List.mem_append, List.mem_singleton]
      tauto
    · simp only [Kernel.join, Bag.enlist, if_true, List.mem_append, List.mem_singleton] at hi
      rcases hi with hi | rfl
      · exact h.executives i hi
      · exact hcore

end Bag

/-! ## One output, one delivery -/

section Steps

variable {k₀ k : Kernel σ V} {recs : List (SimId × ExternalEvent V)}
  {pending : SimId → List (ExternalEvent V)} {l : List (Event σ V)} {id : SimId} {core : Core V}

/-- Before a step nothing was delivered. -/
theorem Ready.loading (h : Ready k) : Loading k [] (fun _ => []) [] k where
  toScheduled := h.toScheduled
  toBagged := h.toBagged
  strict := h.strict
  members id := by simp
  nextSim := rfl
  tableTime := rfl
  currentTime := rfl
  parallelize := rfl
  calls := by simp
  core id core hid := by
    refine ⟨core, hid, ?_⟩
    obtain ⟨tn, handle, haveInternal, externalEvents, result, executive⟩ := core
    by_cases hmem : id ∈ k.table.currentBag.uniqueSimulators
    · obtain ⟨-, rfl, -, rfl, rfl⟩ := h.due id _ hid hmem
      simp [hmem, received]
    · obtain ⟨-, rfl, rfl, -⟩ := h.idle id _ hid hmem
      simp [hmem, received]

/-- A change of the events that are to be delivered. -/
theorem Loading.setResult (h : Loading k₀ recs pending l k) (hid : k.cores id = some core)
    (r : List (ExternalEvent V)) (events : List (Event σ V)) :
    Loading k₀ recs (Function.update pending id r) (l ++ events)
      { k.put id { core with result := r } with calls := k.calls ++ events } where
  toScheduled := by
    have hput : Scheduled k₀.table.currentTime (k.put id { core with result := r }) :=
      h.toScheduled.put hid rfl (.inr rfl)
    exact hput.withBag _ _
  toBagged := by
    have hput : Bagged (k.put id { core with result := r }) := h.toBagged.put hid rfl
    exact hput.withCalls _
  strict := h.strict
  members := h.members
  nextSim := h.nextSim
  tableTime := h.tableTime
  currentTime := h.currentTime
  parallelize := h.parallelize
  calls := by
    change k.calls ++ events = _
    rw [h.calls, List.append_assoc]
  core i c hc := by
    by_cases heq : i = id
    · subst heq
      simp only [Kernel.put, Function.update_self, Option.some.injEq] at hc
      obtain ⟨core₀, hcore₀, hcore⟩ := h.core i core hid
      refine ⟨core₀, hcore₀, ?_⟩
      rw [← hc, hcore, Function.update_self]
      rfl
    · simp only [Kernel.put, Function.update_of_ne heq] at hc
      obtain ⟨core₀, hcore₀, hcore⟩ := h.core i c hc
      refine ⟨core₀, hcore₀, ?_⟩
      rw [hcore, Function.update_of_ne heq]
      rfl

/-- A simulator gets an event: it joins the bag, and its element of the heap is erased. -/
def Kernel.receive (k : Kernel σ V) (id : SimId) (core : Core V) (executive : Bool)
    (event : ExternalEvent V) : Kernel σ V :=
  let k' := if id ∈ k.table.currentBag.uniqueSimulators then k else k.join id executive
  { k'.drop id { core with externalEvents := core.externalEvents ++ [event] } with
    calls := k.calls ++ [.external id event] }

theorem received_append_of_ne {i : SimId} (h : i ≠ id) (event : ExternalEvent V) :
    received i (recs ++ [(id, event)]) = received i recs := by
  simp [received, h.symm]

theorem received_append_self (event : ExternalEvent V) :
    received id (recs ++ [(id, event)]) = received id recs ++ [event] := by
  simp [received]

/-- A delivery. -/
theorem Loading.receive (h : Loading k₀ recs pending l k) (hid : k.cores id = some core)
    {executive : Bool} (hexec : core.executive = some executive) (event : ExternalEvent V) :
    Loading k₀ (recs ++ [(id, event)]) pending (l ++ [.external id event])
      (k.receive id core executive event) := by
  let core' : Core V := { core with externalEvents := core.externalEvents ++ [event] }
  let k' := if id ∈ k.table.currentBag.uniqueSimulators then k else k.join id executive
  have hcores : k'.cores = k.cores := by
    unfold k'
    split_ifs <;> rfl
  have htable : k'.table.scheduler = k.table.scheduler ∧ k'.table.currentTime = k.table.currentTime := by
    unfold k'
    split_ifs <;> exact ⟨rfl, rfl⟩
  have hrest : k'.nextSim = k.nextSim ∧ k'.currentTime = k.currentTime ∧ k'.parallelize = k.parallelize := by
    unfold k'
    split_ifs <;> exact ⟨rfl, rfl, rfl⟩
  have hmem : ∀ i, i ∈ k'.table.currentBag.uniqueSimulators ↔
      i = id ∨ i ∈ k.table.currentBag.uniqueSimulators := by
    intro i
    unfold k'
    split_ifs with hin
    · exact ⟨.inr, fun hi => hi.elim (fun heq => heq ▸ hin) fun hi => hi⟩
    · simp [Kernel.join]
  have hid' : k'.cores id = some core := by rw [hcores, hid]
  have hsched : Scheduled k₀.table.currentTime k' := by
    unfold k'
    split_ifs
    · exact h.toScheduled
    · exact h.toScheduled.withBag _ k.calls
  have hbag : Bagged k' := by
    unfold k'
    split_ifs with hin
    · exact h.toBagged
    · exact h.toBagged.join hid hexec hin
  have hdrop : (k'.put id core').drop id core' = k'.drop id core' := by
    simp only [Kernel.put, Kernel.drop, Function.update_idem]
  have hself : (k'.put id core').cores id = some core' := Function.update_self ..
  have hput : Scheduled k₀.table.currentTime (k'.put id core') := hsched.put hid' rfl (.inr rfl)
  have hput' : Bagged (k'.put id core') := hbag.put hid' rfl
  have hsched' : Scheduled k₀.table.currentTime (k'.drop id core') := hdrop ▸ hput.drop hself
  have hbag' : Bagged (k'.drop id core') := hdrop ▸ hput'.drop hself
  refine ⟨hsched'.withBag _ _, hbag'.withCalls _, fun e he => ?_, fun i => ?_, ?_, ?_, ?_, ?_, ?_, ?_⟩
  · have he := (List.mem_filter.mp he).1
    rw [htable.1] at he
    exact h.strict e he
  · change i ∈ k'.table.currentBag.uniqueSimulators ↔ _
    rw [hmem, h.members, List.map_append, List.mem_append, List.map_cons, List.map_nil,
      List.mem_singleton]
    tauto
  · exact hrest.1.trans h.nextSim
  · exact htable.2.trans h.tableTime
  · exact hrest.2.1.trans h.currentTime
  · exact hrest.2.2.trans h.parallelize
  · change k.calls ++ _ = _
    rw [h.calls, List.append_assoc]
  · intro i c hc
    change Function.update k'.cores id _ i = some c at hc
    change ∃ core₀, k₀.cores i = some core₀ ∧ c = { core₀ with
      externalEvents := received i (recs ++ [(id, event)])
      result := pending i
      handle := if i ∈ k'.table.currentBag.uniqueSimulators then none else core₀.handle }
    by_cases heq : i = id
    · subst heq
      rw [Function.update_self, Option.some.injEq] at hc
      obtain ⟨core₀, hcore₀, hcore⟩ := h.core i core hid
      refine ⟨core₀, hcore₀, ?_⟩
      rw [if_pos ((hmem i).mpr (.inl rfl)), received_append_self, ← hc, hcore]
    · rw [Function.update_of_ne heq, hcores] at hc
      obtain ⟨core₀, hcore₀, hcore⟩ := h.core i c hc
      refine ⟨core₀, hcore₀, ?_⟩
      have hiff : i ∈ k'.table.currentBag.uniqueSimulators ↔
          i ∈ k.table.currentBag.uniqueSimulators := by simp [hmem, heq]
      rw [received_append_of_ne heq, hcore]
      simp only [hiff]

end Steps

/-! ## The loops -/

section Programs

variable {k₀ : Kernel σ V} {recs : List (SimId × ExternalEvent V)}
  {pending : SimId → List (ExternalEvent V)} {l : List (Event σ V)} {id : SimId} {c : Coordinator σ V}

/-- What an output function emits is to be delivered. -/
theorem wlp_output (h : Loading k₀ recs pending l (kernel c)) (time : Time) :
    wlp (Simulator.output id time) (fun _ c' => ∃ r,
      Loading k₀ recs (Function.update pending id (pending id ++ r)) (l ++ [.output id time r])
        (kernel c')) c := by
  unfold Simulator.output wlp
  rw [wp_bind]
  refine wp_dynamicsOf (fun _ => trivial) fun sim d hsim _ => ?_
  rw [wp_bind]
  refine wp_ofExcept (fun _ _ => trivial) fun r _ => ?_
  rw [wp_bind, wp_modifySimulator_of hsim, wp_bind]
  have hcore : (kernel c).cores id = some sim.core := by simp [hsim]
  have hresult : sim.core.result = pending id := by
    obtain ⟨core₀, -, heq⟩ := h.core id _ hcore
    rw [heq]
  have hload := h.setResult hcore (sim.core.result ++ r) [.output id time r]
  rw [hresult] at hload
  refine (wp_modify _).mpr ?_
  rw [wp_bind]
  refine (still_simulator id).wp (fun s c₁ h₁ => ?_) fun _ _ _ => trivial
  refine (still_observe id time _).wp (fun _ c₂ h₂ => ⟨r, ?_⟩) fun _ _ _ => trivial
  rw [h₂, h₁, kernel_note, kernel_update]
  rw [← hresult] at hload ⊢
  exact hload

/-- The element of a simulator is erased. -/
theorem wp_eraseHandle {c : Coordinator σ V} {handle : ℕ} {core : Core V}
    (hid : (kernel c).cores id = some core) (hhandle : core.handle = some handle)
    {E : Error → Coordinator σ V → Prop} {Q : Unit → Coordinator σ V → Prop}
    (h : ∀ c', kernel c' = (kernel c).drop id core → Q () c') : wp (eraseHandle id handle) Q E c := by
  unfold eraseHandle
  rw [wp_bind, wp_modifyTable]
  refine @wp_modifyCore _ _ _ _ _ _ _ core { core with handle := none } hid ?_ fun c' h' => h c' ?_
  · rintro sim rfl
    rfl
  · have hfilter : ∀ e : HeapElement, decide (e.handle ≠ handle) =
        decide (core.handle ≠ some e.handle) := by
      intro e
      rw [hhandle]
      simp [eq_comm]
    rw [h']
    simp only [Kernel.put, Kernel.drop, kernel, hfilter]

/-- A simulator is added to its vector. -/
theorem wp_push {c : Coordinator σ V} {E : Error → Coordinator σ V → Prop}
    {Q : Unit → Coordinator σ V → Prop} (hE : ∀ e, E e c)
    (h : ∀ core executive c', (kernel c).cores id = some core → core.executive = some executive →
      kernel c' = { kernel c with table := { (kernel c).table with
        currentBag := (kernel c).table.currentBag.enlist id executive } } → Q () c') :
    wp (Scheduler.push id) Q E c := by
  unfold Scheduler.push modifyBag
  rw [wp_bind]
  refine wp_isExecutive hE fun core b hcore hb => ?_
  cases b with
  | true => exact h core true _ hcore hb rfl
  | false => exact h core false _ hcore hb rfl

theorem Kernel.drop_of_none {k : Kernel σ V} {core : Core V} (h : core.handle = none) :
    k.drop id core = k.put id core := by
  have hcore : ({ core with handle := none } : Core V) = core := by rw [← h]
  simp only [Kernel.drop, Kernel.put, hcore, h, ne_eq, reduceCtorEq, not_false_eq_true, decide_true,
    List.filter_true]

/-- An event is delivered to its target. -/
theorem wlp_addExternal (h : Loading k₀ recs pending l (kernel c)) (values : V) (portname : String) :
    wlp (Scheduler.addExternal id values portname) (fun _ c' =>
      Loading k₀ (recs ++ [(id, ⟨portname, values⟩)]) pending
        (l ++ [.external id ⟨portname, values⟩]) (kernel c')) c := by
  -- What is done once the simulator is in the bag.
  have hrest : ∀ (c₁ : Coordinator σ V) (core : Core V) (executive : Bool),
      (kernel c).cores id = some core → core.executive = some executive →
      kernel c₁ = (if id ∈ (kernel c).table.currentBag.uniqueSimulators then kernel c
        else (kernel c).join id executive) →
      wlp (Scheduler.receive id values portname) (fun _ c' =>
        Loading k₀ (recs ++ [(id, ⟨portname, values⟩)]) pending
          (l ++ [.external id ⟨portname, values⟩]) (kernel c')) c₁ := by
    intro c₁ core executive hcore hexec hc₁
    let core' : Core V := { core with externalEvents := core.externalEvents ++ [⟨portname, values⟩] }
    have hload := h.receive hcore hexec ⟨portname, values⟩
    have hcore₁ : (kernel c₁).cores id = some core := by
      rw [hc₁]
      split_ifs <;> exact hcore
    have htable : (kernel c₁).table.scheduler = (kernel c).table.scheduler ∧
        (kernel c₁).table.currentTime = k₀.table.currentTime := by
      rw [← h.tableTime, hc₁]
      split_ifs <;> exact ⟨rfl, rfl⟩
    have hreceive : (kernel c).receive id core executive ⟨portname, values⟩ =
        { (kernel c₁).drop id core' with
          calls := (kernel c₁).calls ++ [.external id ⟨portname, values⟩] } := by
      rw [hc₁]
      unfold Kernel.receive
      split_ifs <;> rfl
    rw [hreceive] at hload
    unfold Scheduler.receive wlp
    rw [wp_bind]
    refine @wp_modifyCore _ _ _ _ _ _ _ core core' hcore₁ ?_ fun c₂ h₂ => ?_
    · rintro sim rfl
      rfl
    rw [wp_bind]
    refine wp_noteCall rfl fun c₃ h₃ => ?_
    rw [wp_bind]
    have hcore₃ : (kernel c₃).cores id = some core' := by
      rw [h₃, h₂]
      exact Function.update_self ..
    refine wp_readCore hcore₃ fun sim hsim => ?_
    rw [wp_bind, wp_get]
    have hdrop : (kernel c₃).drop id core' = { (kernel c₁).drop id core' with
        calls := (kernel c₁).calls ++ [.external id ⟨portname, values⟩] } := by
      rw [h₃, h₂]
      simp only [Kernel.drop, Kernel.put, Function.update_idem]
    rw [← hdrop] at hload
    have htn : sim.tn = core.tn := congrArg Core.tn hsim
    cases hhandle : sim.handle with
    | none =>
      have hnone : core'.handle = none := (congrArg Core.handle hsim).symm.trans hhandle
      rw [Kernel.drop_of_none hnone, Kernel.put_self hcore₃] at hload
      exact wp_snapshot fun c₄ h₄ => h₄ ▸ hload
    | some handle =>
      have hsome : core'.handle = some handle := (congrArg Core.handle hsim).symm.trans hhandle
      obtain ⟨e, he, rfl, rfl⟩ := h.handle id core handle hcore hsome
      obtain ⟨c', hc', -, htime⟩ := h.element e he
      rw [hcore] at hc'
      cases hc'
      have hlt : c₃.eventTable.currentTime < sim.tn := by
        have htime₃ : c₃.eventTable.currentTime = k₀.table.currentTime := by
          rw [← kernel_table, h₃, h₂]
          exact htable.2
        rw [htime₃, htn, htime]
        exact h.strict e he
      simp only [hlt, if_true]
      rw [wp_bind]
      exact wp_eraseHandle hcore₃ hsome fun c₄ h₄ => wp_snapshot fun c₅ h₅ => h₅ ▸ h₄ ▸ hload
  unfold Scheduler.addExternal wlp
  rw [wp_bind, wp_get]
  split_ifs with hmem
  · rcases (h.unique id).mp hmem with hid | hid
    · obtain ⟨core, hcore, hexec⟩ := h.dynamics id hid
      exact hrest c core false hcore hexec (if_pos hmem).symm
    · obtain ⟨core, hcore, hexec⟩ := h.executives id hid
      exact hrest c core true hcore hexec (if_pos hmem).symm
  · unfold modifyBag
    rw [wp_bind, wp_modifyTable, wp_bind]
    refine wp_push (fun _ => trivial) fun core executive c₁ hcore hexec h₁ => ?_
    exact hrest c₁ core executive hcore hexec (h₁.trans (if_neg hmem).symm)

/-- The outputs of some simulators. -/
theorem wlp_outputs (ids : List SimId) (time : Time) (h : Loading k₀ recs pending l (kernel c)) :
    wlp (ids.forM fun id => Simulator.output id time) (fun _ c' => ∃ outs, outs.map (·.1) = ids ∧
      Loading k₀ recs (fun id => pending id ++ emitted id outs)
        (l ++ outs.map fun o => .output o.1 time o.2) (kernel c')) c := by
  induction ids generalizing pending l c with
  | nil =>
    refine ⟨[], rfl, ?_⟩
    simpa [emitted] using h
  | cons id ids ih =>
    unfold wlp
    rw [wp_forM_cons]
    refine wlp_mono (wlp_output h time) fun _ c₁ ⟨r, h₁⟩ => wlp_mono (ih h₁) ?_
    rintro _ c₂ ⟨outs, hids, h₂⟩
    refine ⟨(id, r) :: outs, by rw [List.map_cons, hids], ?_⟩
    have hpending : (fun i => Function.update pending id (pending id ++ r) i ++ emitted i outs) =
        fun i => pending i ++ emitted i ((id, r) :: outs) := by
      funext i
      by_cases heq : i = id
      · subst heq
        simp [emitted]
      · have hne : id ≠ i := fun h => heq h.symm
        simp [emitted, Function.update_of_ne heq, hne]
    rw [hpending] at h₂
    simpa using h₂

/-- Where an event goes. -/
def ends (route : SimId → String → Except Error (List TargetSimulator)) (id : SimId)
    (event : ExternalEvent V) : List (SimId × ExternalEvent V) :=
  match route id event.portName with
  | .ok x => x.filterMap fun target => target.1.map fun dst => (dst, ⟨target.2, event.attributes⟩)
  | .error _ => []

/-- The event is delivered to each of the targets. -/
theorem wlp_deliver (values : V) (x : List TargetSimulator) (h : Loading k₀ recs pending l (kernel c)) :
    wlp (x.forM fun target =>
      match target.1 with
      | some dst => Scheduler.addExternal dst values target.2
      | none => throw .null) (fun _ c' =>
        let recs' := x.filterMap fun target => target.1.map fun dst => (dst, ⟨target.2, values⟩)
        Loading k₀ (recs ++ recs') pending (l ++ recs'.map fun e => .external e.1 e.2) (kernel c')) c := by
  induction x generalizing recs l c with
  | nil =>
    change Loading k₀ (recs ++ []) pending (l ++ []) (kernel c)
    rwa [List.append_nil, List.append_nil]
  | cons target x ih =>
    obtain ⟨o, port⟩ := target
    unfold wlp
    rw [wp_forM_cons]
    cases o with
    | none => exact trivial
    | some dst =>
      refine wlp_mono (wlp_addExternal h values port) fun _ c₁ h₁ => wlp_mono (ih h₁) fun _ c₂ h₂ => ?_
      simpa using h₂

variable {w : Wiring}

/-- Each event that a simulator emitted is delivered. -/
theorem wlp_deliverAll (id : SimId) (events : List (ExternalEvent V))
    (h : Loading k₀ recs pending l (kernel c)) (hw : w.Same (wiring c)) :
    wlp (events.forM fun elem => do
      let x ← Simulator.targets id elem.portName
      x.forM fun target =>
        match target.1 with
        | some dst => Scheduler.addExternal dst elem.attributes target.2
        | none => throw .null) (fun _ c' =>
        let recs' := events.flatMap (ends w.route id)
        Loading k₀ (recs ++ recs') pending (l ++ recs'.map fun e => .external e.1 e.2) (kernel c') ∧
          w.Same (wiring c')) c := by
  induction events generalizing recs l c with
  | nil =>
    change Loading k₀ (recs ++ []) pending (l ++ []) (kernel c) ∧ _
    rw [List.append_nil, List.append_nil]
    exact ⟨h, hw⟩
  | cons event events ih =>
    unfold wlp
    rw [wp_forM_cons, wp_bind]
    refine wlp_mono (wlp_and (wlp_targets id event.portName) ((still_targets id event.portName).wlp c)) ?_
    rintro x c₁ ⟨⟨hx, hfilled⟩, hkernel⟩
    have h₁ : Loading k₀ recs pending l (kernel c₁) := hkernel ▸ h
    have hw₁ := hw.trans hfilled.same
    have hends : ends w.route id event =
        x.filterMap fun target => target.1.map fun dst => (dst, ⟨target.2, event.attributes⟩) := by
      unfold ends
      rw [← hw.route, hx]
    have hfixed : Laid (x.forM fun target =>
        match target.1 with
        | some dst => Scheduler.addExternal dst event.attributes target.2
        | none => throw .null : CoordM σ V PUnit) := by
      refine fixes_forM (fun target => ?_) x
      cases target.1 with
      | some dst => exact laid_addExternal dst _ _
      | none => exact fixes_throw _
    refine wlp_mono (wlp_and (wlp_deliver event.attributes x h₁) (hfixed.fixes_wiring.wlp c₁)) ?_
    rintro _ c₂ ⟨h₂, hwiring⟩
    rw [← hends] at h₂
    refine wlp_mono (ih h₂ (hw₁.trans (.of_eq hwiring))) fun _ c₃ h₃ => ?_
    simpa using h₃

/-- All that some simulators emitted is delivered. -/
theorem wlp_dispatchExternalEvent (ids : List SimId) (hids : ids.Nodup)
    (h : Loading k₀ recs pending l (kernel c)) (hw : w.Same (wiring c)) :
    wlp (Coordinator.dispatchExternalEvent ids) (fun _ c' =>
      let recs' := ids.flatMap fun id => (pending id).flatMap (ends w.route id)
      Loading k₀ (recs ++ recs') (fun id => if id ∈ ids then [] else pending id)
        (l ++ recs'.map fun e => .external e.1 e.2) (kernel c') ∧ w.Same (wiring c')) c := by
  unfold Coordinator.dispatchExternalEvent
  induction ids generalizing recs pending l c with
  | nil =>
    change Loading k₀ (recs ++ []) (fun id => if id ∈ [] then [] else pending id) (l ++ []) (kernel c) ∧ _
    simp only [List.append_nil, List.not_mem_nil, if_false]
    exact ⟨h, hw⟩
  | cons id ids ih =>
    obtain ⟨hnot, hids⟩ := List.nodup_cons.mp hids
    unfold wlp
    rw [wp_forM_cons, wp_bind]
    refine wp_simulator trivial fun sim hsim => ?_
    have hcore : (kernel c).cores id = some sim.core := by simp [hsim]
    have hresult : sim.result = pending id := by
      obtain ⟨core₀, -, heq⟩ := h.core id _ hcore
      exact congrArg Core.result heq
    rw [hresult, wp_bind]
    refine wlp_mono (wlp_deliverAll id (pending id) h hw) fun _ c₁ ⟨h₁, hw₁⟩ => ?_
    refine wp_modifySimulator trivial fun sim₁ hsim₁ => ?_
    let sim₂ : Simulator σ V := { sim₁ with result := [] }
    have hcore₁ : (kernel c₁).cores id = some sim₁.core := by simp [hsim₁]
    have h₂ := h₁.setResult hcore₁ [] []
    simp only [List.append_nil] at h₂
    have hkernel := kernel_update c₁ id sim₂
    have hw₂ : w.Same (wiring { c₁ with sims := Function.update c₁.sims id (some sim₂) }) := by
      rw [wiring_update]
      rwa [Wiring.put_self (by simp [hsim₁, sim₂, Simulator.cache])]
    refine wlp_mono (ih hids (hkernel ▸ h₂) hw₂) fun _ c₃ ⟨h₃, hw₃⟩ => ⟨?_, hw₃⟩
    have hrecs : (ids.flatMap fun i => (Function.update pending id [] i).flatMap (ends w.route i)) =
        ids.flatMap fun i => (pending i).flatMap (ends w.route i) := by
      refine List.flatMap_congr fun i hi => ?_
      have hne : i ≠ id := fun heq => hnot (heq ▸ hi)
      rw [Function.update_of_ne hne]
    have hpending : (fun i => if i ∈ ids then [] else Function.update pending id [] i) =
        fun i => if i ∈ id :: ids then [] else pending i := by
      funext i
      by_cases heq : i = id
      · subst heq
        simp
      · simp [heq]
    rw [hrecs, hpending] at h₃
    simpa using h₃

/-- What is delivered of what some simulators emitted. -/
def deliveries (route : SimId → String → Except Error (List TargetSimulator))
    (outs : List (SimId × List (ExternalEvent V))) : List (SimId × ExternalEvent V) :=
  outs.flatMap fun o => o.2.flatMap (ends route o.1)

/-- Each simulator emits once. -/
theorem emitted_of_mem {outs : List (SimId × List (ExternalEvent V))} (h : (outs.map (·.1)).Nodup)
    {o : SimId × List (ExternalEvent V)} (ho : o ∈ outs) : emitted o.1 outs = o.2 := by
  induction outs with
  | nil => cases ho
  | cons o' outs ih =>
    rw [List.map_cons, List.nodup_cons] at h
    unfold emitted at ih ⊢
    rcases List.mem_cons.mp ho with rfl | ho
    · have hnone : outs.filter (fun x => decide (x.1 = o.1)) = [] := by
        refine List.filter_eq_nil_iff.mpr fun x hx heq => h.1 ?_
        exact List.mem_map.mpr ⟨x, hx, by simpa using heq⟩
      simp [hnone]
    · have hne : o'.1 ≠ o.1 := fun heq => h.1 (List.mem_map.mpr ⟨o, ho, heq.symm⟩)
      simp only [List.filter_cons, hne, decide_false, Bool.false_eq_true, if_false]
      exact ih h.2 ho

theorem emitted_of_notMem {outs : List (SimId × List (ExternalEvent V))} (h : id ∉ outs.map (·.1)) :
    emitted id outs = [] := by
  unfold emitted
  have hnone : outs.filter (fun x => decide (x.1 = id)) = [] := by
    refine List.filter_eq_nil_iff.mpr fun x hx heq => h ?_
    exact List.mem_map.mpr ⟨x, hx, by simpa using heq⟩
  simp [hnone]

/-- Some simulators emit, and what they emit is delivered. -/
theorem wlp_emit (ids : List SimId) (hids : ids.Nodup) (time : Time)
    (h : Loading k₀ recs (fun _ => []) l (kernel c)) (hw : w.Same (wiring c)) :
    wlp (ids.forM fun id => Simulator.output id time) (fun _ =>
      wlp (Coordinator.dispatchExternalEvent ids) fun _ c' => ∃ outs, outs.map (·.1) = ids ∧
        Loading k₀ (recs ++ deliveries w.route outs) (fun _ => [])
          (l ++ (outs.map fun o => .output o.1 time o.2) ++
            (deliveries w.route outs).map fun e => .external e.1 e.2) (kernel c') ∧
        w.Same (wiring c')) c := by
  have hfixed : Fixes wiring (ids.forM fun id => Simulator.output id time : CoordM σ V PUnit) :=
    fixes_forM (fun id => fixes_wiring_output id time) ids
  refine wlp_mono (wlp_and (wlp_outputs ids time h) (hfixed.wlp c)) ?_
  rintro _ c₁ ⟨⟨outs, houts, h₁⟩, hwiring⟩
  refine wlp_mono (wlp_dispatchExternalEvent ids hids h₁ (hw.trans (.of_eq hwiring))) ?_
  rintro _ c₂ ⟨h₂, hw₂⟩
  refine ⟨outs, houts, ?_, hw₂⟩
  have hnodup : (outs.map (·.1)).Nodup := houts ▸ hids
  have hpending : (fun id => if id ∈ ids then [] else [] ++ emitted id outs) = fun _ => [] := by
    funext id
    by_cases hid : id ∈ ids
    · rw [if_pos hid]
    · rw [if_neg hid, emitted_of_notMem (houts.symm ▸ hid), List.append_nil]
  have hrecs : (ids.flatMap fun id => ([] ++ emitted id outs).flatMap (ends w.route id)) =
      deliveries w.route outs := by
    unfold deliveries
    rw [← houts, List.flatMap_map]
    refine List.flatMap_congr fun o ho => ?_
    rw [List.nil_append, emitted_of_mem hnodup ho]
  rw [hpending, hrecs] at h₂
  exact h₂

end Programs

end Vle.Devs
