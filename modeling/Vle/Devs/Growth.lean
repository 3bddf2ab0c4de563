import Vle.Devs.Kernel
import Mathlib.Algebra.Order.Monoid.WithTop

/-!
# What commands do to the scheduler

An executive's commands, and the initializations of the models that they create, touch no simulator that
there was: they only add simulators, with an element in the heap when they are to be called
(`Extends`), and keep the heap and the simulators in accordance (`Scheduled`).
-/

namespace Vle.Devs

open Vle.Lib Vle.Lib.EState Vle.Vpz

variable {σ V : Type} {t : Time}

/-- A simulator that is in no bag: it has no event to treat, and it is in the heap when it has a next
date. -/
structure Core.Idle (core : Core V) : Prop where
  haveInternal : core.haveInternal = false
  externalEvents : core.externalEvents = []
  result : core.result = []
  handle : core.handle = none → isInfinity core.tn = true

/-- The heap and the simulators are in accordance: each element of the heap is that of one simulator, under
the handle and the date that the simulator has, and the elements are not before a date. -/
structure Scheduled (t : Time) (k : Kernel σ V) : Prop where
  fresh : ∀ id, k.nextSim ≤ id → k.cores id = none
  listed : ∀ id core, k.cores id = some core → id ∈ k.simulators
  handles : (k.table.scheduler.map (·.handle)).Nodup
  below : ∀ e ∈ k.table.scheduler, e.handle < k.table.nextHandle
  element : ∀ e ∈ k.table.scheduler, ∃ core, k.cores e.simulator = some core ∧
    core.handle = some e.handle ∧ core.tn = e.time
  finite : ∀ e ∈ k.table.scheduler, isInfinity e.time = false
  ahead : ∀ e ∈ k.table.scheduler, t ≤ e.time
  handle : ∀ id core h, k.cores id = some core → core.handle = some h →
    ∃ e ∈ k.table.scheduler, e.handle = h ∧ e.simulator = id

/-- A kernel with more simulators, which are idle; the others are as they were, and so are the bag and the
dates, and nothing was called. -/
structure Extends (k k' : Kernel σ V) : Prop where
  nextSim : k.nextSim ≤ k'.nextSim
  old : ∀ id < k.nextSim, k'.cores id = k.cores id
  new : ∀ id core, k.nextSim ≤ id → k'.cores id = some core → core.Idle
  currentBag : k'.table.currentBag = k.table.currentBag
  tableTime : k'.table.currentTime = k.table.currentTime
  currentTime : k'.currentTime = k.currentTime
  parallelize : k'.parallelize = k.parallelize
  calls : k'.calls = k.calls

/-- What a command leaves. -/
structure Grown (t : Time) (k k' : Kernel σ V) : Prop extends Scheduled t k', Extends k k'

/-- The simulators of a kernel are those that have got a number. -/
theorem Scheduled.lt_nextSim {k : Kernel σ V} (h : Scheduled t k) {id : SimId} {core : Core V}
    (hid : k.cores id = some core) : id < k.nextSim := by
  by_contra hlt
  rw [h.fresh id (not_lt.mp hlt)] at hid
  cases hid

theorem Scheduled.grown_self {k : Kernel σ V} (h : Scheduled t k) : Grown t k k where
  toScheduled := h
  nextSim := le_rfl
  old _ _ := rfl
  new id core hid hcore := by
    rw [h.fresh id hid] at hcore
    cases hcore
  currentBag := rfl
  tableTime := rfl
  currentTime := rfl
  parallelize := rfl
  calls := rfl

theorem Extends.trans {k₀ k₁ k₂ : Kernel σ V} (h₁ : Extends k₀ k₁) (h₂ : Extends k₁ k₂) :
    Extends k₀ k₂ where
  nextSim := h₁.nextSim.trans h₂.nextSim
  old id hid := (h₂.old id (hid.trans_le h₁.nextSim)).trans (h₁.old id hid)
  new id core hid hcore := by
    by_cases hlt : id < k₁.nextSim
    · rw [h₂.old id hlt] at hcore
      exact h₁.new id core hid hcore
    · exact h₂.new id core (not_lt.mp hlt) hcore
  currentBag := h₂.currentBag.trans h₁.currentBag
  tableTime := h₂.tableTime.trans h₁.tableTime
  currentTime := h₂.currentTime.trans h₁.currentTime
  parallelize := h₂.parallelize.trans h₁.parallelize
  calls := h₂.calls.trans h₁.calls

/-! ## Changes of the kernel -/

/-- A simulator is created. -/
def Kernel.add (k : Kernel σ V) : Kernel σ V :=
  { k with
    cores := Function.update k.cores k.nextSim
      (some { tn := negativeInfinity, handle := none, haveInternal := false, externalEvents := [],
              result := [], executive := none })
    nextSim := k.nextSim + 1
    simulators := k.simulators ++ [k.nextSim] }

/-- A simulator without element in the heap gets one. -/
def Kernel.push (k : Kernel σ V) (id : SimId) (core : Core V) (time : Time) : Kernel σ V :=
  { k with
    cores := Function.update k.cores id (some { core with handle := some k.table.nextHandle })
    table := { k.table with
      scheduler := k.table.scheduler ++ [⟨k.table.nextHandle, time, id⟩]
      nextHandle := k.table.nextHandle + 1 } }

theorem Kernel.push_put (k : Kernel σ V) (id : SimId) (core core' : Core V) (time : Time) :
    (k.put id core).push id core' time = k.push id core' time := by
  simp only [Kernel.push, Kernel.put, Function.update_idem]

section Changes

variable {k₀ k : Kernel σ V} {id : SimId} {core core' : Core V}

/-- A simulator may change as long as it keeps its handle, and with an element in the heap its date. -/
theorem Scheduled.put (h : Scheduled t k) (hid : k.cores id = some core)
    (hhandle : core'.handle = core.handle) (htn : core.handle = none ∨ core'.tn = core.tn) :
    Scheduled t (k.put id core') where
  fresh i hi := by
    have hne : i ≠ id := fun heq => absurd (h.lt_nextSim hid) (not_lt.mpr (heq ▸ hi))
    simp only [Kernel.put, Function.update_of_ne hne]
    exact h.fresh i hi
  listed i c hc := by
    by_cases heq : i = id
    · exact heq ▸ h.listed id core hid
    · simp only [Kernel.put, Function.update_of_ne heq] at hc
      exact h.listed i c hc
  handles := h.handles
  below := h.below
  element e he := by
    obtain ⟨c, hc, hch, hct⟩ := h.element e he
    by_cases heq : e.simulator = id
    · rw [heq, hid] at hc
      cases hc
      have htn' := htn.resolve_left (by simp [hch])
      exact ⟨core', by simp only [Kernel.put, heq, Function.update_self], hhandle.trans hch,
        htn'.trans hct⟩
    · exact ⟨c, by simp only [Kernel.put, Function.update_of_ne heq, hc], hch, hct⟩
  finite := h.finite
  ahead := h.ahead
  handle i c n hc hn := by
    by_cases heq : i = id
    · subst heq
      simp only [Kernel.put, Function.update_self, Option.some.injEq] at hc
      subst hc
      exact h.handle i core n hid (hhandle.symm.trans hn)
    · simp only [Kernel.put, Function.update_of_ne heq] at hc
      exact h.handle i c n hc hn

/-- A simulator that has no element in the heap may get one, at its next date. -/
theorem Scheduled.push (h : Scheduled t k) (hid : k.cores id = some core) (hhandle : core.handle = none)
    (hfinite : isInfinity core.tn = false) (hahead : t ≤ core.tn) :
    Scheduled t (k.push id core core.tn) where
  fresh i hi := by
    have hne : i ≠ id := fun heq => absurd (h.lt_nextSim hid) (not_lt.mpr (heq ▸ hi))
    simp only [Kernel.push, Function.update_of_ne hne]
    exact h.fresh i hi
  listed i c hc := by
    by_cases heq : i = id
    · exact heq ▸ h.listed id core hid
    · simp only [Kernel.push, Function.update_of_ne heq] at hc
      exact h.listed i c hc
  handles := by
    simp only [Kernel.push, List.map_append, List.map_cons, List.map_nil]
    refine List.nodup_append.mpr ⟨h.handles, List.nodup_singleton _, ?_⟩
    intro a ha b hb heq
    obtain ⟨e, he, rfl⟩ := List.mem_map.mp ha
    have := h.below e he
    rw [List.mem_singleton.mp hb] at heq
    omega
  below e he := by
    simp only [Kernel.push, List.mem_append, List.mem_singleton] at he ⊢
    rcases he with he | rfl
    · exact (h.below e he).trans (Nat.lt_succ_self _)
    · exact Nat.lt_succ_self _
  element e he := by
    simp only [Kernel.push, List.mem_append, List.mem_singleton] at he ⊢
    rcases he with he | rfl
    · obtain ⟨c, hc, hch, htn⟩ := h.element e he
      have hne : e.simulator ≠ id := by
        intro heq
        rw [heq, hid] at hc
        cases hc
        rw [hhandle] at hch
        cases hch
      exact ⟨c, by rw [Function.update_of_ne hne, hc], hch, htn⟩
    · exact ⟨_, Function.update_self .., rfl, rfl⟩
  finite e he := by
    simp only [Kernel.push, List.mem_append, List.mem_singleton] at he
    rcases he with he | rfl
    · exact h.finite e he
    · exact hfinite
  ahead e he := by
    simp only [Kernel.push, List.mem_append, List.mem_singleton] at he ⊢
    rcases he with he | rfl
    · exact h.ahead e he
    · exact hahead
  handle i c n hc hn := by
    by_cases heq : i = id
    · subst heq
      simp only [Kernel.push, Function.update_self, Option.some.injEq] at hc
      subst hc
      cases hn
      exact ⟨_, List.mem_append_right _ List.mem_cons_self, rfl, rfl⟩
    · simp only [Kernel.push, Function.update_of_ne heq] at hc
      obtain ⟨e, he, hen, hei⟩ := h.handle i c n hc hn
      exact ⟨e, List.mem_append_left _ he, hen, hei⟩

theorem Scheduled.add (h : Scheduled t k) : Scheduled t k.add where
  fresh i hi := by
    have hlt : k.nextSim < i := Nat.lt_of_succ_le hi
    simp only [Kernel.add, Function.update_of_ne hlt.ne']
    exact h.fresh i hlt.le
  listed i c hc := by
    by_cases heq : i = k.nextSim
    · exact List.mem_append_right _ (List.mem_singleton.mpr heq)
    · simp only [Kernel.add, Function.update_of_ne heq] at hc
      exact List.mem_append_left _ (h.listed i c hc)
  handles := h.handles
  below := h.below
  element e he := by
    obtain ⟨c, hc, hch, htn⟩ := h.element e he
    have hne : e.simulator ≠ k.nextSim := (h.lt_nextSim hc).ne
    exact ⟨c, by simp only [Kernel.add, Function.update_of_ne hne, hc], hch, htn⟩
  finite := h.finite
  ahead := h.ahead
  handle i c n hc hn := by
    by_cases heq : i = k.nextSim
    · subst heq
      simp only [Kernel.add, Function.update_self, Option.some.injEq] at hc
      subst hc
      cases hn
    · simp only [Kernel.add, Function.update_of_ne heq] at hc
      exact h.handle i c n hc hn

/-- A simulator created since may change, as long as it is idle. -/
theorem Extends.put (h : Extends k₀ k) (hid : k₀.nextSim ≤ id) (hidle : core'.Idle) :
    Extends k₀ (k.put id core') where
  nextSim := h.nextSim
  old i hi := by
    have hne : i ≠ id := (hi.trans_le hid).ne
    simp only [Kernel.put, Function.update_of_ne hne]
    exact h.old i hi
  new i c hi hc := by
    by_cases heq : i = id
    · subst heq
      simp only [Kernel.put, Function.update_self, Option.some.injEq] at hc
      exact hc ▸ hidle
    · simp only [Kernel.put, Function.update_of_ne heq] at hc
      exact h.new i c hi hc
  currentBag := h.currentBag
  tableTime := h.tableTime
  currentTime := h.currentTime
  parallelize := h.parallelize
  calls := h.calls

/-- A simulator created since may get an element in the heap. -/
theorem Extends.push (h : Extends k₀ k) (hid : k₀.nextSim ≤ id) (hinternal : core.haveInternal = false)
    (hevents : core.externalEvents = []) (hresult : core.result = []) (time : Time) :
    Extends k₀ (k.push id core time) where
  nextSim := h.nextSim
  old i hi := by
    have hne : i ≠ id := (hi.trans_le hid).ne
    simp only [Kernel.push, Function.update_of_ne hne]
    exact h.old i hi
  new i c hi hc := by
    by_cases heq : i = id
    · subst heq
      simp only [Kernel.push, Function.update_self, Option.some.injEq] at hc
      subst hc
      exact ⟨hinternal, hevents, hresult, fun hnone => absurd hnone (Option.some_ne_none _)⟩
    · simp only [Kernel.push, Function.update_of_ne heq] at hc
      exact h.new i c hi hc
  currentBag := h.currentBag
  tableTime := h.tableTime
  currentTime := h.currentTime
  parallelize := h.parallelize
  calls := h.calls

theorem Extends.add (h : Extends k₀ k) : Extends k₀ k.add where
  nextSim := h.nextSim.trans (Nat.le_succ _)
  old i hi := by
    have hne : i ≠ k.nextSim := (hi.trans_le h.nextSim).ne
    simp only [Kernel.add, Function.update_of_ne hne]
    exact h.old i hi
  new i c hi hc := by
    by_cases heq : i = k.nextSim
    · subst heq
      simp only [Kernel.add, Function.update_self, Option.some.injEq] at hc
      subst hc
      exact ⟨rfl, rfl, rfl, fun _ => rfl⟩
    · simp only [Kernel.add, Function.update_of_ne heq] at hc
      exact h.new i c hi hc
  currentBag := h.currentBag
  tableTime := h.tableTime
  currentTime := h.currentTime
  parallelize := h.parallelize
  calls := h.calls

end Changes

/-! ## Programs -/

section Programs

variable {α : Type} {env : Environment σ V} {perform : SimId → Command V → CoordM σ V (Option NodeId)}
  {k₀ : Kernel σ V}

/-- Adding an element for a simulator that has none. -/
theorem wp_addInternal {c : Coordinator σ V} {id : SimId} {time : Time} {core : Core V}
    {E : Error → Coordinator σ V → Prop} {Q : Unit → Coordinator σ V → Prop}
    (hid : (kernel c).cores id = some core) (hhandle : core.handle = none)
    (h : ∀ c', kernel c' = (kernel c).push id core time → Q () c') :
    wp (Scheduler.addInternal id time) Q E c := by
  obtain ⟨sim, hsim, rfl⟩ := Option.map_eq_some_iff.mp hid
  have hnone : sim.handle = none := hhandle
  unfold Scheduler.addInternal
  rw [wp_bind, wp_simulator_of hsim]
  simp only [hnone]
  rw [wp_bind, wp_get, wp_bind, wp_modifyTable, wp_bind]
  refine (@wp_modifySimulator_of _ _ _ _ _ _ sim _ ?_).mpr ?_
  · exact hsim
  · refine wp_snapshot fun c' hc' => h c' ?_
    rw [hc', kernel_update]
    rfl

variable (perform) in
/-- Any command leaves a kernel that extends the one that there was. -/
def Grows : Prop := ∀ (t : Time) (k₀ : Kernel σ V), t ≤ k₀.currentTime →
  ∀ id command, Keeps (fun c => Grown t k₀ (kernel c)) (perform id command)

/-- So does a user's function that commands. -/
theorem Grows.runScript (h : Grows perform) (hclock : t ≤ k₀.currentTime)
    (id : SimId) (s : Script σ V α) :
    Keeps (fun c => Grown t k₀ (kernel c)) (runScript perform id s) := by
  induction s with
  | done s a => exact keeps_bind ((still_setState id s).keeps _) fun _ => keeps_pure a
  | throw s e => exact keeps_bind ((still_setState id s).keeps _) fun _ => keeps_throw e
  | call command next ih =>
    exact keeps_bind (keeps_attempt _ (h t k₀ hclock id command)) fun r =>
      keeps_bind keeps_get fun c => ih r c.graph

/-- A kernel with a simulator that was created since, and is not in the heap. -/
structure Created (t : Time) (k₀ : Kernel σ V) (id : SimId) (k : Kernel σ V) : Prop extends Grown t k₀ k where
  number : k₀.nextSim ≤ id
  core : ∃ core, k.cores id = some core ∧ core.handle = none

/-- A date after the current one. -/
theorem le_add_date {time tn : Time} (h : ¬ tn < 0) : time ≤ tn + time :=
  le_add_of_nonneg_left (not_lt.mp h)

/-- The initialization of a simulator that was created. -/
theorem Grows.processInit (h : Grows perform) (hclock : t ≤ k₀.currentTime)
    {id : SimId} {c : Coordinator σ V} (hc : Created t k₀ id (kernel c)) :
    wp (Coordinator.processInit env perform id) (fun _ c' => Grown t k₀ (kernel c'))
      (fun _ c' => Grown t k₀ (kernel c')) c := by
  have hself : t ≤ (kernel c).currentTime := hclock.trans hc.currentTime.ge
  have hback : ∀ c' : Coordinator σ V, Grown t (kernel c) (kernel c') → Grown t k₀ (kernel c') :=
    fun c' h' => ⟨h'.toScheduled, hc.toExtends.trans h'.toExtends⟩
  obtain ⟨core, hcore, hhandle⟩ := hc.core
  have hlt := hc.lt_nextSim hcore
  unfold Coordinator.processInit Simulator.init
  rw [wp_bind, wp_get, wp_bind, wp_bind]
  refine wp_dynamicsOf (fun _ => hc.toGrown) fun sim d _ _ => ?_
  rw [wp_bind]
  refine wp_mono (h.runScript hself id _ c hc.toScheduled.grown_self) (fun tn c₁ h₁ => ?_)
    fun _ c₁ h₁ => hback c₁ h₁
  rw [wp_bind]
  refine (still_dynamicsOf id).wp (fun d₁ c₂ h₂ => ?_) fun _ c₂ h₂ => hback c₂ (h₂ ▸ h₁)
  rw [wp_bind]
  refine (still_note rfl).wp (fun _ c₃ h₃ => ?_) fun _ c₃ h₃ => hback c₃ (h₃ ▸ h₂ ▸ h₁)
  have hgrown : Grown t (kernel c) (kernel c₃) := h₃ ▸ h₂ ▸ h₁
  have hcore₃ : (kernel c₃).cores id = some core := (hgrown.old id hlt).trans hcore
  obtain ⟨sim₃, hsim₃, rfl⟩ := Option.map_eq_some_iff.mp hcore₃
  have hgrown₀ := hback c₃ hgrown
  have hidle : sim₃.core.Idle := hgrown₀.new id _ hc.number hcore₃
  split_ifs with hneg
  · rw [wp_bind]
    exact (still_getName id).wp (fun _ c₄ h₄ => hback c₄ (h₄ ▸ hgrown)) fun _ c₄ h₄ =>
      hback c₄ (h₄ ▸ hgrown)
  · rw [wp_bind, wp_modifySimulator_of hsim₃, wp_pure]
    let newCore : Core V := { sim₃.core with tn := tn + c.currentTime }
    have hput : ∀ s : Simulator σ V, s.core = newCore →
        kernel { c₃ with sims := Function.update c₃.sims id (some s) } = (kernel c₃).put id newCore := by
      intro s hs
      rw [kernel_update, hs]
    split_ifs with hinf
    · refine @wp_addInternal _ _ _ id _ newCore _ _ ?_ hhandle ?_
      · rw [hput _ rfl]
        exact Function.update_self ..
      · intro c₄ h₄
        rw [hput _ rfl] at h₄
        have hsched : Scheduled t ((kernel c₃).put id newCore) :=
          hgrown₀.toScheduled.put hcore₃ rfl (.inl hhandle)
        have hext : Extends k₀ ((kernel c₃).push id newCore (tn + c.currentTime)) :=
          @Extends.push _ _ _ _ id newCore hgrown₀.toExtends hc.number hidle.haveInternal
            hidle.externalEvents hidle.result _
        have hpush := hsched.push (Function.update_self ..) hhandle (by simpa using hinf)
          (hself.trans (le_add_date hneg))
        rw [Kernel.push_put] at h₄ hpush
        rw [h₄]
        exact ⟨hpush, hext⟩
    · rw [wp_pure, hput _ rfl]
      refine ⟨hgrown₀.toScheduled.put hcore₃ rfl (.inl hhandle), hgrown₀.toExtends.put hc.number ?_⟩
      exact ⟨hidle.haveInternal, hidle.externalEvents, hidle.result, fun _ => by simpa using hinf⟩

/-- The number of a simulator that is created is new. -/
theorem wp_addModel {c : Coordinator σ V} (model : NodeId) (hc : Grown t k₀ (kernel c))
    {E : Error → Coordinator σ V → Prop} (hE : ∀ e c', Grown t k₀ (kernel c') → E e c')
    {Q : SimId → Coordinator σ V → Prop} (hQ : ∀ id c', Created t k₀ id (kernel c') → Q id c') :
    wp (Coordinator.addModel model) Q E c := by
  have hadd : Created t k₀ c.nextSim (kernel c).add := by
    refine ⟨⟨hc.toScheduled.add, hc.toExtends.add⟩, hc.nextSim, _, Function.update_self .., rfl⟩
  have hkernel : kernel { c with
      sims := Function.update c.sims c.nextSim (some { atomicModel := model })
      nextSim := c.nextSim + 1
      simulators := c.simulators ++ [c.nextSim] } = (kernel c).add := by
    have h := kernel_update c c.nextSim { atomicModel := model }
    have hcores := congrArg Kernel.cores h
    unfold Kernel.add
    simp only [kernel, Kernel.mk.injEq, and_true]
    exact hcores
  unfold Coordinator.addModel
  rw [wp_bind, wp_get, wp_bind, wp_set, wp_bind]
  refine (still_onGraph _).wp (fun _ c' h' => ?_) fun e c' h' => ?_
  · rw [wp_pure]
    exact hQ _ _ (by rw [h', hkernel]; exact hadd)
  · exact hE _ _ (by rw [h', hkernel]; exact hadd.toGrown)

/-- A simulator that was created gets its dynamics. -/
theorem wp_setDynamics {c : Coordinator σ V} {id : SimId} (hc : Created t k₀ id (kernel c))
    (d : Dynamics σ V) (observed : Observed) {E : Error → Coordinator σ V → Prop}
    {Q : PUnit → Coordinator σ V → Prop} (hQ : ∀ c', Created t k₀ id (kernel c') → Q ⟨⟩ c') :
    wp (modifySimulator id fun sim => { sim with dynamics := some d, observed }) Q E c := by
  obtain ⟨core, hcore, hhandle⟩ := hc.core
  obtain ⟨sim, hsim, rfl⟩ := Option.map_eq_some_iff.mp hcore
  have hidle := hc.new id _ hc.number hcore
  rw [wp_modifySimulator_of hsim]
  refine hQ _ ?_
  rw [kernel_update]
  refine ⟨⟨hc.toScheduled.put hcore rfl (.inl hhandle), hc.toExtends.put hc.number ?_⟩, hc.number, _,
    Function.update_self .., hhandle⟩
  exact ⟨hidle.haveInternal, hidle.externalEvents, hidle.result, hidle.handle⟩

/-- The creation of a simulator, with the initialization of its dynamics. -/
theorem Grows.createModel (h : Grows perform) (hclock : t ≤ k₀.currentTime)
    (cnds : Conditions V) (model : NodeId) (dynamics : String) (conditions : List String)
    (observable : String) : Keeps (fun c => Grown t k₀ (kernel c))
      (Coordinator.createModel env perform cnds model dynamics conditions observable) := by
  intro c hc
  have hcreated : ∀ {β : Type} {x : CoordM σ V β} {f : β → CoordM σ V Unit} (_ : Still x) (id : SimId)
      (_ : ∀ b c', Created t k₀ id (kernel c') → wp (f b) (fun _ c' => Grown t k₀ (kernel c'))
        (fun _ c' => Grown t k₀ (kernel c')) c') (c' : Coordinator σ V) (_ : Created t k₀ id (kernel c')),
      wp (x >>= f) (fun _ c' => Grown t k₀ (kernel c')) (fun _ c' => Grown t k₀ (kernel c')) c' := by
    intro β x f hx id hf c' hc'
    rw [wp_bind]
    exact hx.wp (fun b c'' h'' => hf b c'' (h'' ▸ hc')) fun _ c'' h'' => (h'' ▸ hc').toGrown
  have hrest : ∀ dyn : Dynamic σ V, wp (do
      let id ← Coordinator.addModel model
      let events ← ofExcept (ModelFactory.initValues cnds conditions)
      let c ← get
      let r ← ofExcept (env.attachDynamics dyn dynamics c model events observable)
      modifySimulator id fun sim => { sim with dynamics := some r.1, observed := r.2 }
      if observable ≠ "" then
        let lst ← ofExcept (env.getObservable observable)
        lst.forM fun elem => elem.2.forM fun viewname =>
          Coordinator.addObservableToView model elem.1 viewname
      Coordinator.processInit env perform id) (fun _ c' => Grown t k₀ (kernel c'))
        (fun _ c' => Grown t k₀ (kernel c')) c := by
    intro dyn
    rw [wp_bind]
    refine wp_addModel model hc (fun _ _ h' => h') fun id c₁ h₁ => ?_
    refine hcreated (still_ofExcept _) id (fun events c₂ h₂ => ?_) c₁ h₁
    refine hcreated fixes_get id (fun c₃ c₄ h₄ => ?_) c₂ h₂
    refine hcreated (still_ofExcept _) id (fun r c₅ h₅ => ?_) c₄ h₄
    rw [wp_bind]
    refine wp_setDynamics h₅ _ _ fun c₆ h₆ => ?_
    split_ifs
    · refine hcreated (still_ofExcept _) id (fun lst c₇ h₇ => ?_) c₆ h₆
      refine hcreated (fixes_forM (fun elem => fixes_forM (fun viewname => ?_) _) _) id
        (fun _ c₈ h₈ => h.processInit hclock h₈) c₇ h₇
      exact still_addObservableToView _ _ _
    · exact h.processInit hclock h₆
  unfold Coordinator.createModel
  cases env.dynamics dynamics with
  | none => exact hc
  | some dyn => exact hrest dyn

theorem Grows.createModelList (h : Grows perform) (hclock : t ≤ k₀.currentTime)
    (cnds : Conditions V) (lst : List NodeId) : Keeps (fun c => Grown t k₀ (kernel c))
      (Coordinator.createModelList env perform cnds lst) := by
  refine keeps_forM (fun elem => ?_) lst
  refine keeps_bind ((still_readGraph _).keeps _) fun mdl => ?_
  split
  · exact h.createModel hclock _ _ _ _ _
  · exact keeps_throw _

theorem Grows.createModelFromClass (h : Grows perform) (hclock : t ≤ k₀.currentTime)
    (classname : String) (parent : NodeId) (modelname : String) (cnds : Conditions V)
    (inputs outputs : List String) : Keeps (fun c => Grown t k₀ (kernel c))
      (Coordinator.createModelFromClass env perform classname parent modelname cnds inputs outputs) := by
  have hclass : ∀ classe : Class, Keeps (fun c => Grown t k₀ (kernel c)) (do
      let mdl ← onGraph (CoupledModel.clone classe.graph (classe.graph.nextId + 1) classe.node)
      inputs.forM fun elem => onGraph (BaseModel.addInputPort mdl elem)
      outputs.forM fun elem => onGraph (BaseModel.addOutputPort mdl elem)
      let atomicmodellist ← readGraph (·.getAtomicModelList mdl)
      onGraph (CoupledModel.addModelAs parent mdl modelname)
      Coordinator.createModelList env perform cnds atomicmodellist
      return mdl) := by
    intro classe
    refine keeps_bind ((still_onGraph _).keeps _) fun mdl => ?_
    refine keeps_bind ((fixes_forM (fun _ => still_onGraph _) _).keeps _) fun _ => ?_
    refine keeps_bind ((fixes_forM (fun _ => still_onGraph _) _).keeps _) fun _ => ?_
    refine keeps_bind ((still_readGraph _).keeps _) fun lst => ?_
    refine keeps_bind ((still_onGraph _).keeps _) fun _ => ?_
    exact keeps_bind (h.createModelList hclock cnds lst) fun _ => keeps_pure mdl
  unfold Coordinator.createModelFromClass
  cases env.classes classname with
  | none => exact keeps_throw _
  | some classe => exact hclass classe

/-- Every command of an executive leaves a kernel that extends the one that there was. -/
theorem grows_perform (env : Environment σ V) (fuel : ℕ) : Grows (Executive.perform env fuel) := by
  induction fuel with
  | zero => exact fun _ _ _ _ _ => keeps_throw _
  | succ fuel ih =>
    intro t k₀ hclock id command
    cases command with
    | look => exact keeps_pure none
    | createModel name inputs outputs dynamics conds observable debug conditions =>
      refine keeps_bind ?_ fun _ => keeps_pure _
      refine keeps_bind ((still_cpled id).keeps _) fun c => ?_
      refine keeps_bind ((still_onGraph _).keeps _) fun model => ?_
      refine keeps_bind ((fixes_forM (fun _ => still_onGraph _) _).keeps _) fun _ => ?_
      refine keeps_bind ((fixes_forM (fun _ => still_onGraph _) _).keeps _) fun _ => ?_
      exact keeps_bind (ih.createModel hclock _ _ _ _ _) fun _ => keeps_pure model
    | createModelFromClass classname modelname inputs outputs conditions =>
      refine keeps_bind ?_ fun _ => keeps_pure _
      exact keeps_bind ((still_cpled id).keeps _) fun c => ih.createModelFromClass hclock _ _ _ _ _ _
    | delModel modelname =>
      exact keeps_bind ((still_delModel id modelname).keeps _) fun _ => keeps_pure _
    | renameModel oldname newname =>
      exact keeps_bind ((still_renameModel id oldname newname).keeps _) fun _ => keeps_pure _
    | addConnection srcModelName srcPortName dstModelName dstPortName =>
      exact keeps_bind ((still_addConnection id _ _ _ _).keeps _) fun _ => keeps_pure _
    | removeConnection srcModelName srcPortName dstModelName dstPortName =>
      exact keeps_bind ((still_removeConnection id _ _ _ _).keeps _) fun _ => keeps_pure _
    | addInputPort modelName portName =>
      exact keeps_bind ((still_addInputPort id _ _).keeps _) fun _ => keeps_pure _
    | addOutputPort modelName portName =>
      exact keeps_bind ((still_addOutputPort id _ _).keeps _) fun _ => keeps_pure _
    | removeInputPort modelName portName =>
      exact keeps_bind ((still_removeInputPort id _ _).keeps _) fun _ => keeps_pure _
    | removeOutputPort modelName portName =>
      exact keeps_bind ((still_removeOutputPort id _ _).keeps _) fun _ => keeps_pure _
    | addObservableToView model portname view =>
      exact keeps_bind ((still_command_addObservableToView id _ _ _).keeps _) fun _ => keeps_pure _

end Programs

end Vle.Devs
