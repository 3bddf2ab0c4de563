import Vle.Devs.Runs

/-!
# Runs without executives

A model that is no executive commands nothing. In a run of such models the graph stays as it was loaded,
each entry of a routing cache is what the graph gives, and the ledger says how the models of a state come
from those of another one (`Settled`): so events go where the graph says (`reached_routes`).
-/

namespace Vle.Devs

open Vle.Lib Vle.Lib.EState Vle.Vpz

variable {σ V : Type}

/-! ## What the functions compute -/

/-- The dynamics of each simulator, with its next date. -/
abbrev Models (σ V : Type) := SimId → Option (Dynamics σ V × Time)

/-- The dynamics of the simulators and their next dates. -/
def attached (c : Coordinator σ V) : Models σ V := fun id =>
  (c.sims id).bind fun sim => sim.dynamics.map fun d => (d, sim.tn)

/-- What an event of the ledger says of the models before and after it: an output is that of the output
function, and a transition leaves the state that the transition function gives, with the next date that the
time advance function gives for it. -/
def Event.Moves (D D' : Models σ V) : Event σ V → Prop
  | .output id time events => D' = D ∧ ∃ d tn, D id = some (d, tn) ∧ d.output time d.state = .ok events
  | .transition kind id time events s => ∃ d tn ta, D id = some (d, tn) ∧
      d.transition kind time events = .done s () ∧ d.timeAdvance s = .ok ta ∧
      D' = Function.update D id (some ({ d with state := s }, ta + time))
  | _ => D' = D

/-- The events lead from these models to those. -/
def Follows : Models σ V → List (Event σ V) → Models σ V → Prop
  | D, [], D' => D' = D
  | D, event :: l, D' => ∃ D₁, event.Moves D D₁ ∧ Follows D₁ l D'

theorem follows_append {D D' : Models σ V} (l₁ l₂ : List (Event σ V)) :
    Follows D (l₁ ++ l₂) D' ↔ ∃ D₁, Follows D l₁ D₁ ∧ Follows D₁ l₂ D' := by
  induction l₁ generalizing D with
  | nil => simp [Follows]
  | cons event l ih =>
    simp only [List.cons_append, Follows, ih]
    constructor
    · rintro ⟨D₁, hmoves, D₂, h₁, h₂⟩
      exact ⟨D₂, ⟨D₁, hmoves, h₁⟩, h₂⟩
    · rintro ⟨D₂, ⟨D₁, hmoves, h₁⟩, h₂⟩
      exact ⟨D₁, hmoves, D₂, h₁, h₂⟩

theorem Follows.concat {D D₁ D' : Models σ V} {l : List (Event σ V)} {event : Event σ V}
    (h : Follows D l D₁) (hmoves : event.Moves D₁ D') : Follows D (l ++ [event]) D' :=
  (follows_append l [event]).mpr ⟨D₁, h, D', hmoves, rfl⟩

theorem attached_of {c : Coordinator σ V} {id : SimId} {sim : Simulator σ V} {d : Dynamics σ V}
    (hsim : c.sims id = some sim) (hd : sim.dynamics = some d) : attached c id = some (d, sim.tn) := by
  simp [attached, hsim, hd]

theorem attached_of_layout {c c' : Coordinator σ V} (h : layout c' = layout c) :
    attached c' = attached c := by
  funext id
  have hid := congrArg (Option.bind · fun p => p.2.2.1.map fun d => (d, p.2.2.2))
    (congrFun (congrArg Layout.models h) id)
  simp only [layout, Option.bind_map] at hid
  exact hid

theorem attached_update (c : Coordinator σ V) (id : SimId) (sim : Simulator σ V) :
    attached { c with sims := Function.update c.sims id (some sim) } =
      Function.update (attached c) id (sim.dynamics.map fun d => (d, sim.tn)) := by
  funext i
  by_cases h : i = id
  · subst h
    simp [attached]
  · simp [attached, Function.update_of_ne h]

theorem plain_transition {d : Dynamics σ V} (hd : d.isExecutive = false) (kind : Transition) (time : Time)
    (events : List (ExternalEvent V)) : (d.transition kind time events).Plain := by
  obtain ⟨-, hinternal, hothers⟩ := d.plain hd time d.state
  cases kind with
  | internal => exact hinternal
  | external => exact (hothers events).1
  | confluent => exact (hothers events).2

/-- A script without command that ends well sets the state. -/
theorem wlp_runScript_plain {α : Type} (perform : SimId → Command V → CoordM σ V (Option NodeId)) {id : SimId}
    {script : Script σ V α} (hplain : script.Plain) {c : Coordinator σ V} {sim : Simulator σ V}
    (hsim : c.sims id = some sim) :
    wlp (runScript perform id script) (fun a c' => ∃ s, script = .done s a ∧
      c' = { c with sims := Function.update c.sims id (some (sim.setState s)) }) c := by
  cases script with
  | done s a =>
    unfold runScript wlp
    rw [wp_bind, wp_modifySimulator_of hsim]
    exact ⟨s, rfl, rfl⟩
  | throw s e =>
    unfold runScript wlp
    rw [wp_bind, wp_modifySimulator_of hsim]
    exact trivial
  | call command next => exact hplain.elim

/-! ## The caches -/

/-- A state of a run without executives, some calls after another one: the graph and the routes are the same,
the caches are coherent, and the models are what the functions called in between have computed. -/
structure Settled (c₀ c : Coordinator σ V) : Prop where
  graph : c.graph = c₀.graph
  coherent : (wiring c).Coherent
  route : (wiring c).route = (wiring c₀).route
  plain : ∀ id d tn, attached c id = some (d, tn) → d.isExecutive = false
  kept : c.deleteModel = []
  sequential : c.parallelize = false
  follows : ∃ l, ledger c = ledger c₀ ++ l ∧ Follows (attached c₀) l (attached c)

section Settled

variable {α β : Type} {c₀ c c' : Coordinator σ V}

/-- No call is between a state and itself. -/
theorem Settled.self (h : Settled c₀ c) : Settled c c :=
  ⟨rfl, h.coherent, rfl, h.plain, h.kept, h.sequential, [], by simp, rfl⟩

/-- Whether a state is so depends on the layout. -/
theorem Settled.of_layout (h : Settled c₀ c) (heq : layout c' = layout c) : Settled c₀ c' := by
  have hattached := attached_of_layout heq
  have hledger : ledger c' = ledger c := congrArg Layout.ledger heq
  have hwiring := wiring_of_layout heq
  refine ⟨(congrArg Layout.graph heq).trans h.graph, hwiring ▸ h.coherent, hwiring ▸ h.route, ?_,
    (congrArg Layout.deleteModel heq).trans h.kept, (congrArg Layout.parallelize heq).trans h.sequential, ?_⟩
  · rw [hattached]
    exact h.plain
  · rw [hattached, hledger]
    exact h.follows

/-- So what leaves the layout leaves it so. -/
theorem wlp_settled {x : CoordM σ V α} (hx : Laid x) (h : Settled c₀ c) :
    wlp x (fun _ c' => Settled c₀ c') c :=
  wlp_mono (hx.wlp c) fun _ _ heq => h.of_layout heq

/-- What `Settled` is about, but for the graph and the caches. -/
def uncached (c : Coordinator σ V) : Models σ V × List NodeId × Bool × List (Event σ V) :=
  (attached c, c.deleteModel, c.parallelize, ledger c)

theorem uncached_modifySimulator (id : SimId) {f : Simulator σ V → Simulator σ V}
    (hdynamics : ∀ sim, (f sim).dynamics = sim.dynamics) (htn : ∀ sim, (f sim).tn = sim.tn) :
    Fixes uncached (modifySimulator id f) := by
  intro w c hc
  refine wp_modifySimulator hc fun sim hsim => hc ▸ ?_
  have hid : attached c id = sim.dynamics.map fun d => (d, sim.tn) := by simp [attached, hsim]
  have hattached : attached { c with sims := Function.update c.sims id (some (f sim)) } = attached c := by
    rw [attached_update, hdynamics, htn, ← hid, Function.update_eq_self]
  simp only [uncached, hattached, ledger]

/-- A call of `targets` changes caches only. -/
theorem uncached_targets (id : SimId) (port : String) :
    Fixes uncached (Simulator.targets id port : CoordM σ V (List TargetSimulator)) := by
  refine fixes_bind (fixes_inspect _) fun sim => ?_
  split_ifs
  · refine fixes_bind (fixes_bind ?_ fun _ => ?_) fun _ => fixes_readTargets _ id port
    · exact uncached_modifySimulator id (fun _ => rfl) fun _ => rfl
    · refine fixes_bind (fixes_inspect _) fun _ => fixes_bind (fixes_inspect _) fun _ => ?_
      exact uncached_modifySimulator id (fun _ => rfl) fun _ => rfl
  · exact fixes_readTargets _ id port

/-- So do the targets of a port, which may fill a cache. -/
theorem wlp_settled_targets (id : SimId) (port : String) (h : Settled c₀ c) :
    wlp (Simulator.targets id port) (fun _ c' => Settled c₀ c') c := by
  refine wlp_mono (wlp_and (wlp_targets id port) ((uncached_targets id port).wlp c)) ?_
  rintro x c' ⟨⟨-, hfilled⟩, heq⟩
  obtain ⟨hattached, hdelete, hparallelize, hledger⟩ := by simpa only [uncached, Prod.mk.injEq] using heq
  refine ⟨hfilled.same.graph.trans h.graph, hfilled.same.coherent h.coherent,
    hfilled.same.route.trans h.route, ?_, hdelete.trans h.kept, hparallelize.trans h.sequential, ?_⟩
  · rw [hattached]
    exact h.plain
  · rw [hattached, hledger]
    exact h.follows

/-- A sequence of such programs. -/
theorem wlp_settled_bind {x : CoordM σ V α} {f : α → CoordM σ V β}
    (hx : wlp x (fun _ c' => Settled c₀ c') c)
    (hf : ∀ a c', Settled c₀ c' → wlp (f a) (fun _ c'' => Settled c₀ c'') c') :
    wlp (x >>= f) (fun _ c' => Settled c₀ c') c := by
  unfold wlp
  rw [wp_bind]
  exact wlp_mono hx hf

/-- A loop of such programs. -/
theorem wlp_settled_forM {f : α → CoordM σ V PUnit}
    (hf : ∀ a c', Settled c₀ c' → wlp (f a) (fun _ c'' => Settled c₀ c'') c') (l : List α)
    (h : Settled c₀ c) : wlp (l.forM f) (fun _ c' => Settled c₀ c') c := by
  induction l generalizing c with
  | nil => exact h
  | cons a l ih => exact wlp_settled_bind (hf a c h) fun _ c' h' => ih h'

theorem wlp_settled_dispatch (ids : List SimId) (h : Settled c₀ c) :
    wlp (Coordinator.dispatchExternalEvent ids) (fun _ c' => Settled c₀ c') c := by
  refine wlp_settled_forM (fun id c₁ h₁ => ?_) ids h
  refine wlp_settled_bind (wlp_settled (laid_simulator id) h₁) fun sim c₂ h₂ => ?_
  refine wlp_settled_bind (wlp_settled_forM (fun elem c₃ h₃ => ?_) _ h₂) fun _ c₃ h₃ => ?_
  · refine wlp_settled_bind (wlp_settled_targets id elem.portName h₃) fun x c₄ h₄ => ?_
    refine wlp_settled (fixes_forM (fun target => ?_) x) h₄
    cases target.1 with
    | some dst => exact laid_addExternal dst _ _
    | none => exact fixes_throw _
  · exact wlp_settled (laid_modifySimulator id fun _ => rfl) h₃

/-- An output is that of the output function. -/
theorem wlp_settled_output (id : SimId) (time : Time) (h : Settled c₀ c) :
    wlp (Simulator.output id time) (fun _ c' => Settled c₀ c') c := by
  unfold Simulator.output wlp
  rw [wp_bind]
  refine wp_dynamicsOf (fun _ => trivial) fun sim d hsim hd => ?_
  rw [wp_bind]
  refine wp_ofExcept (fun _ _ => trivial) fun r hr => ?_
  have hresult : Laid (modifySimulator id fun sim => { sim with result := sim.result ++ r } :
      CoordM σ V Unit) := laid_modifySimulator id fun _ => rfl
  rw [wp_bind]
  refine wlp_mono (hresult.wlp c) fun _ c₁ h₁ => ?_
  have hid : attached c₁ id = some (d, sim.tn) := by rw [attached_of_layout h₁, attached_of hsim hd]
  have hsettled := h.of_layout h₁
  rw [wp_bind]
  have hnoted : Settled c₀ { c₁ with log := c₁.log ++ [.output id time r] } := by
    obtain ⟨l, hl, hfollows⟩ := hsettled.follows
    have hmoves : Event.Moves (attached c₁) (attached c₁) (.output id time r) :=
      ⟨rfl, d, sim.tn, hid, hr⟩
    have hnext := hfollows.concat hmoves
    refine ⟨hsettled.graph, hsettled.coherent, hsettled.route, hsettled.plain, hsettled.kept,
      hsettled.sequential, l ++ [.output id time r], ?_, hnext⟩
    rw [ledger_note, hl, List.append_assoc]
    rfl
  exact wlp_settled_bind (wlp_settled (laid_simulator id) hnoted) fun _ c₂ h₂ =>
    wlp_settled (laid_observe id time _) h₂

/-- The state after a transition is settled. -/
theorem Settled.transition (h : Settled c₀ c) {kind : Transition} {id : SimId} {time tn ta : Time}
    {events : List (ExternalEvent V)} {s : σ} {d : Dynamics σ V} {sim sim' : Simulator σ V}
    (hlayout : layout c' = layout { c with
      sims := Function.update c.sims id (some (sim.setState s))
      log := c.log ++ [.transition kind id time events s] })
    (hsim : c.sims id = some sim) (hsim' : c'.sims id = some sim') (hid : attached c id = some (d, tn))
    (hdynamics : sim'.dynamics = some { d with state := s }) (hexec : d.isExecutive = false)
    (hscript : d.transition kind time events = .done s ()) (hta : d.timeAdvance s = .ok ta)
    (hattached : attached c' = Function.update (attached c) id (some ({ d with state := s }, tn))) :
    Settled c₀ { c' with
      sims := Function.update c'.sims id (some { sim' with tn := ta + time }) } := by
  -- Neither the state of a model nor its next date is in the wiring.
  have hwiring : wiring c' = wiring c := by
    rw [wiring_of_layout hlayout]
    refine (wiring_update c id (sim.setState s)).trans ?_
    exact Wiring.put_self (by simp [hsim, Simulator.setState, Simulator.cache])
  have hwiring' : wiring { c' with
      sims := Function.update c'.sims id (some { sim' with tn := ta + time }) } = wiring c := by
    rw [wiring_update, ← hwiring]
    exact Wiring.put_self (by simp [hsim', Simulator.cache])
  have hmodels : attached { c' with
      sims := Function.update c'.sims id (some { sim' with tn := ta + time }) } =
        Function.update (attached c) id (some ({ d with state := s }, ta + time)) := by
    rw [attached_update, hdynamics, hattached, Function.update_idem]
    rfl
  -- One more event in the ledger is one more update of the models.
  have hmoves : Event.Moves (attached c) (Function.update (attached c) id
      (some ({ d with state := s }, ta + time))) (.transition kind id time events s) :=
    ⟨d, tn, ta, hid, hscript, hta, rfl⟩
  obtain ⟨l, hl, hfollows⟩ := h.follows
  have hnext := hfollows.concat hmoves
  rw [← hmodels] at hnext
  refine ⟨(congrArg Layout.graph hlayout).trans h.graph, hwiring'.symm ▸ h.coherent,
    hwiring'.symm ▸ h.route, fun i d₁ tn₁ hi => ?_,
    (congrArg Layout.deleteModel hlayout).trans h.kept,
    (congrArg Layout.parallelize hlayout).trans h.sequential,
    l ++ [.transition kind id time events s], ?_, hnext⟩
  · rw [hmodels] at hi
    by_cases heq : i = id
    · subst heq
      rw [Function.update_self, Option.some.injEq, Prod.mk.injEq] at hi
      exact hi.1 ▸ hexec
    · rw [Function.update_of_ne heq] at hi
      exact h.plain i d₁ tn₁ hi
  · have hledger : ledger c' = ledger c ++ [.transition kind id time events s] :=
      (congrArg Layout.ledger hlayout).trans (ledger_note _ _)
    refine hledger.trans ?_
    rw [hl, List.append_assoc]

/-- The time advance that is returned is that of the dynamics. -/
theorem wlp_timeAdvance_of (env : Environment σ V) {id : SimId} {d : Dynamics σ V} {tn : Time}
    (hid : attached c id = some (d, tn)) :
    wlp (Simulator.timeAdvance env id) (fun ta c' => layout c' = layout c ∧
      d.timeAdvance d.state = .ok ta) c := by
  unfold Simulator.timeAdvance wlp
  rw [wp_bind]
  refine wp_dynamicsOf (fun _ => trivial) fun sim d' hsim hd => ?_
  rw [attached_of hsim hd] at hid
  cases hid
  rw [wp_bind]
  refine wp_ofExcept (fun _ _ => trivial) fun ta hta => ?_
  split_ifs
  · rw [wp_bind]
    exact (laid_getName id).wp (fun _ _ _ => trivial) fun _ _ _ => trivial
  · exact ⟨rfl, hta⟩

/-- A transition leaves the state that the transition function gives, and its next date. -/
theorem wlp_settled_process (env : Environment σ V) (fuel : ℕ) (id : SimId) (time : Time)
    (h : Settled c₀ c) : wlp (Coordinator.process env fuel id time) (fun _ c' => Settled c₀ c') c := by
  rw [process_eq]
  refine wlp_settled_bind (wlp_settled (laid_simulator id) h) fun sim c h => ?_
  dsimp only
  generalize kindOf sim.haveInternal sim.externalEvents = kind
  refine wlp_settled_bind (wlp_settled (laid_simulator id) h) fun sim c h => ?_
  generalize sim.events kind = events
  unfold wlp
  rw [wp_bind]
  refine wp_dynamicsOf (fun _ => trivial) fun sim d hsim hd => ?_
  have hexec := h.plain id d sim.tn (attached_of hsim hd)
  -- The script has no command: it throws, or sets the state.
  rw [wp_bind]
  refine wlp_mono (wlp_runScript_plain _ (plain_transition hexec kind time events) hsim) ?_
  rintro ⟨⟩ c₁ ⟨s, hscript, rfl⟩
  have hset : (sim.setState s).dynamics = some { d with state := s } := by
    simp [Simulator.setState, hd]
  rw [wp_bind]
  refine wp_dynamicsOf (fun _ => trivial) fun sim' d' hsim' hd' => ?_
  have hs : d'.state = s := by
    simp only [Function.update_self, Option.some.injEq] at hsim'
    subst hsim'
    rw [hset, Option.some.injEq] at hd'
    rw [← hd']
  rw [hs, wp_bind]
  refine (wp_modify _).mpr ?_
  -- What follows leaves the layout, but for the date at its end.
  rw [wp_bind]
  refine (laid_simulator id).wp (fun _ c₂ h₂ => ?_) fun _ _ _ => trivial
  rw [wp_bind]
  refine (laid_observe id time _).wp (fun _ c₃ h₃ => ?_) fun _ _ _ => trivial
  have hclear : ∀ s : Simulator σ V, (s.clear kind).place = s.place := by
    intro s
    cases kind <;> rfl
  rw [wp_bind]
  refine (laid_modifySimulator id hclear).wp (fun _ c₄ h₄ => ?_) fun _ _ _ => trivial
  have hlayout := h₄.trans (h₃.trans h₂)
  have hattached : attached c₄ = Function.update (attached c) id (some ({ d with state := s }, sim.tn)) := by
    rw [attached_of_layout hlayout]
    refine (attached_update c id (sim.setState s)).trans ?_
    rw [hset]
    rfl
  have hid : attached c₄ id = some ({ d with state := s }, sim.tn) := by rw [hattached, Function.update_self]
  rw [wp_bind]
  refine wlp_mono (wlp_timeAdvance_of env hid) ?_
  rintro ta c₅ ⟨h₅, hta⟩
  refine wp_modifySimulator trivial fun sim₅ hsim₅ => ?_
  have hdynamics : sim₅.dynamics = some { d with state := s } := by
    rw [← attached_of_layout h₅] at hid
    obtain ⟨sim₆, hsim₆, hmap⟩ := Option.bind_eq_some_iff.mp hid
    rw [hsim₅, Option.some.injEq] at hsim₆
    subst hsim₆
    obtain ⟨d₆, hd₆, hpair⟩ := Option.map_eq_some_iff.mp hmap
    rw [hd₆, (Prod.mk.inj hpair).1]
  exact h.transition (h₅.trans hlayout) hsim hsim₅ (attached_of hsim hd) hdynamics hexec hscript hta
    (by rw [attached_of_layout h₅, hattached])

/-- The calls of a step leave the graph and keep the caches coherent. -/
theorem wlp_settled_calls (env : Environment σ V) (fuel : ℕ) (h : Settled c₀ c) :
    wlp (Coordinator.calls env fuel) (fun _ c' => Settled c₀ c') c := by
  have hprocess : ∀ (ids : List SimId) (time : Time) (c' : Coordinator σ V), Settled c₀ c' →
      wlp (ids.forM fun id => Coordinator.process env fuel id time) (fun _ c'' => Settled c₀ c'') c' :=
    fun ids time c' h' => wlp_settled_forM (fun id _ => wlp_settled_process env fuel id time) ids h'
  have hschedule : ∀ ids : List SimId, Laid (ids.forM Coordinator.schedule : CoordM σ V PUnit) :=
    fun ids => fixes_forM laid_schedule ids
  have houtput : ∀ (ids : List SimId) (time : Time) (c' : Coordinator σ V), Settled c₀ c' →
      wlp (ids.forM fun id => Simulator.output id time) (fun _ c'' => Settled c₀ c'') c' :=
    fun ids time c' h' => wlp_settled_forM (fun id _ => wlp_settled_output id time) ids h'
  have hflush : ∀ (ids : List SimId) (time : Time), Laid (ids.forM fun id => flushObservations id time :
      CoordM σ V PUnit) := fun ids time => fixes_forM (fun id => laid_flushObservations id time) ids
  -- What follows the transitions of the dynamics.
  have htail : ∀ (dynamics sorted : List SimId) (time : Time) (c' : Coordinator σ V), Settled c₀ c' →
      wlp (do
        dynamics.forM Coordinator.schedule
        sorted.forM fun id => Coordinator.process env fuel id time
        sorted.forM Coordinator.schedule
        dynamics.forM fun id => flushObservations id time
        sorted.forM fun id => flushObservations id time) (fun _ c'' => Settled c₀ c'') c' := by
    intro dynamics sorted time c' h'
    refine wlp_settled_bind (wlp_settled (hschedule dynamics) h') fun _ c₁ h₁ => ?_
    refine wlp_settled_bind (hprocess sorted time c₁ h₁) fun _ c₂ h₂ => ?_
    refine wlp_settled_bind (wlp_settled (hschedule sorted) h₂) fun _ c₃ h₃ => ?_
    refine wlp_settled_bind (wlp_settled (hflush dynamics time) h₃) fun _ c₄ h₄ => ?_
    exact wlp_settled (hflush sorted time) h₄
  have hclock : ∀ {p : Prop} [Decidable p] {x : PUnit → CoordM σ V Unit} (c₁ : Coordinator σ V),
      Settled c₀ c₁ → (∀ c', Settled c₀ c' → wlp (x ⟨⟩) (fun _ c'' => Settled c₀ c'') c') →
      wlp (if p then (do
        let r ← modify fun c => { c with currentTime := c.eventTable.currentTime }
        x r) else x ⟨⟩) (fun _ c' => Settled c₀ c') c₁ := by
    intro p _ x c₁ h₁ hx
    split_ifs
    · exact wlp_settled_bind (wlp_settled (fixes_modify fun _ => rfl) h₁) fun _ c₂ h₂ => hx c₂ h₂
    · exact hx c₁ h₁
  refine wlp_settled_bind (wlp_settled fixes_get h) fun bag c₁ h₁ => ?_
  refine hclock c₁ h₁ fun c₂ h₂ => ?_
  refine wlp_settled_bind (wlp_settled fixes_get h₂) fun _ c₃ h₃ => ?_
  refine wlp_settled_bind (wlp_settled (laid_note rfl) h₃) fun _ c₄ h₄ => ?_
  refine wlp_settled_bind (houtput _ _ c₄ h₄) fun _ c₅ h₅ => ?_
  refine wlp_settled_bind (wlp_settled_dispatch _ h₅) fun _ c₆ h₆ => ?_
  refine wlp_settled_bind (houtput _ _ c₆ h₆) fun _ c₇ h₇ => ?_
  refine wlp_settled_bind (wlp_settled_dispatch _ h₇) fun _ c₈ h₈ => ?_
  refine wlp_settled_bind (wlp_settled fixes_get h₈) fun _ c₉ h₉ => ?_
  refine wlp_settled_bind (wlp_settled (laid_depths _) h₉) fun _ d₁ h₁ => ?_
  refine wlp_settled_bind (wlp_settled (laid_modifyBag _) h₁) fun _ d₂ h₂ => ?_
  -- Without the pool of threads the transitions are called in turn.
  unfold wlp
  rw [wp_bind, wp_get, if_neg (by simp [h₂.sequential])]
  exact wlp_settled_bind (hprocess _ _ d₂ h₂) fun _ d₃ h₃ => htail _ _ _ d₃ h₃

/-- A step leaves the graph and keeps the caches coherent. -/
theorem wlp_settled_run (env : Environment σ V) (fuel : ℕ) (h : Settled c₀ c) :
    wlp (Coordinator.run env fuel) (fun _ c' => Settled c₀ c') c := by
  refine wlp_settled_bind (wlp_settled_calls env fuel h) fun _ c₁ h₁ => ?_
  refine wlp_settled_bind (wlp_settled (laid_observeTimed env) h₁) fun _ c₂ h₂ => ?_
  have hnext : wlp (Coordinator.makeNextBag env) (fun _ c' => Settled c₀ c') c₂ :=
    wlp_settled (laid_makeNextBag env) h₂
  -- No deletion was asked for.
  unfold wlp
  rw [wp_bind, wp_get, if_neg (not_not.mpr h₂.kept)]
  exact hnext

end Settled

/-! ## The first state -/

/-- The dynamics that the names stand for are such ones. -/
def ModelFactory.Builds (mf : ModelFactory σ V) (P : Dynamics σ V → Prop) : Prop :=
  ∀ name dyn g m values d, mf.dynamics name = some dyn → dyn g m values = .ok d → P d

/-- No name of a dynamics stands for an executive. -/
def ModelFactory.NoExecutive (mf : ModelFactory σ V) : Prop := mf.Builds (·.isExecutive = false)

/-- A property of dynamics that are no executives, whatever their states are. -/
structure Lasting (P : Dynamics σ V → Prop) : Prop where
  plain : ∀ d, P d → d.isExecutive = false
  setState : ∀ d s, P d → P { d with state := s }

theorem lasting_plain : Lasting fun d : Dynamics σ V => d.isExecutive = false := ⟨fun _ h => h, fun _ _ h => h⟩

/-- While the simulators are created their caches are empty, and their dynamics are such ones. -/
structure Layout.Blank (P : Dynamics σ V → Prop) (w : Layout σ V) : Prop where
  kept : w.deleteModel = []
  sequential : w.parallelize = false
  models : ∀ id m cache o tn, w.models id = some (m, cache, o, tn) →
    cache = [] ∧ ∀ d, o = some d → P d

section Blank

variable {α β : Type} {c : Coordinator σ V} {P : Dynamics σ V → Prop}

theorem Layout.Blank.simulator (h : (layout c).Blank P) {id : SimId} {sim : Simulator σ V}
    (hsim : c.sims id = some sim) :
    sim.targetList = [] ∧ ∀ d, sim.dynamics = some d → P d :=
  h.models id sim.atomicModel sim.targetList sim.dynamics sim.tn (by simp [layout, hsim, Simulator.place])

/-- The graph is no matter. -/
theorem keeps_blank_onGraph (x : GraphM α) :
    Keeps (fun c : Coordinator σ V => (layout c).Blank P) (onGraph x) := by
  intro c hc
  unfold wp onGraph
  cases x c.graph <;> exact ⟨hc.kept, hc.sequential, hc.models⟩

/-- A simulator may get another place, with an empty cache and such a dynamics. -/
theorem Layout.Blank.update (h : (layout c).Blank P) (id : SimId) (sim : Simulator σ V)
    (hcache : sim.targetList = []) (hexec : ∀ d, sim.dynamics = some d → P d) :
    (layout { c with sims := Function.update c.sims id (some sim) }).Blank P := by
  refine ⟨h.kept, h.sequential, fun i m cache o tn hi => ?_⟩
  by_cases heq : i = id
  · subst heq
    simp only [layout, Function.update_self, Option.map_some, Simulator.place, Option.some.injEq,
      Prod.mk.injEq] at hi
    obtain ⟨-, rfl, rfl, -⟩ := hi
    exact ⟨hcache, hexec⟩
  · simp only [layout, Function.update_of_ne heq] at hi
    exact h.models i m cache o tn hi

/-- A script without command sets a state. -/
theorem keeps_blank_runScript (hP : Lasting P)
    (perform : SimId → Command V → CoordM σ V (Option NodeId)) (id : SimId) {script : Script σ V α}
    (hplain : script.Plain) :
    Keeps (fun c : Coordinator σ V => (layout c).Blank P) (runScript perform id script) := by
  have hset : ∀ s, Keeps (fun c : Coordinator σ V => (layout c).Blank P)
      (modifySimulator id (·.setState s)) := by
    intro s c hc
    refine wp_modifySimulator hc fun sim hsim => ?_
    obtain ⟨hcache, hexec⟩ := hc.simulator hsim
    refine hc.update id _ hcache fun d hd => ?_
    obtain ⟨d', hd', rfl⟩ := Option.map_eq_some_iff.mp hd
    exact hP.setState d' s (hexec d' hd')
  cases script with
  | done s a => exact keeps_bind (hset s) fun _ => keeps_pure a
  | throw s e => exact keeps_bind (hset s) fun _ => keeps_throw e
  | call command next => exact hplain.elim

/-- A simulator that is created has an empty cache. -/
theorem keeps_blank_addModel (model : NodeId) :
    Keeps (fun c : Coordinator σ V => (layout c).Blank P) (Coordinator.addModel model) := by
  refine keeps_get_bind fun c hc => ?_
  rw [wp_bind, wp_set]
  have hnew : (layout { c with
      sims := Function.update c.sims c.nextSim (some { atomicModel := model })
      nextSim := c.nextSim + 1
      simulators := c.simulators ++ [c.nextSim] }).Blank P := by
    have hupdate := hc.update c.nextSim { atomicModel := model } rfl (by simp)
    exact hupdate
  exact keeps_bind (keeps_blank_onGraph _) (fun _ => keeps_pure _) _ hnew

/-- What follows a read of the dynamics is run with such a one. -/
theorem keeps_blank_dynamicsOf_bind {id : SimId} {f : Dynamics σ V → CoordM σ V β}
    (hf : ∀ d, P d → Keeps (fun c => (layout c).Blank P) (f d)) :
    Keeps (fun c => (layout c).Blank P) (dynamicsOf id >>= f) := by
  intro c hc
  rw [wp_bind]
  refine wp_dynamicsOf (fun _ => hc) fun sim d hsim hd => ?_
  exact hf d ((hc.simulator hsim).2 d hd) c hc

theorem keeps_blank_processInit (hP : Lasting P) (env : Environment σ V)
    (perform : SimId → Command V → CoordM σ V (Option NodeId)) (id : SimId) :
    Keeps (fun c => (layout c).Blank P) (Coordinator.processInit env perform id) := by
  have hinit : ∀ time, Keeps (fun c => (layout c).Blank P) (Simulator.init env perform id time) := by
    intro time
    refine keeps_blank_dynamicsOf_bind fun d hd => ?_
    refine keeps_bind (keeps_blank_runScript hP perform id (d.plain (hP.plain d hd) time d.state).1) fun tn => ?_
    refine keeps_bind ((laid_dynamicsOf id).keeps _) fun _ => keeps_bind ((laid_note rfl).keeps _) fun _ => ?_
    have htn : Keeps (fun c : Coordinator σ V => (layout c).Blank P)
        (modifySimulator id fun sim => { sim with tn := tn + time }) := by
      intro c hc
      refine wp_modifySimulator hc fun sim hsim => ?_
      exact hc.update id _ (hc.simulator hsim).1 (hc.simulator hsim).2
    split_ifs
    · exact keeps_bind ((laid_getName id).keeps _) fun _ => keeps_bind (keeps_throw _) fun _ =>
        keeps_bind htn fun _ => keeps_pure _
    · exact keeps_bind htn fun _ => keeps_pure _
  refine keeps_bind keeps_get fun c => keeps_bind (hinit _) fun tn => ?_
  split_ifs
  · exact (laid_addInternal id tn).keeps _
  · exact keeps_pure _

/-- So is the dynamics that is attached. -/
theorem ModelFactory.Builds.attachDynamics {mf : ModelFactory σ V} (h : mf.Builds P)
    {name dynamics : String} {dyn : Dynamic σ V} (hdyn : mf.dynamics name = some dyn)
    {c : Coordinator σ V} {model : NodeId} {events : List (String × V)} {observable : String}
    {d : Dynamics σ V} {o : Observed}
    (hok : mf.attachDynamics dyn dynamics c model events observable = .ok (d, o)) : P d := by
  unfold ModelFactory.attachDynamics at hok
  dsimp only at hok
  split at hok
  · rename_i r hbuilt
    cases hok
    obtain ⟨d', hd', hrest⟩ := Lib.Except.bind_eq_ok.mp hbuilt
    obtain ⟨b, -, hrest⟩ := Lib.Except.bind_eq_ok.mp hrest
    have hexec := h name dyn c.graph model events d' hdyn hd'
    split_ifs at hrest
    · obtain ⟨o', -, hpair⟩ := Lib.Except.bind_eq_ok.mp hrest
      cases hpair
      exact hexec
    · cases hrest
      exact hexec
  · cases hok

/-- The creation of a simulator. -/
theorem keeps_blank_createModel (hP : Lasting P) {env : Environment σ V} (henv : env.Builds P)
    (perform : SimId → Command V → CoordM σ V (Option NodeId)) (cnds : Conditions V) (model : NodeId)
    (dynamics : String) (conditions : List String) (observable : String) :
    Keeps (fun c => (layout c).Blank P)
      (Coordinator.createModel env perform cnds model dynamics conditions observable) := by
  have hrest : ∀ dyn : Dynamic σ V, env.dynamics dynamics = some dyn →
      Keeps (fun c => (layout c).Blank P) (do
        let id ← Coordinator.addModel model
        let events ← ofExcept (ModelFactory.initValues cnds conditions)
        let c ← get
        let r ← ofExcept (env.attachDynamics dyn dynamics c model events observable)
        modifySimulator id fun sim => { sim with dynamics := some r.1, observed := r.2 }
        if observable ≠ "" then
          let lst ← ofExcept (env.getObservable observable)
          lst.forM fun elem => elem.2.forM fun viewname =>
            Coordinator.addObservableToView model elem.1 viewname
        Coordinator.processInit env perform id) := by
    intro dyn hdyn
    refine keeps_bind (keeps_blank_addModel model) fun id => ?_
    refine keeps_bind ((laid_ofExcept _).keeps _) fun events => keeps_bind keeps_get fun c => ?_
    intro c₁ h₁
    rw [wp_bind]
    refine wp_ofExcept (fun _ _ => h₁) fun r hr => ?_
    have hexec := henv.attachDynamics hdyn hr
    rw [wp_bind]
    refine wp_modifySimulator h₁ fun sim hsim => ?_
    have h₂ := h₁.update id { sim with dynamics := some r.1, observed := r.2 } (h₁.simulator hsim).1
      (by simpa using hexec)
    have hend := keeps_blank_processInit hP env perform id
    split_ifs
    · refine keeps_bind ((laid_ofExcept _).keeps _) (fun lst => keeps_bind ?_ fun _ => hend) _ h₂
      exact (fixes_forM (fun elem => fixes_forM (fun _ => laid_addObservableToView _ _ _) _) _ : Laid _).keeps _
    · exact hend _ h₂
  unfold Coordinator.createModel
  cases hdyn : env.dynamics dynamics with
  | none => exact keeps_throw _
  | some dyn => exact hrest dyn hdyn

/-- The first state of a run without executives. -/
theorem wlp_settled_init (hP : Lasting P) {env : Environment σ V} (henv : env.Builds P) (fuel : ℕ) (graph : Graph)
    (node : Option NodeId) (current duration : ℚ) :
    wlp (Coordinator.init env fuel node current duration) (fun _ c =>
      Settled c c ∧ ∀ id d tn, attached c id = some (d, tn) → P d) { graph } := by
  -- The layout is blank at first, and stays so until the first bag is made.
  have hviews : Laid (Coordinator.buildViews env current) := by
    refine fixes_forM (fun elem => ?_) _
    split_ifs
    · exact fixes_modify fun _ => rfl
    · exact fixes_modify fun _ => rfl
    · exact fixes_pure _
  have hmodels : Keeps (fun c => (layout c).Blank P) (Coordinator.addModels env fuel node) := by
    cases node with
    | none => exact keeps_pure _
    | some mdl =>
      refine keeps_bind ((laid_readGraph _).keeps _) fun lst => keeps_forM (fun elem => ?_) lst
      refine keeps_bind ((laid_readGraph _).keeps _) fun m => ?_
      split
      · exact keeps_blank_createModel hP henv _ _ _ _ _ _
      · exact keeps_throw _
  have hinit : Keeps (fun c => (layout c).Blank P) (Coordinator.init env fuel node current duration) := by
    have hset : Laid (modify fun c => { c with currentTime := date current, durationTime := date duration } :
        CoordM σ V PUnit) := fixes_modify fun _ => rfl
    have hstart : Laid (modify fun c => { c with isStarted := true } : CoordM σ V PUnit) :=
      fixes_modify fun _ => rfl
    refine keeps_bind (hset.keeps _) fun _ => keeps_bind (hviews.keeps _) fun _ => ?_
    refine keeps_bind hmodels fun _ => keeps_bind (hstart.keeps _) fun _ => ?_
    exact (laid_schedulerInit _ _).keeps _
  refine wlp_mono (hinit.wlp ⟨rfl, rfl, by simp [layout]⟩) fun _ c hc => ?_
  have hattached : ∀ id d tn, attached c id = some (d, tn) → P d := by
    intro id d tn hid
    obtain ⟨sim, hsim, hmap⟩ := Option.bind_eq_some_iff.mp hid
    obtain ⟨d', hd, hpair⟩ := Option.map_eq_some_iff.mp hmap
    cases hpair
    exact (hc.simulator hsim).2 _ hd
  refine ⟨⟨rfl, ?_, rfl, fun id d tn hid => hP.plain d (hattached id d tn hid), hc.kept, hc.sequential, [],
    by simp, rfl⟩, hattached⟩
  intro id model cache hid port hne
  obtain ⟨sim, hsim, hcache⟩ := Option.map_eq_some_iff.mp hid
  have heq : sim.targetList = cache := congrArg Prod.snd hcache
  rw [← heq, (hc.simulator hsim).1] at hne
  exact absurd rfl hne

end Blank

/-! ## Runs -/

section Reached

variable {env : Environment σ V} {c : Coordinator σ V}

/-- Every state of a run without executives is settled. -/
theorem Reached.settled (henv : env.NoExecutive) (h : Reached env c) : Settled c c := by
  induction h with
  | init graph fuel node current duration c hc =>
    exact (wlp_iff.mp (wlp_settled_init lasting_plain henv fuel graph node current duration) _ _ hc).1
  | run fuel c b c' _ hrun ih =>
    rcases rootRun_ok hrun with ⟨-, rfl⟩ | ⟨-, -, -, hstep⟩
    · exact ih
    · exact (wlp_iff.mp (wlp_settled_run env fuel ih) _ _ hstep).self

/-- **Routing.** In every state of a run without executives, the targets of a port are those that the graph
gives, whatever its routing cache holds, and a step leaves the graph as it was loaded. -/
theorem reached_routes (henv : env.NoExecutive) (h : Reached env c) :
    (∀ id sim, c.sims id = some sim → ∀ port, (wiring c).route id port =
      (Simulator.freshTargets c.graph sim.atomicModel port).map fun fresh => live (fresh.map (·.2))) ∧
    ∀ fuel b c', Coordinator.rootRun env fuel c = .ok b c' → c'.graph = c.graph := by
  have hsettled := h.settled henv
  refine ⟨fun id sim hsim port => ?_, fun fuel b c' hrun => ?_⟩
  · have hid : (wiring c).caches id = some (sim.atomicModel, sim.targetList) := by
      rw [wiring_caches, hsim]
      rfl
    exact hsettled.coherent.route_eq hid port
  · rcases rootRun_ok hrun with ⟨-, rfl⟩ | ⟨-, -, -, hstep⟩
    · rfl
    · exact (wlp_iff.mp (wlp_settled_run env fuel hsettled) _ _ hstep).graph

end Reached

/-- None of the two models is an executive. -/
theorem Sample.noExecutive : Sample.env.NoExecutive := by
  intro name dyn g m values d hdyn hd
  unfold Sample.env at hdyn
  dsimp only at hdyn
  split_ifs at hdyn
  · cases hdyn
    cases hd
    rfl
  · cases hdyn
    cases hd
    rfl

/-- In the run of the two models, the port of the first one leads to the second one. -/
theorem reached_routes_sample : ∃ c : Coordinator ℕ ℕ, Reached Sample.env c ∧
    c.eventTable.currentBag.dynamics = [0] ∧ ∀ id sim, c.sims id = some sim → ∀ port,
      (wiring c).route id port =
        (Simulator.freshTargets c.graph sim.atomicModel port).map fun fresh => live (fresh.map (·.2)) := by
  obtain ⟨c, c', hreached, -, hbag⟩ := Sample.exists_step
  exact ⟨c, hreached, hbag, (reached_routes Sample.noExecutive hreached).1⟩

end Vle.Devs
