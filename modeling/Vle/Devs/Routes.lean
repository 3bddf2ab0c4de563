import Vle.Devs.Layout
import Vle.Lib.Except

/-!
# Where events go

`Wiring` is the part of the state that decides where an event goes: the graph, and of each simulator its
model and its routing cache. `Wiring.route` is what `targets` returns for a port. A call fills the cache
of one port, after which every port of every simulator has the targets that it had (`wlp_targets`). A
cache is coherent when an entry of it is what the graph gives (`Wiring.Coherent`), and then `route` is a
function of the graph.
-/

namespace Vle.Devs

open Vle.Lib Vle.Lib.EState Vle.Vpz

variable {σ V : Type}

/-- The part of the state that decides where events go. -/
structure Wiring where
  graph : Graph
  caches : SimId → Option (NodeId × List (String × TargetSimulator))

/-- What decides where the events of a simulator go. -/
def Simulator.cache (sim : Simulator σ V) : NodeId × List (String × TargetSimulator) :=
  (sim.atomicModel, sim.targetList)

/-- The part of a state that decides where events go. -/
def wiring (c : Coordinator σ V) : Wiring where
  graph := c.graph
  caches id := (c.sims id).map Simulator.cache

@[simp] theorem wiring_graph (c : Coordinator σ V) : (wiring c).graph = c.graph := rfl

@[simp] theorem wiring_caches (c : Coordinator σ V) (id : SimId) :
    (wiring c).caches id = (c.sims id).map Simulator.cache := rfl

/-- A simulator has another cache. -/
def Wiring.put (w : Wiring) (id : SimId) (cache : NodeId × List (String × TargetSimulator)) : Wiring :=
  { w with caches := Function.update w.caches id (some cache) }

theorem wiring_update (c : Coordinator σ V) (id : SimId) (sim : Simulator σ V) :
    wiring { c with sims := Function.update c.sims id (some sim) } = (wiring c).put id sim.cache := by
  have hcaches : (fun i => (Function.update c.sims id (some sim) i).map Simulator.cache) =
      Function.update (fun i => (c.sims i).map Simulator.cache) id (some sim.cache) := by
    funext i
    by_cases h : i = id
    · subst h
      simp
    · simp [Function.update_of_ne h]
  simp only [wiring, Wiring.put, hcaches]

theorem Wiring.put_self {w : Wiring} {id : SimId} {cache : NodeId × List (String × TargetSimulator)}
    (h : w.caches id = some cache) : w.put id cache = w := by
  rw [Wiring.put, ← h, Function.update_eq_self]

/-- The entries of a port. -/
def entriesOf (cache : List (String × TargetSimulator)) (port : String) : List TargetSimulator :=
  (cache.filter (·.1 = port)).map (·.2)

/-- A null entry says that the port leads nowhere. -/
def live : List TargetSimulator → List TargetSimulator
  | (none, _) :: _ => []
  | x => x

/-- The targets of a port: those of the cache, or those that the graph gives. -/
def Wiring.route (w : Wiring) (id : SimId) (port : String) : Except Error (List TargetSimulator) :=
  match w.caches id with
  | none => .error .destroyed
  | some (model, cache) =>
    if entriesOf cache port = [] then do
      let fresh ← Simulator.freshTargets w.graph model port
      return live (fresh.map (·.2))
    else
      return live (entriesOf cache port)

/-- An entry of a cache is what the graph gives. -/
def Wiring.Coherent (w : Wiring) : Prop :=
  ∀ id model cache, w.caches id = some (model, cache) → ∀ port, entriesOf cache port ≠ [] →
    ∃ fresh, Simulator.freshTargets w.graph model port = .ok fresh ∧ fresh.map (·.2) = entriesOf cache port

/-- With coherent caches the targets are those that the graph gives. -/
theorem Wiring.Coherent.route_eq {w : Wiring} (h : w.Coherent) {id : SimId} {model : NodeId}
    {cache : List (String × TargetSimulator)} (hid : w.caches id = some (model, cache)) (port : String) :
    w.route id port =
      (Simulator.freshTargets w.graph model port).map fun fresh => live (fresh.map (·.2)) := by
  unfold Wiring.route
  rw [hid]
  by_cases hnil : entriesOf cache port = []
  · simp only [hnil, if_true]
    rfl
  · obtain ⟨fresh, hfresh, heq⟩ := h id model cache hid port hnil
    simp only [if_neg hnil, hfresh]
    rw [← heq]
    rfl

section Cache

variable {cache : List (String × TargetSimulator)} {port port' : String}

theorem entriesOf_append (cache cache' : List (String × TargetSimulator)) (port : String) :
    entriesOf (cache ++ cache') port = entriesOf cache port ++ entriesOf cache' port := by
  simp [entriesOf]

theorem entriesOf_erase_of_ne (h : port' ≠ port) :
    entriesOf (cache.filter (·.1 ≠ port)) port' = entriesOf cache port' := by
  unfold entriesOf
  rw [List.filter_filter]
  congr 1
  refine List.filter_congr fun e _ => ?_
  by_cases he : e.1 = port'
  · simp [he, h]
  · simp [he]

theorem entriesOf_erase_self : entriesOf (cache.filter (·.1 ≠ port)) port = [] := by
  unfold entriesOf
  rw [List.filter_filter, List.map_eq_nil_iff, List.filter_eq_nil_iff]
  simp

/-- The entries of a port are under its name, and there is one at least. -/
theorem freshTargets_spec {g : Graph} {m : NodeId} {fresh : List (String × TargetSimulator)}
    (h : Simulator.freshTargets g m port = .ok fresh) : fresh ≠ [] ∧ ∀ e ∈ fresh, e.1 = port := by
  unfold Simulator.freshTargets at h
  cases hresult : g.getAtomicModelsTarget m port .empty with
  | error e =>
    rw [hresult] at h
    cases h
  | ok result =>
    rw [hresult] at h
    change (if result.lst.isEmpty then _ else _) = _ at h
    by_cases hempty : result.lst.isEmpty
    · rw [if_pos hempty] at h
      cases h
      simp
    · rw [if_neg hempty] at h
      have hmap := Lib.Except.mapM_iff.mp h
      constructor
      · rintro rfl
        rw [List.map_nil, List.map_eq_nil_iff] at hmap
        simp [hmap] at hempty
      · intro e he
        have hmem : (Except.ok e : Except Error _) ∈ fresh.map .ok := List.mem_map_of_mem he
        rw [← hmap] at hmem
        obtain ⟨elem, -, helem⟩ := List.mem_map.mp hmem
        obtain ⟨sim, -, heq⟩ := Lib.Except.bind_eq_ok.mp helem
        cases heq
        rfl

/-- So they are all found under it. -/
theorem entriesOf_fresh {g : Graph} {m : NodeId} {fresh : List (String × TargetSimulator)}
    (h : Simulator.freshTargets g m port = .ok fresh) : entriesOf fresh port = fresh.map (·.2) := by
  unfold entriesOf
  rw [List.filter_eq_self.mpr]
  intro e he
  simp [(freshTargets_spec h).2 e he]

theorem entriesOf_fresh_of_ne {g : Graph} {m : NodeId} {fresh : List (String × TargetSimulator)}
    (h : Simulator.freshTargets g m port = .ok fresh) (hne : port' ≠ port) :
    entriesOf fresh port' = [] := by
  unfold entriesOf
  rw [List.map_eq_nil_iff, List.filter_eq_nil_iff]
  intro e he
  simp [(freshTargets_spec h).2 e he, hne.symm]

end Cache

/-! ## Filling a cache -/

/-- The entries of a port are replaced. -/
def Wiring.fill (w : Wiring) (id : SimId) (model : NodeId) (cache : List (String × TargetSimulator))
    (port : String) (fresh : List (String × TargetSimulator)) : Wiring :=
  w.put id (model, cache.filter (·.1 ≠ port) ++ fresh)

section Fill

variable {w : Wiring} {id : SimId} {model : NodeId} {cache fresh : List (String × TargetSimulator)}
  {port : String}

/-- The entries of a cache once a port is filled. -/
theorem entriesOf_fill (hfresh : Simulator.freshTargets w.graph model port = .ok fresh)
    (port' : String) : entriesOf (cache.filter (·.1 ≠ port) ++ fresh) port' =
      if port' = port then fresh.map (·.2) else entriesOf cache port' := by
  rw [entriesOf_append]
  split_ifs with h
  · rw [h, entriesOf_erase_self, entriesOf_fresh hfresh, List.nil_append]
  · rw [entriesOf_erase_of_ne h, entriesOf_fresh_of_ne hfresh h, List.append_nil]

/-- The targets of a port are the same once they are in the cache. -/
theorem Wiring.fill_route (hid : w.caches id = some (model, cache)) (hnil : entriesOf cache port = [])
    (hfresh : Simulator.freshTargets w.graph model port = .ok fresh) :
    (w.fill id model cache port fresh).route = w.route := by
  funext i p
  unfold Wiring.route
  by_cases hi : i = id
  · subst hi
    simp only [Wiring.fill, Wiring.put, Function.update_self, hid, entriesOf_fill hfresh]
    by_cases hp : p = port
    · subst hp
      have hne : fresh.map (·.2) ≠ [] := by simpa using (freshTargets_spec hfresh).1
      simp only [if_true, if_neg hne, hnil, hfresh]
      rfl
    · simp only [if_neg hp]
  · simp only [Wiring.fill, Wiring.put, Function.update_of_ne hi]

/-- What is put in a cache is what the graph gives. -/
theorem Wiring.Coherent.fill (h : w.Coherent) (hid : w.caches id = some (model, cache))
    (hfresh : Simulator.freshTargets w.graph model port = .ok fresh) :
    (w.fill id model cache port fresh).Coherent := by
  intro i m l hl p hne
  by_cases hi : i = id
  · subst hi
    simp only [Wiring.fill, Wiring.put, Function.update_self, Option.some.injEq, Prod.mk.injEq] at hl
    obtain ⟨rfl, rfl⟩ := hl
    rw [entriesOf_fill hfresh] at hne ⊢
    by_cases hp : p = port
    · subst hp
      rw [if_pos rfl]
      exact ⟨fresh, hfresh, rfl⟩
    · rw [if_neg hp] at hne ⊢
      exact h i _ cache hid p hne
  · simp only [Wiring.fill, Wiring.put, Function.update_of_ne hi] at hl
    exact h i m l hl p hne

end Fill

/-! ## Programs -/

section Programs

variable {id : SimId} {port : String} {c : Coordinator σ V}

/-- What a call of `targets` leaves: the cache as it was, or with the port that was asked for. -/
inductive Filled (w : Wiring) (id : SimId) (port : String) : Wiring → Prop
  | kept : Filled w id port w
  | fill (model : NodeId) (cache fresh : List (String × TargetSimulator)) :
    w.caches id = some (model, cache) → entriesOf cache port = [] →
    Simulator.freshTargets w.graph model port = .ok fresh →
    Filled w id port (w.fill id model cache port fresh)

/-- Two wirings that give the same targets. -/
structure Wiring.Same (w w' : Wiring) : Prop where
  graph : w'.graph = w.graph
  route : w'.route = w.route
  coherent : w.Coherent → w'.Coherent

theorem Wiring.Same.refl (w : Wiring) : w.Same w := ⟨rfl, rfl, fun h => h⟩

theorem Wiring.Same.of_eq {w w' : Wiring} (h : w' = w) : w.Same w' := h ▸ .refl w

theorem Wiring.Same.trans {w₀ w₁ w₂ : Wiring} (h₁ : w₀.Same w₁) (h₂ : w₁.Same w₂) : w₀.Same w₂ :=
  ⟨h₂.graph.trans h₁.graph, h₂.route.trans h₁.route, fun h => h₂.coherent (h₁.coherent h)⟩

theorem Filled.same {w w' : Wiring} (h : Filled w id port w') : w.Same w' := by
  cases h with
  | kept => exact .refl w
  | fill model cache fresh hid hnil hfresh =>
    exact ⟨rfl, Wiring.fill_route hid hnil hfresh, fun hw => hw.fill hid hfresh⟩

/-- A read of the cache of a simulator. -/
theorem route_eq_live {sim : Simulator σ V} (hsim : c.sims id = some sim)
    (hne : sim.equalRange port ≠ []) : (wiring c).route id port = .ok (live (sim.equalRange port)) := by
  unfold Wiring.route
  rw [wiring_caches, hsim]
  exact if_neg hne

/-- A call of `targets` returns the targets of the port, and may fill the cache with them. -/
theorem wlp_targets (id : SimId) (port : String) : wlp (Simulator.targets id port) (fun x c' =>
    (wiring c).route id port = .ok x ∧ Filled (wiring c) id port (wiring c')) c := by
  have hread : ∀ c₁ : Coordinator σ V, ∀ sim, c₁.sims id = some sim → sim.equalRange port ≠ [] →
      Filled (wiring c) id port (wiring c₁) → wlp (do
        match (← simulator id).equalRange port with
        | (none, _) :: _ => return []
        | x => return x) (fun x c' => (wiring c).route id port = .ok x ∧
          Filled (wiring c) id port (wiring c')) c₁ := by
    intro c₁ sim hsim hne hfilled
    have hroute := route_eq_live hsim hne
    rw [hfilled.same.route] at hroute
    unfold wlp
    rw [wp_bind, wp_simulator_of hsim]
    cases hrange : sim.equalRange port with
    | nil => exact absurd hrange hne
    | cons e rest =>
      obtain ⟨o, name⟩ := e
      rw [hrange] at hroute
      cases o with
      | none => exact ⟨hroute, hfilled⟩
      | some dst => exact ⟨hroute, hfilled⟩
  unfold Simulator.targets wlp
  rw [wp_bind]
  refine wp_simulator trivial fun sim hsim => ?_
  split_ifs with hempty
  · have hnil : entriesOf sim.targetList port = [] := by
      unfold Simulator.equalRange at hempty
      exact List.isEmpty_iff.mp hempty
    unfold Simulator.updateSimulatorTargets
    rw [wp_bind, wp_bind, wp_modifySimulator_of hsim, wp_bind]
    refine (wp_simulator_of (Function.update_self ..)).mpr ?_
    rw [wp_bind]
    refine (wp_inspect _).mpr ⟨fun fresh hresult => ?_, fun _ _ => trivial⟩
    refine (wp_modifySimulator_of (Function.update_self ..)).mpr ?_
    have hfresh : Simulator.freshTargets (wiring c).graph sim.atomicModel port = .ok fresh := hresult
    have hentries : entriesOf (sim.targetList.filter (·.1 ≠ port) ++ fresh) port = fresh.map (·.2) :=
      (entriesOf_fill hfresh port).trans (if_pos rfl)
    refine hread _ _ (Function.update_self ..) ?_ ?_
    · have hne : fresh.map (·.2) ≠ [] := by simpa using (freshTargets_spec hfresh).1
      rwa [← hentries] at hne
    · have hid : (wiring c).caches id = some (sim.atomicModel, sim.targetList) := by
        rw [wiring_caches, hsim]
        rfl
      have hfill := Filled.fill sim.atomicModel sim.targetList fresh hid hnil hfresh
      rw [wiring_update, wiring_update]
      simp only [Wiring.put, Function.update_idem]
      exact hfill
  · exact hread c sim hsim (by simpa using hempty) .kept

end Programs

/-! ## What leaves the wiring -/

/-- The wiring is part of the layout. -/
theorem wiring_of_layout {c c' : Coordinator σ V} (h : layout c' = layout c) : wiring c' = wiring c := by
  have hgraph : c'.graph = c.graph := congrArg Layout.graph h
  have hcaches : ∀ id, (c'.sims id).map Simulator.cache = (c.sims id).map Simulator.cache := by
    intro id
    have hid := congrArg (Option.map fun p => (p.1, p.2.1)) (congrFun (congrArg Layout.models h) id)
    simp only [layout, Option.map_map] at hid
    exact hid
  simp only [wiring, hgraph, hcaches]

/-- What leaves the layout leaves the wiring. -/
theorem Laid.fixes_wiring {α : Type} {x : CoordM σ V α} (h : Laid x) : Fixes wiring x := by
  rintro w c rfl
  exact h.wp (fun _ _ => wiring_of_layout) fun _ _ => wiring_of_layout

theorem fixes_wiring_output (id : SimId) (time : Time) :
    Fixes wiring (Simulator.output id time : CoordM σ V Unit) := by
  refine fixes_bind (laid_dynamicsOf id).fixes_wiring fun d => fixes_bind (fixes_inspect _) fun r => ?_
  have hresult : Laid (modifySimulator id fun sim => { sim with result := sim.result ++ r } :
      CoordM σ V Unit) := laid_modifySimulator id fun _ => rfl
  refine fixes_bind hresult.fixes_wiring fun _ => fixes_bind (fixes_modify fun _ => rfl) fun _ => ?_
  exact fixes_bind (fixes_inspect _) fun _ => (laid_observe id time _).fixes_wiring

end Vle.Devs
