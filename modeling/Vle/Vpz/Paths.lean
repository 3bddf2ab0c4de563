import Vle.Lib.Except
import Vle.Vpz.Isomorphism

/-!
# Paths of names

A model is named by the names from the root down to it, separated by commas (`getCompleteName`), and
found again by following such a path down (`findModelFromPath`), or by following the names of its
parents in another hierarchy (`getModel`). All of them go along the models between the root and the
model (`Descends`): `path_inverts` says that the searches come back to where the name was taken.
-/

namespace Vle.Vpz

open Vle.Lib

namespace Graph

/-! ## The functions -/

/-- The loop of `getCompleteName` that stacks the parents of a model over it. -/
def stackParents (g : Graph) : ℕ → NodeId → List NodeId → Except Error (List NodeId)
  | 0, _, _ => throw .outOfFuel
  | fuel + 1, front, stack => do
    match (← g.deref front).parent with
    | some parent => stackParents g fuel parent (front :: stack)
    | none => return front :: stack

/-- The loop of `getCompleteName` over the stack. -/
def joinNames (g : Graph) : List NodeId → Except Error String
  | [] => return ""
  | [m] => return (← g.deref m).name
  | m :: m' :: stack => do
    let name := (← g.deref m).name
    return name ++ "," ++ (← joinNames g (m' :: stack))

/-- `getCompleteName`. On a forest the fuel is enough. -/
def getCompleteName (g : Graph) (m : NodeId) : Except Error String := do
  joinNames g (← stackParents g g.nextId m [])

/-- The loop of `getParents`. -/
def getParentsLoop (g : Graph) : ℕ → Option NodeId → Except Error (List NodeId)
  | _, none => return []
  | 0, some _ => throw .outOfFuel
  | fuel + 1, some parent => do
    return parent :: (← getParentsLoop g fuel (← g.deref parent).parent)

/-- `getParents`: the nearest first. On a forest the fuel is enough. -/
def getParents (g : Graph) (m : NodeId) : Except Error (List NodeId) := do
  getParentsLoop g g.nextId (← g.deref m).parent

/-- The virtual function `findModel`: an atomic model finds itself, a coupled one its submodels. -/
def findModelIn (g : Graph) (m : NodeId) (name : String) : Except Error (Option NodeId) := do
  let mdl ← g.deref m
  if mdl.isAtomic then
    return if mdl.name = name then some m else none
  else
    return mdl.modelList.lookup name

/-- The loop of `getModel` down the rest of the list. -/
def getModelLoop (g : Graph) (top : NodeId) : List NodeId → Except Error NodeId
  | [] => return top
  | it :: rest => do
    let other := (← g.deref it).name
    match ← g.findModelIn top other with
    | none => throw (.devsGraph s!"Model '{other}' not found")
    | some tmp =>
      let mdl ← g.deref tmp
      if mdl.isAtomic then
        throw (.devsGraph s!"Model '{other}' is not a coupled model")
      else if mdl.name ≠ other then
        throw (.devsGraph s!"Model '{other}' have not the same parent")
      else
        getModelLoop g tmp rest

/-- `getModel`, called on the model `m`. -/
def getModel (g : Graph) (m : NodeId) (lst : List NodeId) (name : String) :
    Except Error (Option NodeId) := do
  match lst.reverse with
  | [] => g.findModelIn m name
  | it :: rest =>
    let top ← g.deref m
    let other ← g.deref it
    if top.isAtomic then
      throw (.devsGraph "Bad use of getModel from a list")
    else if other.name ≠ top.name then
      throw (.devsGraph s!"Get model have not the same name '{top.name}' and '{other.name}'")
    else
      g.findModelIn (← getModelLoop g m rest) name

/-- The loop of `findModelFromPath` over the parts of the path, in the model `this` when `currModel` is
null. -/
def followPath (g : Graph) (this : NodeId) :
    Option NodeId → List String → Except Error (Option NodeId)
  | currModel, [] => return currModel
  | currModel, it :: rest => do
    let mdl ← g.deref (currModel.getD this)
    if mdl.isAtomic then return none
    match mdl.modelList.lookup it with
    | none => return none
    | some itml => followPath g this (some itml) rest

/-- `findModelFromPath`, called on the model `m`. -/
def findModelFromPath (g : Graph) (m : NodeId) (path : String) : Except Error (Option NodeId) :=
  followPath g m none ((path.toList.splitOn ',').map String.ofList)

/-! ## The way down -/

/-- The models on the way from `c` down to `n`, from below `c` to `n` itself. -/
def Descends (g : Graph) : NodeId → List NodeId → NodeId → Prop
  | c, [], n => n = c
  | c, m :: l, n => g.parent? m = some c ∧ Descends g m l n

variable {g : Graph} {c n m : NodeId} {l : List NodeId}

/-- A way down goes on by one model. -/
theorem Descends.concat (h : g.Descends c l m) (hn : g.parent? n = some m) :
    g.Descends c (l ++ [n]) n := by
  induction l generalizing c with
  | nil =>
    rw [Descends] at h
    subst h
    exact ⟨hn, rfl⟩
  | cons a l ih => exact ⟨h.1, ih h.2⟩

/-- There is a way down to what is below. -/
theorem Below.descends (h : g.Below c n) : ∃ l, g.Descends c l n := by
  induction h with
  | refl => exact ⟨[], rfl⟩
  | tail _ hn ih =>
    obtain ⟨l, hl⟩ := ih
    exact ⟨l ++ [_], hl.concat hn⟩

/-- The end of a way down is below its start. -/
theorem Descends.below (h : g.Descends c l n) : g.Below c n := by
  induction l generalizing c with
  | nil =>
    rw [Descends] at h
    subst h
    exact Below.refl g _
  | cons a l ih => exact ((Below.refl g c).child h.1).trans (ih h.2)

/-- A way down is empty only when it ends where it starts. -/
theorem Descends.ne_nil (h : g.Descends c l n) (hne : n ≠ c) : l ≠ [] := by
  rintro rfl
  exact hne h

/-- Every model on a way down is below its start. -/
theorem Descends.below_of_mem (h : g.Descends c l n) {a : NodeId} (ha : a ∈ l) : g.Below c a := by
  induction l generalizing c with
  | nil => cases ha
  | cons b l ih =>
    have hb := (Below.refl g c).child h.1
    rcases List.mem_cons.mp ha with rfl | ha
    · exact hb
    · exact hb.trans (ih h.2 ha)

/-- The last step of a way down. -/
theorem Descends.of_concat (h : g.Descends c (l ++ [m]) n) :
    n = m ∧ ∃ p, g.Descends c l p ∧ g.parent? n = some p := by
  induction l generalizing c with
  | nil =>
    obtain ⟨hm, rfl⟩ := h
    exact ⟨rfl, c, rfl, hm⟩
  | cons a l ih =>
    obtain ⟨hn, p, hp, hnp⟩ := ih h.2
    exact ⟨hn, p, ⟨h.1, hp⟩, hnp⟩

/-- Ranks go up on the way down. -/
theorem Descends.length_le {rank : NodeId → ℕ} (hrank : ∀ n c, g.parent? n = some c → rank c < rank n)
    (h : g.Descends c l n) : rank c + l.length ≤ rank n := by
  induction l generalizing c with
  | nil =>
    rw [Descends] at h
    simp [h]
  | cons a l ih =>
    have := hrank a c h.1
    have := ih h.2
    rw [List.length_cons]
    omega

/-- There are fewer models on a way down than identifiers. -/
theorem Forest.length_lt (hf : g.Forest) (hc : (g.name? c).isSome) (h : g.Descends c l n) :
    l.length < g.nextId := by
  obtain ⟨rank, hrank, hbound⟩ := hf.exists_rank
  obtain ⟨mdl, hmdl⟩ := h.below.exists_model hc
  have := h.length_le hrank
  have := hbound n (by rw [name?, hmdl]; rfl)
  omega

/-- Above a coupled model, the models on a way down are coupled. -/
theorem Descends.coupled (hf : g.Forest) (h : g.Descends c l n) (hn : g.coupled? n = true) :
    ∀ a ∈ l, g.coupled? a = true := by
  induction l generalizing c with
  | nil => exact fun a ha => absurd ha List.not_mem_nil
  | cons b l ih =>
    intro a ha
    rcases List.mem_cons.mp ha with rfl | ha
    · cases l with
      | nil => exact h.2 ▸ hn
      | cons d l => exact hf.above _ _ h.2.1
    · exact ih h.2 a ha

/-! ## Names -/

/-- The name of a model that exists. -/
def nameOf (g : Graph) (m : NodeId) : String := (g.name? m).getD ""

theorem deref_nameOf {mdl : BaseModel} (h : g.model m = some mdl) : mdl.name = g.nameOf m := by
  rw [nameOf, name?, h]
  rfl

theorem name?_eq_nameOf (h : (g.name? m).isSome) : g.name? m = some (g.nameOf m) := by
  obtain ⟨name, hname⟩ := Option.isSome_iff_exists.mp h
  rw [nameOf, hname]
  rfl

/-- The names of models, separated by commas. -/
def pathOf (g : Graph) (l : List NodeId) : String :=
  String.ofList ([','].intercalate (l.map fun m => (g.nameOf m).toList))

/-- A path begins with the name of its first model. -/
theorem pathOf_cons (m : NodeId) (hl : l ≠ []) :
    g.pathOf (m :: l) = g.nameOf m ++ "," ++ g.pathOf l := by
  obtain ⟨a, l, rfl⟩ := List.exists_cons_of_ne_nil hl
  apply String.ext
  simp [pathOf, List.intercalate]

/-- Joining the names of models that exist. -/
theorem joinNames_run (h : ∀ a ∈ l, ∃ mdl, g.model a = some mdl) : g.joinNames l = .ok (g.pathOf l) := by
  induction l with
  | nil => rfl
  | cons a l ih =>
    obtain ⟨mdl, hmdl⟩ := h a List.mem_cons_self
    have hderef := deref_eq_ok.mpr hmdl
    cases l with
    | nil =>
      rw [joinNames, hderef, Except.ok_bind, Except.pure_eq, deref_nameOf hmdl]
      simp [pathOf]
    | cons b l =>
      rw [joinNames, hderef, Except.ok_bind, ih fun d hd => h d (List.mem_cons_of_mem a hd),
        Except.ok_bind, Except.pure_eq, deref_nameOf hmdl, pathOf_cons a (List.cons_ne_nil b l)]

/-- The parents of a model, stacked down from the root. -/
theorem stackParents_run (hc : (g.name? c).isSome) (htop : g.parent? c = none) {fuel : ℕ}
    (h : g.Descends c l n) (hfuel : l.length < fuel) (stack : List NodeId) :
    g.stackParents fuel n stack = .ok (c :: l ++ stack) := by
  obtain ⟨fuel, rfl⟩ : ∃ k, fuel = k + 1 := ⟨fuel - 1, by omega⟩
  induction l using List.reverseRecOn generalizing n fuel stack with
  | nil =>
    rw [Descends] at h
    subst h
    obtain ⟨mdl, hmdl⟩ := exists_of_name? hc
    have hparent : mdl.parent = none := by rwa [parent?, hmdl] at htop
    rw [stackParents, deref_eq_ok.mpr hmdl, Except.ok_bind, hparent]
    rfl
  | append_singleton l m ih =>
    obtain ⟨rfl, p, hp, hnp⟩ := h.of_concat
    obtain ⟨mdl, hmdl, hparent⟩ := Option.bind_eq_some_iff.mp hnp
    rw [List.length_append, List.length_singleton] at hfuel
    obtain ⟨fuel, rfl⟩ : ∃ k, fuel = k + 1 := ⟨fuel - 1, by omega⟩
    rw [stackParents, deref_eq_ok.mpr hmdl, Except.ok_bind, hparent]
    simpa using ih hp (n :: stack) fuel (by omega)

/-- The complete name of a model is the path of the models from the root down. -/
theorem getCompleteName_run (hf : g.Forest) (hc : (g.name? c).isSome) (htop : g.parent? c = none)
    (h : g.Descends c l n) : g.getCompleteName n = .ok (g.pathOf (c :: l)) := by
  rw [getCompleteName, stackParents_run hc htop h (hf.length_lt hc h), Except.ok_bind, List.append_nil]
  refine joinNames_run fun a ha => ?_
  rcases List.mem_cons.mp ha with rfl | ha
  · exact exists_of_name? hc
  · exact (h.below_of_mem ha).exists_model hc

/-! ## Following a path -/

/-- The submodels of a model that exists, by name. -/
theorem lookup_modelList {mdl : BaseModel} (h : g.model c = some mdl) (name : String) :
    mdl.modelList.lookup name = g.child? c name := by
  rw [child?, h]
  rfl

/-- What an atomic model has for submodels. -/
theorem lookup_atomic {mdl : BaseModel} (h : mdl.isAtomic = true) (name : String) :
    mdl.modelList.lookup name = none := by
  obtain ⟨name, parent, ins, outs, x, y, width, height, kind⟩ := mdl
  cases kind with
  | atomic atom => rfl
  | coupled cpled => cases h

/-- One step of `followPath`: down to a submodel of that name, or nowhere. -/
theorem followPath_cons {this : NodeId} {curr : Option NodeId} (hcurr : curr.getD this = c)
    (hc : (g.name? c).isSome) (name : String) (rest : List String) :
    g.followPath this curr (name :: rest) =
      (g.child? c name).elim (.ok none) fun m => g.followPath this (some m) rest := by
  obtain ⟨mdl, hmdl⟩ := exists_of_name? hc
  rw [followPath, hcurr, deref_eq_ok.mpr hmdl, Except.ok_bind, ← lookup_modelList hmdl]
  cases hatomic : mdl.isAtomic with
  | true =>
    rw [lookup_atomic hatomic]
    rfl
  | false => cases mdl.modelList.lookup name <;> rfl

/-- Following the names of a way down leads to its end. -/
theorem followPath_names (h : g.WellFormed) {this : NodeId} {curr : Option NodeId}
    (hcurr : curr.getD this = c) (hc : (g.name? c).isSome) (hl : g.Descends c l n) (hne : l ≠ []) :
    g.followPath this curr (l.map g.nameOf) = .ok (some n) := by
  induction l generalizing c curr with
  | nil => exact absurd rfl hne
  | cons a l ih =>
    have ha := name?_of_parent? hl.1
    have hchild : g.child? c (g.nameOf a) = some a :=
      (h.listed c _ a).mpr ⟨name?_eq_nameOf ha, hl.1⟩
    rw [List.map_cons, followPath_cons hcurr hc, hchild, Option.elim_some]
    cases l with
    | nil => rw [hl.2]; rfl
    | cons b l => exact ih rfl ha hl.2 (List.cons_ne_nil b l)

/-- What following names leads to: nothing, or the end of a way down of these names. -/
theorem followPath_cases (h : g.WellFormed) {this : NodeId} {curr : Option NodeId}
    (hcurr : curr.getD this = c) (hc : (g.name? c).isSome) {parts : List String} (hne : parts ≠ []) :
    g.followPath this curr parts = .ok none ∨
      ∃ l n, g.Descends c l n ∧ l.map g.nameOf = parts ∧ g.followPath this curr parts = .ok (some n) := by
  induction parts generalizing c curr with
  | nil => exact absurd rfl hne
  | cons name rest ih =>
    rw [followPath_cons hcurr hc]
    cases hchild : g.child? c name with
    | none => exact .inl rfl
    | some a =>
      obtain ⟨hname, hparent⟩ := (h.listed c name a).mp hchild
      have hnameOf : g.nameOf a = name := by rw [nameOf, hname]; rfl
      rw [Option.elim_some]
      cases rest with
      | nil => exact .inr ⟨[a], a, ⟨hparent, rfl⟩, by rw [List.map_singleton, hnameOf], rfl⟩
      | cons name' rest =>
        rcases ih (show (some a).getD this = a from rfl) (by rw [hname]; rfl)
            (List.cons_ne_nil name' rest) with hnone |
          ⟨l, n, hl, hparts, hrun⟩
        · exact .inl hnone
        · exact .inr ⟨a :: l, n, ⟨hparent, hl⟩, by rw [List.map_cons, hnameOf, hparts], hrun⟩

/-- The parts of a path of names without commas are the names. -/
theorem split_pathOf (hne : l ≠ []) (hcomma : ∀ a ∈ l, ',' ∉ (g.nameOf a).toList) :
    ((g.pathOf l).toList.splitOn ',').map String.ofList = l.map g.nameOf := by
  rw [pathOf, String.toList_ofList, List.splitOn_intercalate, List.map_map]
  · exact List.map_congr_left fun a _ => String.ofList_toList
  · intro name hname
    obtain ⟨a, ha, rfl⟩ := List.mem_map.mp hname
    exact hcomma a ha
  · simpa using hne

/-- A path is the path of the models whose names are its parts. -/
theorem pathOf_split {path : String} (h : l.map g.nameOf = (path.toList.splitOn ',').map String.ofList) :
    g.pathOf l = path := by
  have hnames : (l.map fun a => (g.nameOf a).toList) = path.toList.splitOn ',' := by
    have := congrArg (List.map String.toList) h
    rw [List.map_map, List.map_map] at this
    simpa [Function.comp_def] using this
  rw [pathOf, hnames, List.intercalate_splitOn, String.ofList_toList]

/-! ## Following the parents -/

/-- The parents of a model from one of them on, the nearest first. -/
theorem getParentsLoop_run (hc : (g.name? c).isSome) (htop : g.parent? c = none) {fuel : ℕ}
    (h : g.Descends c l n) (hfuel : l.length < fuel) :
    g.getParentsLoop fuel (some n) = .ok (c :: l).reverse := by
  obtain ⟨fuel, rfl⟩ : ∃ k, fuel = k + 1 := ⟨fuel - 1, by omega⟩
  induction l using List.reverseRecOn generalizing n fuel with
  | nil =>
    rw [Descends] at h
    subst h
    obtain ⟨mdl, hmdl⟩ := exists_of_name? hc
    have hparent : mdl.parent = none := by rwa [parent?, hmdl] at htop
    rw [getParentsLoop, deref_eq_ok.mpr hmdl, Except.ok_bind, hparent]
    cases fuel <;> rfl
  | append_singleton l m ih =>
    obtain ⟨rfl, p, hp, hnp⟩ := h.of_concat
    obtain ⟨mdl, hmdl, hparent⟩ := Option.bind_eq_some_iff.mp hnp
    rw [List.length_append, List.length_singleton] at hfuel
    obtain ⟨fuel, rfl⟩ : ∃ k, fuel = k + 1 := ⟨fuel - 1, by omega⟩
    rw [getParentsLoop, deref_eq_ok.mpr hmdl, Except.ok_bind, hparent, ih hp fuel (by omega)]
    simp

/-- The parents of a model of a tree. -/
theorem getParents_run (hf : g.Forest) (hc : (g.name? c).isSome) (htop : g.parent? c = none)
    (h : g.Descends c l n) (hm : g.parent? m = some n) : g.getParents m = .ok (c :: l).reverse := by
  obtain ⟨mdl, hmdl, hparent⟩ := Option.bind_eq_some_iff.mp hm
  rw [getParents, deref_eq_ok.mpr hmdl, Except.ok_bind, hparent]
  exact getParentsLoop_run hc htop h (hf.length_lt hc h)

/-- A coupled model finds its submodels. -/
theorem findModelIn_run (h : g.coupled? c = true) (name : String) :
    g.findModelIn c name = .ok (g.child? c name) := by
  unfold coupled? at h
  cases hmdl : g.model c with
  | none => rw [hmdl] at h; cases h
  | some mdl =>
    have hatomic : mdl.isAtomic = false := by simpa [hmdl, BaseModel.isCoupled] using h
    rw [findModelIn, deref_eq_ok.mpr hmdl, Except.ok_bind, hatomic, if_neg (by simp),
      lookup_modelList hmdl]
    rfl

/-- The model found is a coupled one of the name that was looked for. -/
theorem deref_coupled (h : g.coupled? c = true) :
    ∃ mdl, g.deref c = .ok mdl ∧ mdl.isAtomic = false ∧ mdl.name = g.nameOf c := by
  unfold coupled? at h
  cases hmdl : g.model c with
  | none => rw [hmdl] at h; cases h
  | some mdl =>
    exact ⟨mdl, deref_eq_ok.mpr hmdl, by simpa [hmdl, BaseModel.isCoupled] using h, deref_nameOf hmdl⟩

section Clone

variable {g' : Graph} {φ : NodeId → NodeId} {root : NodeId}

/-- A way down is one in a graph with the same parents. -/
theorem Descends.mono (hp : ∀ n c, g.parent? n = some c → g'.parent? n = some c)
    (h : g.Descends c l n) : g'.Descends c l n := by
  induction l generalizing c with
  | nil => exact h
  | cons a l ih => exact ⟨hp a c h.1, ih h.2⟩

/-- A model that exists keeps its name when a copy comes in. -/
theorem Copied.nameOf_old (hc : Copied φ root g g g') (hf : g.Forest) (h : (g.name? m).isSome) :
    g'.nameOf m = g.nameOf m := by
  rw [nameOf, nameOf, (hc.old (hf.bound m h)).1]

/-- A copy has the name of its original. -/
theorem Copied.nameOf_copy (hc : Copied φ root g g g') (hroot : (g.name? root).isSome)
    (h : g.Below root m) : g'.nameOf (φ m) = g.nameOf m := by
  rw [nameOf, nameOf, hc.name? hroot h]

/-- Following the parents of a model in the copy leads from copy to copy. -/
theorem Copied.getModelLoop_run (hc : Copied φ root g g g') (hg : g.WellFormed)
    (hroot : (g.name? root).isSome) (hbelow : g.Below root c) (h : g.Descends c l n)
    (hl : ∀ a ∈ l, g.coupled? a = true) : g'.getModelLoop (φ c) l = .ok (φ n) := by
  induction l generalizing c with
  | nil => rw [h]; rfl
  | cons a l ih =>
    have ha : g.Below root a := hbelow.child h.1
    have hname := name?_of_parent? h.1
    obtain ⟨mdl, hmdl, -, hmdlname⟩ := deref_coupled (g := g') (c := a) (by
      rw [(hc.old (hg.forest.bound a hname)).2.1]
      exact hl a List.mem_cons_self)
    obtain ⟨copy, hcopy, hcoupled, hcopyname⟩ := deref_coupled (g := g') (c := φ a) (by
      rw [hc.coupled? hroot ha]
      exact hl a List.mem_cons_self)
    rw [hc.nameOf_old hg.forest hname] at hmdlname
    rw [hc.nameOf_copy hroot ha] at hcopyname
    have hfind : g'.findModelIn (φ c) (g.nameOf a) = .ok (some (φ a)) := by
      rw [findModelIn_run (by rw [hc.coupled? hroot hbelow]; exact hg.forest.above a c h.1),
        hc.child? hroot hbelow, (hg.listed c _ a).mpr ⟨name?_eq_nameOf hname, h.1⟩]
      rfl
    rw [getModelLoop, hmdl, Except.ok_bind, hmdlname]
    dsimp only
    rw [hfind, Except.ok_bind]
    dsimp only
    rw [hcopy, Except.ok_bind, hcoupled, if_neg (by simp), if_neg (not_not.mpr hcopyname)]
    exact ih ha h.2 fun b hb => hl b (List.mem_cons_of_mem a hb)

/-- The parents of a model lead to its copy. -/
theorem Copied.getModel_run (hc : Copied φ root g g g') (hg : g.WellFormed)
    (hroot : (g.name? root).isSome) (h : g.Descends root l n) (hm : g.parent? m = some n) :
    g'.getModel (φ root) (root :: l).reverse (g.nameOf m) = .ok (some (φ m)) := by
  have hn := hg.forest.above m n hm
  have hl := h.coupled hg.forest hn
  have hrootCoupled : g.coupled? root = true := by
    cases l with
    | nil => exact h ▸ hn
    | cons a l => exact hg.forest.above a root h.1
  obtain ⟨top, htop, hatomic, htopname⟩ := deref_coupled (g := g') (c := φ root) (by
    rw [hc.coupled? hroot (Below.refl g root)]
    exact hrootCoupled)
  obtain ⟨other, hother, -, hothername⟩ := deref_coupled (g := g') (c := root) (by
    rw [(hc.old (hg.forest.bound root hroot)).2.1]
    exact hrootCoupled)
  rw [hc.nameOf_copy hroot (Below.refl g root)] at htopname
  rw [hc.nameOf_old hg.forest hroot] at hothername
  have hfind : g'.findModelIn (φ n) (g.nameOf m) = .ok (some (φ m)) := by
    rw [findModelIn_run (by rw [hc.coupled? hroot h.below]; exact hn), hc.child? hroot h.below,
      (hg.listed n _ m).mpr ⟨name?_eq_nameOf (name?_of_parent? hm), hm⟩]
    rfl
  rw [getModel, List.reverse_reverse]
  dsimp only
  rw [htop, Except.ok_bind, hother, Except.ok_bind, hatomic, if_neg (by simp), hothername, htopname,
    if_neg (by simp), hc.getModelLoop_run hg hroot (Below.refl g root) h hl, Except.ok_bind, hfind]

end Clone

/-- Looking a path up inverts naming it. The models below the root of a tree whose names have no comma
are found by their complete names without the name of the root, and no other path leads to a model. In
a clone of the tree, a model's parents and its name lead to its copy. -/
theorem path_inverts (hg : g.WellFormed) {root : NodeId} (hroot : (g.name? root).isSome)
    (htop : g.parent? root = none) (hcomma : ∀ m, g.Below root m → ',' ∉ (g.nameOf m).toList) :
    (∀ m, g.Below root m → m ≠ root → ∃ path,
      g.getCompleteName m = .ok (g.nameOf root ++ "," ++ path) ∧
      g.findModelFromPath root path = .ok (some m)) ∧
    (∀ path, (∀ m, g.Below root m → m ≠ root →
        g.getCompleteName m ≠ .ok (g.nameOf root ++ "," ++ path)) →
      g.findModelFromPath root path = .ok none) ∧
    ∃ φ g', CoupledModel.clone g (g.nextId + 1) root g = .ok (φ root) g' ∧ Copied φ root g g g' ∧
      ∀ m, g.Below root m → m ≠ root → ∃ parents, g'.getParents m = .ok parents ∧
        g'.getModel (φ root) parents (g.nameOf m) = .ok (some (φ m)) := by
  have hf := hg.forest
  refine ⟨fun m hm hne => ?_, fun path hnone => ?_, ?_⟩
  · obtain ⟨l, hl⟩ := hm.descends
    have hlne := hl.ne_nil hne
    refine ⟨g.pathOf l, ?_, ?_⟩
    · rw [getCompleteName_run hf hroot htop hl, pathOf_cons root hlne]
    · rw [findModelFromPath, split_pathOf hlne fun a ha => hcomma a (hl.below_of_mem ha)]
      exact followPath_names hg rfl hroot hl hlne
  · have hparts : (path.toList.splitOn ',').map String.ofList ≠ [] := by simp
    rcases followPath_cases hg (show none.getD root = root from rfl) hroot hparts with hrun |
      ⟨l, m, hl, hnames, hrun⟩
    · exact hrun
    · have hlne : l ≠ [] := by
        rintro rfl
        exact hparts hnames.symm
      have hmroot : m ≠ root := by
        rintro rfl
        obtain ⟨a, l, rfl⟩ := List.exists_cons_of_ne_nil hlne
        exact hf.not_below hl.1 hl.2.below
      refine absurd ?_ (hnone m hl.below hmroot)
      rw [getCompleteName_run hf hroot htop hl, pathOf_cons root hlne, pathOf_split hnames]
  · obtain ⟨φ, g', hrun, hc⟩ := clone_copied hg hroot g
    refine ⟨φ, g', hrun, hc, fun m hm hne => ?_⟩
    rcases hm.cases with rfl | ⟨p, hp, hbelow⟩
    · exact absurd rfl hne
    obtain ⟨l, hl⟩ := hbelow.descends
    have hold : ∀ n c, g.parent? n = some c → g'.parent? n = some c := by
      intro n c hn
      rw [(hc.old (hf.bound n (name?_of_parent? hn))).2.2.1, hn]
    have hwell := hc.wellFormed hg hg hroot
    have hroot' : (g'.name? root).isSome := by rwa [(hc.old (hf.bound root hroot)).1]
    have htop' : g'.parent? root = none := by rw [(hc.old (hf.bound root hroot)).2.2.1, htop]
    exact ⟨_, getParents_run hwell.forest hroot' htop' (hl.mono hold) (hold m p hp),
      hc.getModel_run hg hroot hl hp⟩

/-- A hierarchy of a coupled model and an atomic one in it. -/
theorem exists_pair : ∃ g : Graph, g.WellFormed ∧ g.parent? 0 = none ∧ g.parent? 1 = some 0 ∧
    g.name? 0 = some "top" ∧ g.name? 1 = some "a" ∧ g.nextId = 2 := by
  have h₁ := Reachable.step .start
    (⟨⟨by decide, trivial⟩, trivial⟩ : Op.Proper .empty (.newCoupledModel "top")) rfl
  have h₂ := h₁.step (⟨⟨by decide, trivial⟩, trivial⟩ : Op.Proper _ (.addAtomicModel 0 "a")) rfl
  exact ⟨_, h₂.consistent.toWellFormed, rfl, rfl, rfl, rfl, rfl⟩

/-- The submodel `a` of `top`. -/
theorem path_inverts_pair : ∃ g : Graph, g.parent? 1 = some 0 ∧
    ∃ path, g.getCompleteName 1 = .ok ("top" ++ "," ++ path) ∧
      g.findModelFromPath 0 path = .ok (some 1) := by
  obtain ⟨g, hg, htop, hparent, hname, hname', hid⟩ := exists_pair
  have hcomma : ∀ m, g.Below 0 m → ',' ∉ (g.nameOf m).toList := by
    intro m hm
    obtain ⟨mdl, hmdl⟩ := hm.exists_model (by rw [hname]; rfl)
    have hlt := hg.forest.bound m (by rw [name?, hmdl]; rfl)
    rw [hid] at hlt
    obtain rfl | rfl : m = 0 ∨ m = 1 :=
      Nat.le_one_iff_eq_zero_or_eq_one.mp (Nat.le_of_lt_succ hlt)
    · rw [nameOf, hname]
      exact (by decide : ',' ∉ "top".toList)
    · rw [nameOf, hname']
      exact (by decide : ',' ∉ "a".toList)
  obtain ⟨path, hpath⟩ := (path_inverts hg (by rw [hname]; rfl) htop hcomma).1 1
    ((Below.refl g 0).child hparent) (by decide)
  have htopname : g.nameOf 0 = "top" := by rw [nameOf, hname]; rfl
  rw [htopname] at hpath
  exact ⟨g, hparent, path, hpath⟩

end Graph

end Vle.Vpz
