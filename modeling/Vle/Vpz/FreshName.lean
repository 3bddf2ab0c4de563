import Vle.Lib.Except
import Vle.Vpz.BaseModel

/-!
# New names for submodels

`CoupledModel::buildNewName` appends a number to a prefix, again as long as a submodel has the name;
but the name that it looks up is the prefix, not the one it has built. So it gives the first name it
builds when the prefix is no submodel, whether that name is taken or not, and does not end when the
prefix is one (`buildNewName_run`, `buildNewName_stuck`).
-/

namespace Vle.Vpz

open Vle.Lib

namespace CoupledModel

/-- Whether there is a submodel of a given name. -/
def exist (cpled : CoupledModel) (name : String) : Bool := (cpled.modelList.lookup name).isSome

/-- The name that the numbers are appended to. -/
def stem (pfx : String) : String := if pfx = "" then "runtimebuilding" else pfx

/-- A name with a number. -/
def numbered (name : String) (i : ℕ) : String := s!"{name}-{i}"

/-- The loop of `buildNewName`, from a number on. -/
def buildNewNameLoop (cpled : CoupledModel) (name : String) : ℕ → ℕ → Except Error String
  | 0, _ => throw .outOfFuel
  | fuel + 1, i => do
    let newname := numbered name i
    if cpled.exist name then buildNewNameLoop cpled name fuel (i + 1) else return newname

/-- `CoupledModel::buildNewName`, for a number of turns of its loop. -/
def buildNewName (cpled : CoupledModel) (pfx : String) (fuel : ℕ) : Except Error String :=
  buildNewNameLoop cpled (stem pfx) fuel 0

/-- On a graph, `exist` looks the name up in the coupled model. -/
theorem exist_eq {g : Graph} {c : NodeId} {mdl : BaseModel} {cpled : CoupledModel}
    (hmdl : g.model c = some mdl) (hkind : mdl.kind = .coupled cpled) (name : String) :
    g.exist c name = .ok (cpled.exist name) := by
  have hderef : g.deref c = .ok mdl := by rw [Graph.deref, hmdl]
  have hlist : mdl.modelList = cpled.modelList := by rw [BaseModel.modelList, hkind]
  simp only [Graph.exist, Graph.findModel, hderef, Except.ok_bind, Except.pure_eq, hlist, exist]

/-- When the prefix is no submodel, the result is the first name built. -/
theorem buildNewName_run {cpled : CoupledModel} {pfx : String} (h : cpled.exist (stem pfx) = false)
    {fuel : ℕ} (hfuel : 1 ≤ fuel) : cpled.buildNewName pfx fuel = .ok (numbered (stem pfx) 0) := by
  obtain ⟨fuel, rfl⟩ : ∃ k, fuel = k + 1 := ⟨fuel - 1, by omega⟩
  rw [buildNewName, buildNewNameLoop, h]
  rfl

/-- A name with a number begins with the name. -/
theorem numbered_eq (name : String) (i : ℕ) : numbered name i = name ++ ("-" ++ toString i) := by
  rw [← String.append_assoc]
  rfl

/-- When the prefix is a submodel, the loop goes on for ever. -/
theorem buildNewName_stuck {cpled : CoupledModel} {pfx : String} (h : cpled.exist (stem pfx) = true)
    (fuel : ℕ) : cpled.buildNewName pfx fuel = .error .outOfFuel := by
  have hloop : ∀ i, cpled.buildNewNameLoop (stem pfx) fuel i = .error .outOfFuel := by
    induction fuel with
    | zero => intro i; rfl
    | succ fuel ih =>
      intro i
      rw [buildNewNameLoop, h]
      exact ih (i + 1)
  exact hloop 0

/-- `buildNewName` ends, with a name that begins with the prefix, or with the one by default, and that
no submodel has. -/
def NewName (cpled : CoupledModel) (pfx name : String) : Prop :=
  (∃ n, ∀ fuel ≥ n, cpled.buildNewName pfx fuel = .ok name) ∧ (∃ s, name = stem pfx ++ s) ∧
    cpled.exist name = false

/-- `buildNewName` gives a new name exactly when no submodel has the prefix for its name, nor the name
with the number 0. -/
theorem newName_iff (cpled : CoupledModel) (pfx : String) :
    (∃ name, cpled.NewName pfx name) ↔
      cpled.exist (stem pfx) = false ∧ cpled.exist (numbered (stem pfx) 0) = false := by
  constructor
  · rintro ⟨name, ⟨n, hrun⟩, -, hnew⟩
    have hrun := hrun (n + 1) (by omega)
    cases h : cpled.exist (stem pfx) with
    | true =>
      rw [buildNewName_stuck h] at hrun
      cases hrun
    | false =>
      rw [buildNewName_run h (by omega)] at hrun
      cases hrun
      exact ⟨rfl, hnew⟩
  · rintro ⟨h, hnew⟩
    exact ⟨_, ⟨1, fun fuel hfuel => buildNewName_run h hfuel⟩, ⟨_, numbered_eq _ 0⟩, hnew⟩

/-- Once a submodel has the name that it gave, `buildNewName` gives the same name again. -/
theorem not_newName_again :
    ¬ ∀ (cpled : CoupledModel) (pfx : String), ∃ name, cpled.NewName pfx name := by
  intro h
  obtain ⟨name, ⟨n, hrun⟩, -, hnew⟩ := h { modelList := AList.insert "a-0" 1 ∅ } "a"
  have hrun := hrun (n + 1) (by omega)
  rw [buildNewName_run (by decide) (by omega)] at hrun
  cases hrun
  revert hnew
  decide

end CoupledModel

end Vle.Vpz
