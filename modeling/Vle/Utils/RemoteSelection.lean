import Vle.Utils.RemoteManager
import Mathlib.Data.Prod.Lex

/-!
# Which packages are updated and installed

`actionUpdate` goes through the local packages and takes, for each, the first remote package of the
name that is more recent; `actionInstall` takes the most recent remote package and compares it with the
first local one of the name. The packages are those of the tables, in the order in which these
enumerate them. Both select the newest version exactly when it does not matter which record of a name
comes first, and, for the updates, when a name has one local record (`selects_iff`).
-/

namespace Vle.Utils

/-! ## Versions -/

/-- The version of a package, in the order of the versions. -/
def PackageId.version (pkg : PackageId) : ℤ ×ₗ ℤ ×ₗ ℤ := toLex (pkg.major, toLex (pkg.minor, pkg.patch))

/-- `PackageIdUpdate` compares the versions of packages of one name. -/
theorem packageIdUpdate_iff (lhs rhs : PackageId) :
    packageIdUpdate lhs rhs = true ↔ lhs.name = rhs.name ∧ lhs.version < rhs.version := by
  have hlex : lhs.version < rhs.version ↔ lhs.major < rhs.major ∨ lhs.major = rhs.major ∧
      (lhs.minor < rhs.minor ∨ lhs.minor = rhs.minor ∧ lhs.patch < rhs.patch) := by
    unfold PackageId.version
    rw [Prod.Lex.toLex_lt_toLex, Prod.Lex.toLex_lt_toLex]
  rw [hlex, packageIdUpdate]
  split_ifs <;> simp_all <;> omega

namespace Pimpl

/-- A record of the newest version of a name. -/
def Newest (pkgs : List PackageId) (name : String) (pkg : PackageId) : Prop :=
  pkg ∈ pkgs ∧ pkg.name = name ∧ ∀ r ∈ pkgs, r.name = name → r.version ≤ pkg.version

theorem mem_equalRange {pkgs : List PackageId} {name : String} {pkg : PackageId} :
    pkg ∈ equalRange pkgs name ↔ pkg ∈ pkgs ∧ pkg.name = name := by
  simp [equalRange]

/-! ## Updates -/

/-- The loop of `actionUpdate` over the local packages. -/
def updates (locals remotes : List PackageId) : List PackageId :=
  locals.filterMap fun ploc => (equalRange remotes ploc.name).find? (packageIdUpdate ploc)

theorem download_keeps {env : Env} {parser : List PackageId} {p : Pimpl} {url : String}
    {r : List PackageId × Pimpl} (h : download env parser p url = some r) :
    r.2.mResults = p.mResults ∧ r.2.localPackages = p.localPackages := by
  unfold download at h
  by_cases hurl : url = ""
  · rw [if_pos hurl] at h
    cases h
    exact ⟨rfl, rfl⟩
  rw [if_neg hurl] at h
  by_cases hget : (!env.urlGet) = true
  · rw [if_pos hget] at h
    cases h
  rw [if_neg hget] at h
  cases hdl : env.download (url ++ "/packages.pkg") with
  | ok file =>
    rw [hdl] at h
    cases h
    dsimp only
    split_ifs <;> exact ⟨rfl, rfl⟩
  | error message =>
    rw [hdl] at h
    cases h
    dsimp only
    split_ifs <;> exact ⟨rfl, rfl⟩

theorem downloads_keeps {env : Env} {urls : List String} {parser : List PackageId} {p : Pimpl}
    {r : List PackageId × Pimpl} (h : downloads env parser p urls = some r) :
    r.2.mResults = p.mResults ∧ r.2.localPackages = p.localPackages := by
  induction urls generalizing parser p with
  | nil =>
    cases h
    exact ⟨rfl, rfl⟩
  | cons url urls ih =>
    obtain ⟨⟨parser', p'⟩, hfirst, hrest⟩ := Option.bind_eq_some_iff.mp h
    obtain ⟨hresults, hlocals⟩ := download_keeps hfirst
    obtain ⟨hresults', hlocals'⟩ := ih hrest
    exact ⟨hresults'.trans hresults, hlocals'.trans hlocals⟩

/-- What `actionUpdate` adds to the results. -/
theorem actionUpdate_updates {env : Env} {p p' : Pimpl} (h : actionUpdate env p = some p') :
    p'.mResults = p.mResults ++ updates p.localPackages p'.remotePackages := by
  obtain ⟨⟨parser, q⟩, hdownloads, hq⟩ := Option.bind_eq_some_iff.mp h
  obtain ⟨hresults, hlocals⟩ := downloads_keeps hdownloads
  cases hq
  dsimp only at hresults hlocals
  rw [← hresults, ← hlocals]
  rfl

/-- A name of a local package of which there is a remote version newer than all local ones. -/
def Outdated (locals remotes : List PackageId) (name : String) : Prop :=
  (∃ l ∈ locals, l.name = name) ∧
    ∃ r ∈ remotes, r.name = name ∧ ∀ l ∈ locals, l.name = name → l.version < r.version

/-- The results of a name are the newest remote record when the name is outdated, and nothing
otherwise. -/
def UpdateSelects (locals remotes results : List PackageId) : Prop :=
  ∀ name, (Outdated locals remotes name →
      ∃ r, equalRange results name = [r] ∧ Newest remotes name r) ∧
    (¬ Outdated locals remotes name → equalRange results name = [])

/-- No remote record of a name is newer than a local one, or there is one local record, and the first
remote record that is newer is a newest one. -/
def UpdateMeets (locals remotes : List PackageId) (name : String) : Prop :=
  (∀ l ∈ locals, l.name = name → ∀ r ∈ remotes, r.name = name → r.version ≤ l.version) ∨
    ∃ l, equalRange locals name = [l] ∧ ∀ before r after, equalRange remotes name = before ++ r :: after →
      (∀ b ∈ before, b.version ≤ l.version) → l.version < r.version → Newest remotes name r

/-- The first remote record of its name that is newer than a local one. -/
def firstNewer (remotes : List PackageId) (l : PackageId) : Option PackageId :=
  (equalRange remotes l.name).find? (packageIdUpdate l)

theorem firstNewer_eq_some {remotes : List PackageId} {l r : PackageId} :
    firstNewer remotes l = some r ↔ l.version < r.version ∧ ∃ before after,
      equalRange remotes l.name = before ++ r :: after ∧ ∀ b ∈ before, b.version ≤ l.version := by
  have hnot : ∀ b ∈ equalRange remotes l.name, packageIdUpdate l b = false ↔ b.version ≤ l.version := by
    intro b hb
    rw [← Bool.not_eq_true, packageIdUpdate_iff, not_and, not_lt]
    exact ⟨fun h => h (mem_equalRange.mp hb).2.symm, fun h _ => h⟩
  rw [firstNewer, List.find?_eq_some_iff_append, packageIdUpdate_iff]
  constructor
  · rintro ⟨⟨-, hlt⟩, before, after, hrange, hbefore⟩
    refine ⟨hlt, before, after, hrange, fun b hb => (hnot b ?_).mp (by simpa using hbefore b hb)⟩
    rw [hrange]
    exact List.mem_append_left _ hb
  · rintro ⟨hlt, before, after, hrange, hbefore⟩
    have hr : r ∈ equalRange remotes l.name := by rw [hrange]; simp
    refine ⟨⟨(mem_equalRange.mp hr).2.symm, hlt⟩, before, after, hrange, fun b hb => ?_⟩
    have hb' : b ∈ equalRange remotes l.name := by
      rw [hrange]
      exact List.mem_append_left _ hb
    simpa using (hnot b hb').mpr (hbefore b hb)

theorem firstNewer_eq_none {remotes : List PackageId} {l : PackageId} :
    firstNewer remotes l = none ↔ ∀ r ∈ remotes, r.name = l.name → r.version ≤ l.version := by
  rw [firstNewer, List.find?_eq_none]
  simp only [mem_equalRange, and_imp]
  refine forall₂_congr fun r hr => ⟨fun h hname => ?_, fun h hname => ?_⟩
  · have := h hname
    rw [packageIdUpdate_iff, not_and, not_lt] at this
    exact this hname.symm
  · rw [packageIdUpdate_iff, not_and, not_lt]
    exact fun _ => h hname

/-- The updates of one name. -/
theorem equalRange_updates (locals remotes : List PackageId) (name : String) :
    equalRange (updates locals remotes) name =
      (equalRange locals name).filterMap (firstNewer remotes) := by
  have hname : ∀ l r, firstNewer remotes l = some r → r.name = l.name := by
    intro l r h
    obtain ⟨-, before, after, hrange, -⟩ := firstNewer_eq_some.mp h
    exact (mem_equalRange.mp (by rw [hrange]; simp)).2
  induction locals with
  | nil => rfl
  | cons l locals ih =>
    have hupdates : updates (l :: locals) remotes =
        (firstNewer remotes l).toList ++ updates locals remotes := by
      unfold updates firstNewer
      rw [List.filterMap_cons]
      cases (equalRange remotes l.name).find? (packageIdUpdate l) <;> rfl
    rw [hupdates]
    unfold equalRange at ih ⊢
    rw [List.filter_append, ih, List.filter_cons]
    by_cases hl : l.name = name
    · rw [if_pos (by simpa using hl), List.filterMap_cons]
      cases hfirst : firstNewer remotes l with
      | none => rfl
      | some r =>
        rw [Option.toList_some, List.filter_cons_of_pos (by simpa using (hname l r hfirst).trans hl)]
        rfl
    · rw [if_neg (by simpa using hl)]
      cases hfirst : firstNewer remotes l with
      | none => rfl
      | some r =>
        have hr : ¬ r.name = name := fun h => hl ((hname l r hfirst).symm.trans h)
        rw [Option.toList_some, List.filter_cons_of_neg (by simpa using hr)]
        rfl

theorem outdated_iff {locals remotes : List PackageId} {name : String} :
    Outdated locals remotes name ↔ equalRange locals name ≠ [] ∧
      ∃ r ∈ remotes, r.name = name ∧ ∀ l ∈ equalRange locals name, l.version < r.version := by
  have hlocal : (∃ l ∈ locals, l.name = name) ↔ equalRange locals name ≠ [] := by
    constructor
    · rintro ⟨l, hl⟩
      exact List.ne_nil_of_mem (mem_equalRange.mpr hl)
    · intro hne
      obtain ⟨l, hl⟩ := List.exists_mem_of_ne_nil _ hne
      exact ⟨l, mem_equalRange.mp hl⟩
  unfold Outdated
  rw [hlocal]
  simp only [mem_equalRange, and_imp]

/-- The results of a name are right exactly when the name meets the condition. -/
theorem updateSelects_iff (locals remotes : List PackageId) :
    UpdateSelects locals remotes (updates locals remotes) ↔ ∀ name, UpdateMeets locals remotes name := by
  refine forall_congr' fun name => ?_
  rw [equalRange_updates]
  have hnone : (∀ l ∈ locals, l.name = name → ∀ r ∈ remotes, r.name = name → r.version ≤ l.version) ↔
      (equalRange locals name).filterMap (firstNewer remotes) = [] := by
    rw [List.filterMap_eq_nil_iff]
    simp only [mem_equalRange, and_imp, firstNewer_eq_none]
    exact forall₃_congr fun l _ hname => by rw [hname]
  constructor
  · rintro ⟨houtdated, huptodate⟩
    by_cases hout : Outdated locals remotes name
    · obtain ⟨r, hr, hnewest⟩ := houtdated hout
      obtain ⟨hne, r', hr', hrname, hnewer⟩ := outdated_iff.mp hout
      -- every local record of the name has an update
      have hsome : ∀ l ∈ equalRange locals name, ∃ u, firstNewer remotes l = some u := by
        intro l hl
        refine Option.ne_none_iff_exists'.mp fun hnone => ?_
        have hlname := (mem_equalRange.mp hl).2
        exact absurd (hnewer l hl) (not_lt.mpr (firstNewer_eq_none.mp hnone r' hr' (hrname.trans hlname.symm)))
      cases hlocals : equalRange locals name with
      | nil => exact absurd hlocals hne
      | cons l rest =>
        rw [hlocals] at hr hsome
        obtain ⟨u, hu⟩ := hsome l List.mem_cons_self
        rw [List.filterMap_cons, hu, List.cons.injEq] at hr
        obtain ⟨rfl, hrest⟩ := hr
        have hnil : rest = [] := by
          cases rest with
          | nil => rfl
          | cons l' rest =>
            obtain ⟨u', hu'⟩ := hsome l' (by simp)
            rw [List.filterMap_cons, hu'] at hrest
            cases hrest
        subst hnil
        refine .inr ⟨l, hlocals, fun before r after hrange hbefore hlt => ?_⟩
        have hlname := (mem_equalRange.mp (hlocals ▸ List.mem_cons_self : l ∈ equalRange locals name)).2
        have hfirst : firstNewer remotes l = some r :=
          firstNewer_eq_some.mpr ⟨hlt, before, after, by rw [hlname]; exact hrange, hbefore⟩
        rw [hu, Option.some.injEq] at hfirst
        exact hfirst ▸ hnewest
    · exact .inl (hnone.mpr (huptodate hout))
  · rintro (h | ⟨l, hlocals, hfirst⟩)
    · refine ⟨fun hout => ?_, fun _ => hnone.mp h⟩
      obtain ⟨⟨l, hl, hlname⟩, r, hr, hrname, hnewer⟩ := hout
      exact absurd (hnewer l hl hlname) (not_lt.mpr (h l hl hlname r hr hrname))
    · have hlname := (mem_equalRange.mp (hlocals ▸ List.mem_cons_self : l ∈ equalRange locals name)).2
      rw [outdated_iff, hlocals]
      cases hu : firstNewer remotes l with
      | none =>
        refine ⟨fun ⟨_, r, hr, hrname, hnewer⟩ => ?_, fun _ => by simp [hu]⟩
        exact absurd (hnewer l List.mem_cons_self)
          (not_lt.mpr (firstNewer_eq_none.mp hu r hr (hrname.trans hlname.symm)))
      | some u =>
        obtain ⟨hlt, before, after, hrange, hbefore⟩ := firstNewer_eq_some.mp hu
        rw [hlname] at hrange
        have hnewest := hfirst before u after hrange hbefore hlt
        refine ⟨fun _ => ⟨u, by simp [hu], hnewest⟩, fun hnot => absurd ?_ hnot⟩
        exact ⟨by simp, u, hnewest.1, hnewest.2.1, fun l' hl' => by rwa [List.mem_singleton.mp hl']⟩

/-! ## Installations -/

/-- `newest` gives the package it starts from, or a later one, and none is more recent. -/
theorem newest_spec {it : PackageId} {range : List PackageId} (h : ∀ r ∈ range, r.name = it.name) :
    newest it range ∈ it :: range ∧ ∀ r ∈ it :: range, r.version ≤ (newest it range).version := by
  unfold newest
  induction range generalizing it with
  | nil => exact ⟨List.mem_cons_self, fun r hr => by rw [List.mem_singleton.mp hr]; rfl⟩
  | cons pkg range ih =>
    have hpkg := h pkg List.mem_cons_self
    rw [List.foldl_cons]
    by_cases hnewer : packageIdUpdate it pkg = true
    · rw [if_pos hnewer]
      obtain ⟨hmem, hle⟩ := ih fun r hr => (h r (List.mem_cons_of_mem pkg hr)).trans hpkg.symm
      refine ⟨List.mem_cons_of_mem it hmem, fun r hr => ?_⟩
      rcases List.mem_cons.mp hr with rfl | hr
      · exact ((packageIdUpdate_iff r pkg).mp hnewer).2.le.trans (hle pkg List.mem_cons_self)
      · exact hle r hr
    · rw [if_neg hnewer]
      obtain ⟨hmem, hle⟩ := ih fun r hr => h r (List.mem_cons_of_mem pkg hr)
      have hnot : pkg.version ≤ it.version := by
        rw [packageIdUpdate_iff, not_and, not_lt] at hnewer
        exact hnewer hpkg.symm
      refine ⟨?_, fun r hr => ?_⟩
      · rcases List.mem_cons.mp hmem with hmem | hmem
        · rw [hmem]
          exact List.mem_cons_self
        · exact List.mem_cons_of_mem it (List.mem_cons_of_mem pkg hmem)
      · rcases List.mem_cons.mp hr with rfl | hr
        · exact hle r List.mem_cons_self
        · rcases List.mem_cons.mp hr with rfl | hr
          · exact hnot.trans (hle it List.mem_cons_self)
          · exact hle r (List.mem_cons_of_mem it hr)

/-- An installation reports an error exactly when there is no remote record of the name. It does nothing
when a local record is at least as new as the newest remote one, and installs the newest remote record
when all are older. -/
def InstallSelects (p p' : Pimpl) : Prop :=
  (p'.mHasError = true ↔ ∀ r ∈ p.remotePackages, r.name ≠ p.mArgs) ∧
    ∀ it, Newest p.remotePackages p.mArgs it →
      ((∃ l ∈ p.localPackages, l.name = p.mArgs ∧ it.version ≤ l.version) →
        p' = { p with mHasError := false }) ∧
      ((∀ l ∈ p.localPackages, l.name = p.mArgs → l.version < it.version) →
        ∃ r, Newest p.remotePackages p.mArgs r ∧ p'.mResults = p.mResults ++ [r])

/-- When a local record is at least as new as the newest remote one, the first local one is. -/
def InstallMeets (locals remotes : List PackageId) (name : String) : Prop :=
  ∀ it, Newest remotes name it → (∃ l ∈ locals, l.name = name ∧ it.version ≤ l.version) →
    ∀ l rest, equalRange locals name = l :: rest → it.version ≤ l.version

/-- Records of the newest version have one version. -/
theorem Newest.version_eq {pkgs : List PackageId} {name : String} {r r' : PackageId}
    (h : Newest pkgs name r) (h' : Newest pkgs name r') : r.version = r'.version :=
  le_antisymm (h'.2.2 r h.1 h.2.1) (h.2.2 r' h'.1 h'.2.1)

section Install

variable {env : Env} (hget : env.urlGet = true) (hdownload : ∀ url, ∃ file, env.download url = .ok file)
  (hbuild : ∀ pkg, env.build pkg = true)
include hget hdownload hbuild

/-- An installation of a name with remote records, when what it downloads is there and can be built: the
first local record of the name decides. -/
theorem actionInstall_run {p : Pimpl} (hne : equalRange p.remotePackages p.mArgs ≠ []) :
    ∃ it, Newest p.remotePackages p.mArgs it ∧
      ((∀ l rest, equalRange p.localPackages p.mArgs = l :: rest → l.version < it.version) →
        actionInstall env p = some { p with
          mHasError := false
          mResults := p.mResults ++ [it] }) ∧
      ((∃ l rest, equalRange p.localPackages p.mArgs = l :: rest ∧ it.version ≤ l.version) →
        actionInstall env p = some { p with mHasError := false }) := by
  obtain ⟨first, range, hrange⟩ := List.exists_cons_of_ne_nil hne
  have hname : ∀ r ∈ first :: range, r.name = p.mArgs := fun r hr =>
    (mem_equalRange.mp (hrange ▸ hr : r ∈ equalRange p.remotePackages p.mArgs)).2
  have hfirst := hname first List.mem_cons_self
  have hsame : ∀ r ∈ first :: range, r.name = first.name := fun r hr => (hname r hr).trans hfirst.symm
  obtain ⟨hmem, hle⟩ := newest_spec hsame
  set it := newest first (first :: range) with hit
  have hmem' : it ∈ first :: range := by
    rcases List.mem_cons.mp hmem with h | h
    · rw [h]
      exact List.mem_cons_self
    · exact h
  have hitname := hname it hmem'
  have hin : ∀ r, r ∈ first :: range ↔ r ∈ p.remotePackages ∧ r.name = p.mArgs := fun r => by
    rw [← hrange, mem_equalRange]
  have hnewest : Newest p.remotePackages p.mArgs it := ⟨((hin it).mp hmem').1, hitname, fun r hr hrname =>
    hle r (List.mem_cons_of_mem first ((hin r).mpr ⟨hr, hrname⟩))⟩
  obtain ⟨file, hfile⟩ := hdownload (it.url ++ "/" ++ p.mArgs ++ ".tar.bz2")
  have hrun : actionInstall env p =
      if (equalRange p.localPackages p.mArgs).head?.any (!packageIdUpdate · it) then
        some { p with mHasError := false }
      else some { p with
        mHasError := false
        mResults := p.mResults ++ [it] } := by
    unfold actionInstall
    dsimp only
    rw [hrange]
    dsimp only
    rw [← hit, hitname, hget, hfile]
    simp [hbuild it]
  refine ⟨it, hnewest, fun hlocal => ?_, fun ⟨l, rest, hlocal, hversion⟩ => ?_⟩
  · rw [hrun, if_neg]
    cases hlocals : equalRange p.localPackages p.mArgs with
    | nil => simp
    | cons l rest =>
      have hlname := (mem_equalRange.mp
        (hlocals ▸ List.mem_cons_self : l ∈ equalRange p.localPackages p.mArgs)).2
      have := (packageIdUpdate_iff l it).mpr ⟨hlname.trans hitname.symm, hlocal l rest hlocals⟩
      simp [this]
  · have : packageIdUpdate l it = false := by
      rw [← Bool.not_eq_true, packageIdUpdate_iff, not_and, not_lt]
      exact fun _ => hversion
    rw [hrun, hlocal, if_pos (by simp [this])]

/-- An installation is right exactly when it meets the condition. -/
theorem installSelects_iff (p : Pimpl) :
    (∃ p', actionInstall env p = some p' ∧ InstallSelects p p') ↔
      InstallMeets p.localPackages p.remotePackages p.mArgs := by
  by_cases hne : equalRange p.remotePackages p.mArgs = []
  · have hnone : ∀ r ∈ p.remotePackages, r.name ≠ p.mArgs := fun r hr hname =>
      List.ne_nil_of_mem (mem_equalRange.mpr ⟨hr, hname⟩) hne
    have hrun : actionInstall env p =
        some (error { p with mHasError := false } ("Unknown package `" ++ p.mArgs ++ "'\n")) := by
      unfold actionInstall
      dsimp only
      rw [hne]
    refine ⟨fun _ it hit => absurd hit.2.1 (hnone it hit.1), fun _ => ⟨_, hrun, ?_, fun it hit => ?_⟩⟩
    · exact ⟨fun _ => hnone, fun _ => rfl⟩
    · exact absurd hit.2.1 (hnone it hit.1)
  obtain ⟨it, hnewest, holder, hnewer⟩ := actionInstall_run hget hdownload hbuild hne
  have hknown : ¬ ∀ r ∈ p.remotePackages, r.name ≠ p.mArgs := fun h => h it hnewest.1 hnewest.2.1
  constructor
  · rintro ⟨p', hrun, -, hselects⟩ it' hit' ⟨l, hl, hlname, hle⟩ first rest hlocals
    by_contra hlt
    have hnothing := (hselects it' hit').1 ⟨l, hl, hlname, hle⟩
    have hinstall := holder fun l' rest' hlocals' => by
      rw [hlocals, List.cons.injEq] at hlocals'
      rw [← hlocals'.1, hnewest.version_eq hit']
      exact not_le.mp hlt
    rw [hrun, Option.some.injEq, hnothing] at hinstall
    have := congrArg (fun q => q.mResults.length) hinstall
    simp at this
  · intro hmeets
    by_cases huptodate : ∃ l ∈ p.localPackages, l.name = p.mArgs ∧ it.version ≤ l.version
    · have hnil : equalRange p.localPackages p.mArgs ≠ [] := by
        obtain ⟨l, hl, hlname, -⟩ := huptodate
        exact List.ne_nil_of_mem (mem_equalRange.mpr ⟨hl, hlname⟩)
      obtain ⟨l, rest, hlocals⟩ := List.exists_cons_of_ne_nil hnil
      refine ⟨_, hnewer ⟨l, rest, hlocals, hmeets it hnewest huptodate l rest hlocals⟩, ?_, ?_⟩
      · exact ⟨fun h => (by cases h), fun h => absurd h hknown⟩
      · refine fun it' hit' => ⟨fun _ => rfl, fun hall => ?_⟩
        obtain ⟨l, hl, hlname, hle⟩ := huptodate
        exact absurd (hall l hl hlname) (not_lt.mpr (hit'.version_eq hnewest ▸ hle))
    · push Not at huptodate
      refine ⟨_, holder fun l rest hlocals => ?_, ?_, fun it' hit' => ⟨fun hold => ?_, fun _ => ?_⟩⟩
      · obtain ⟨hl, hlname⟩ := mem_equalRange.mp
          (hlocals ▸ List.mem_cons_self : l ∈ equalRange p.localPackages p.mArgs)
        exact huptodate l hl hlname
      · exact ⟨fun h => (by cases h), fun h => absurd h hknown⟩
      · obtain ⟨l, hl, hlname, hle⟩ := hold
        exact absurd (huptodate l hl hlname) (not_lt.mpr (hnewest.version_eq hit' ▸ hle))
      · exact ⟨it, hnewest, rfl⟩

/-- The updates and the installations select the newest versions exactly when every name meets the
conditions. The lists are the tables in the orders in which they enumerate the records. -/
theorem selects_iff (locals remotes : List PackageId) :
    (UpdateSelects locals remotes (updates locals remotes) ∧
      ∀ p : Pimpl, p.localPackages = locals → p.remotePackages = remotes →
        ∃ p', actionInstall env p = some p' ∧ InstallSelects p p') ↔
      ∀ name, UpdateMeets locals remotes name ∧ InstallMeets locals remotes name := by
  rw [updateSelects_iff, forall_and]
  refine and_congr_right fun _ => ⟨fun h name => ?_, ?_⟩
  · exact (installSelects_iff hget hdownload hbuild
      { localPackages := locals, remotePackages := remotes, mArgs := name }).mp (h _ rfl rfl)
  · rintro h p rfl rfl
    exact (installSelects_iff hget hdownload hbuild p).mpr (h p.mArgs)

end Install

/-- The record of a version of the package `a`. -/
def record (minor : ℤ) : PackageId := { name := "a", major := 1, minor := minor, patch := 0 }

/-- A package with one local record and a newer remote one. -/
theorem selects_iff_one :
    UpdateSelects [record 0] [record 1] (updates [record 0] [record 1]) := by
  have hmeets : ∀ name, UpdateMeets [record 0] [record 1] name ∧ InstallMeets [record 0] [record 1] name := by
    intro name
    by_cases hname : name = "a"
    · subst hname
      refine ⟨.inr ⟨record 0, by decide, fun before r after hrange _ _ => ?_⟩, fun it _ hold l rest hl => ?_⟩
      · have hr : r ∈ equalRange [record 1] "a" := by rw [hrange]; simp
        obtain rfl := List.mem_singleton.mp (mem_equalRange.mp hr).1
        exact ⟨List.mem_cons_self, rfl, fun r' hr' _ => by rw [List.mem_singleton.mp hr']⟩
      · obtain ⟨l', hl', -, hle⟩ := hold
        have hmem : l ∈ equalRange [record 0] "a" := by rw [hl]; exact List.mem_cons_self
        rwa [List.mem_singleton.mp (mem_equalRange.mp hmem).1, ← List.mem_singleton.mp hl']
    · refine ⟨.inl fun l hl hlname => ?_, fun it hit => ?_⟩
      · rw [List.mem_singleton.mp hl] at hlname
        exact absurd hlname.symm hname
      · rw [List.mem_singleton.mp hit.1] at hit
        exact absurd hit.2.1.symm hname
  exact ((selects_iff (show (⟨[], true, fun _ => .ok none, fun _ => "", fun _ => none, fun _ => true⟩ :
    Env).urlGet = true from rfl)
    (fun _ => ⟨none, rfl⟩) (fun _ => rfl) [record 0] [record 1]).mpr hmeets).1

/-- Of two newer remote records, the first one is taken, whichever it is. -/
theorem not_updateSelects : ¬ ∀ locals remotes, UpdateSelects locals remotes (updates locals remotes) := by
  intro h
  obtain ⟨r, hr, -, -, hnewest⟩ := (h [record 0] [record 1, record 2] "a").1
    ⟨⟨record 0, by decide, rfl⟩, record 1, by decide, rfl, by decide⟩
  obtain rfl : record 1 = r := by
    have : equalRange (updates [record 0] [record 1, record 2]) "a" = [record 1] := by decide
    rw [this] at hr
    exact (List.cons.inj hr).1
  exact absurd (hnewest (record 2) (by decide) rfl) (by decide)

end Pimpl

end Vle.Utils
