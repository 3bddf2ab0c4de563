import Vle.Lib.Runs
import Vle.Utils.PackageParser

/-!
# The remote manager

`start` runs an action in a thread, and `join` waits for it. An action is a function of the state of the
manager and of what the outside answers (`Env`); it has no result when an exception leaves it, which
ends the process. An action is one step, at the end of its thread: until it gives its flags back, every
`start` finds the manager started, and does nothing.

A manager is `Idle` again after an action exactly when the action is one that gives the flags back on
the way it takes (`Completes`), so a run stays usable exactly when each of its steps does
(`usable_along_iff`).
-/

namespace Vle.Utils

open Vle.Lib

/-- `RemoteManagerActions`. -/
inductive RemoteManagerActions where
  | update
  | source
  | install
  | localSearch
  | search
  | show
  | localShow
  deriving DecidableEq, Repr

/-- What the settings and the outside answer to an action. -/
structure Env where
  /-- `vle.remote.url`, which is empty when it is not set. -/
  remoteUrl : List Char
  /-- Whether `vle.command.url.get` is set. -/
  urlGet : Bool
  /-- What a download gives: a file, whose text can be read or not, or a message. -/
  download : String → Except String (Option (List Char))
  /-- The text of the exception for the package file of an url. -/
  parseError : String → String
  /-- `std::regex` with the grammar of grep, unless it throws, and `std::regex_search`, unless it
  throws. -/
  regex : String → Option (String → Option Bool)
  /-- Whether a package can be decompressed, configured, built and installed; otherwise one of these
  throws. -/
  build : PackageId → Bool

/-- The thread of an action: none that can be joined, one that runs, or one that has ended. -/
inductive ActionThread where
  | none
  | running (action : RemoteManagerActions)
  | ended
  deriving DecidableEq, Repr

/-- `RemoteManager::Pimpl`. -/
structure Pimpl where
  mThread : ActionThread := .none
  mResults : List PackageId := []
  localPackages : List PackageId
  remotePackages : List PackageId
  mArgs : String := ""
  mIsStarted : Bool := false
  mIsFinish : Bool := false
  mStop : Bool := false
  mHasError : Bool := false
  mErrorMessage : String := ""

namespace Pimpl

/-- The packages of a name, in a set that is kept by names. -/
def equalRange (pkgs : List PackageId) (name : String) : List PackageId := pkgs.filter (·.name = name)

/-- The start of an action, in a manager that is not started: none when the thread before has not been
joined, which `std::thread` answers with the end of the process. -/
def start (p : Pimpl) (action : RemoteManagerActions) (arg : String) : Option Pimpl :=
  if p.mIsStarted then some p
  else match p.mThread with
    | .none => some { p with
        mIsStarted := true
        mIsFinish := false
        mStop := false
        mHasError := false
        mArgs := arg
        mResults := []
        mThread := .running action }
    | _ => none

/-- The thread is joined, once it has ended. -/
def join (p : Pimpl) : Pimpl := { p with mThread := .none }

def stop (p : Pimpl) : Pimpl :=
  if p.mIsStarted && !p.mIsFinish then { p with mStop := true } else p

/-! ## The actions -/

/-- The end of an action that gives the flags back. -/
def restore (p : Pimpl) : Pimpl :=
  { p with mIsFinish := true, mIsStarted := false, mStop := false }

/-- An error. -/
def error (p : Pimpl) (message : String) : Pimpl :=
  { p with mErrorMessage := message, mHasError := true }

/-- `boost::split` at commas, where commas in a row count as one. -/
def splitUrls : List Char → List (List Char)
  | [] => [[]]
  | [c] => if c = ',' then [[], []] else [[c]]
  | c :: c' :: l =>
    if c = ',' then
      if c' = ',' then splitUrls (c' :: l) else [] :: splitUrls (c' :: l)
    else
      match splitUrls (c' :: l) with
      | url :: urls => (c :: url) :: urls
      | [] => [[c]]

/-- The urls of the distributions. -/
def urls (env : Env) : List String := (splitUrls env.remoteUrl).map String.ofList

/-- `PackageParser::extract` on the file of an url: the packages, and whether it throws. -/
def extractFile (url : String) : Option (List Char) → List PackageId × Bool
  | none => ([], true)
  | some text => ((extract url text).1, (extract url text).2.isSome)

/-- `Download`: the packages of an url after those that the parser has. The download manager throws when
there is no command. -/
def download (env : Env) (parser : List PackageId) (p : Pimpl) (url : String) :
    Option (List PackageId × Pimpl) :=
  if url = "" then some (parser, p)
  else if !env.urlGet then none
  else match env.download (url ++ "/packages.pkg") with
    | .ok file =>
      let (pkgs, throws) := extractFile url file
      let p := if throws then
          p.error ("failed while parsing packages.pkg file: " ++ env.parseError url ++ "\n")
        else p
      some (parser ++ pkgs, p)
    | .error message =>
      some (parser, if p.mHasError then p else p.error ("failed: " ++ message ++ "\n"))

/-- The loop over the urls. -/
def downloads (env : Env) : List PackageId → Pimpl → List String → Option (List PackageId × Pimpl)
  | parser, p, [] => some (parser, p)
  | parser, p, url :: urls => do
    let (parser, p) ← download env parser p url
    downloads env parser p urls

def actionUpdate (env : Env) (p : Pimpl) : Option Pimpl := do
  let (parser, p) ← downloads env [] { p with mHasError := false } (urls env)
  let updates := p.localPackages.filterMap fun ploc =>
    (equalRange parser ploc.name).find? (packageIdUpdate ploc)
  return restore { p with remotePackages := parser, mResults := p.mResults ++ updates }

/-- The most recent package of a range. -/
def newest (it : PackageId) (range : List PackageId) : PackageId :=
  range.foldl (fun it pkg => if packageIdUpdate it pkg then pkg else it) it

def actionInstall (env : Env) (p : Pimpl) : Option Pimpl :=
  let p := { p with mHasError := false }
  match equalRange p.remotePackages p.mArgs with
  | [] => some (p.error ("Unknown package `" ++ p.mArgs ++ "'\n"))
  | first :: range =>
    let it := newest first (first :: range)
    if (equalRange p.localPackages it.name).head?.any (!packageIdUpdate · it) then some p
    else if !env.urlGet then none
    else match env.download (it.url ++ "/" ++ p.mArgs ++ ".tar.bz2") with
      | .ok _ => if env.build it then some { p with mResults := p.mResults ++ [it] } else none
      | .error _ => some (p.error ("Error while downloading package `" ++ p.mArgs ++ "'\n"))

/-- The download of the archive of a package. -/
def downloadSource (env : Env) (p : Pimpl) : Option Pimpl :=
  match (equalRange p.remotePackages p.mArgs).head? with
  | some it =>
    if !env.urlGet then none
    else match env.download (it.url ++ "/" ++ p.mArgs ++ ".tar.bz2") with
      | .ok _ => some p
      | .error _ => some (p.error ("Error while downloading source package `" ++ p.mArgs ++ "'\n"))
  | none => some (p.error ("Unknown package `" ++ p.mArgs ++ "'\n"))

def actionSource (env : Env) (p : Pimpl) : Option Pimpl := do
  let p ← downloadSource env { p with mHasError := false }
  return restore { p with mResults := p.mResults ++ [{ name := p.mArgs }] }

/-- The negation of `NotHaveExpression`. -/
def haveExpression (search : String → Option Bool) (pkg : PackageId) : Option Bool := do
  if ← search pkg.name then
    return true
  else
    search pkg.description

/-- `std::remove_copy_if` with `NotHaveExpression`. -/
def removeCopyIf (search : String → Option Bool) : List PackageId → Option (List PackageId)
  | [] => some []
  | pkg :: pkgs => do
    let found ← haveExpression search pkg
    let rest ← removeCopyIf search pkgs
    return if found then pkg :: rest else rest

/-- `actionLocalSearch` and `actionSearch`, which throw when there is no such expression. -/
def searchIn (pkgs : List PackageId) (env : Env) (p : Pimpl) : Option Pimpl := do
  let expression ← env.regex p.mArgs
  let found ← removeCopyIf expression pkgs
  return restore { p with mResults := p.mResults ++ found, mHasError := false }

def actionLocalSearch (env : Env) (p : Pimpl) : Option Pimpl := searchIn p.localPackages env p

def actionSearch (env : Env) (p : Pimpl) : Option Pimpl := searchIn p.remotePackages env p

/-- `actionShow` and `actionLocalShow`; `kind` is in the text of the error. An end of a set is the null
node of every set. -/
def showIn (pkgs : List PackageId) (kind : String) (p : Pimpl) : Option Pimpl :=
  let p := { p with mHasError := false }
  match equalRange pkgs p.mArgs with
  | [] => some (p.error ("Unknown " ++ kind ++ " package `" ++ p.mArgs ++ "'\n"))
  | found => some (restore { p with mResults := p.mResults ++ found })

def actionShow (p : Pimpl) : Option Pimpl := showIn p.remotePackages "remote" p

def actionLocalShow (p : Pimpl) : Option Pimpl := showIn p.localPackages "local" p

/-- The function of an action. -/
def action (env : Env) : RemoteManagerActions → Pimpl → Option Pimpl
  | .update => actionUpdate env
  | .source => actionSource env
  | .install => actionInstall env
  | .localSearch => actionLocalSearch env
  | .search => actionSearch env
  | .show => actionShow
  | .localShow => actionLocalShow

/-- The end of the action that runs. -/
def finish (env : Env) (p : Pimpl) : Option Pimpl :=
  match p.mThread with
  | .running a => (action env a p).map fun p => { p with mThread := .ended }
  | _ => some p

/-- The constructor, with the packages that are known. -/
def init (localPackages remotePackages : List PackageId) : Pimpl := { localPackages, remotePackages }

end Pimpl

/-- What happens to a manager: what is called, and the end of its thread. -/
inductive Event where
  | start (action : RemoteManagerActions) (arg : String)
  | join
  | stop
  | finish (env : Env)

/-- The manager after an event, unless the process has ended. -/
def Event.run (p : Pimpl) : Event → Option Pimpl
  | start action arg => p.start action arg
  | join => some p.join
  | stop => some p.stop
  | finish env => p.finish env

/-- A `join` does not come back while the thread runs, and only a thread that runs ends. -/
def Event.Enabled (p : Pimpl) : Event → Prop
  | join => ∀ a, p.mThread ≠ .running a
  | finish _ => ∃ a, p.mThread = .running a
  | _ => True

namespace Pimpl

/-- The flags after an action that gives them back. -/
def Restored (p : Pimpl) : Prop := p.mIsStarted = false ∧ p.mIsFinish = true

/-- What a caller relies on: an action that has ended has given the flags back, and once it is joined
the next start runs its action. -/
structure Usable (p : Pimpl) : Prop where
  ended : p.mThread = .ended → p.Restored
  joined : p.mThread = .none → ∀ action arg, ∃ p', p.start action arg = some p' ∧
    p'.mThread = .running action ∧ p'.mArgs = arg

/-- The actions that give the flags back, and the ways they have to take for it: a command for the
downloads where there is one, an expression that can be searched, a package that is known. No way
through `actionInstall` does. -/
def Completes (env : Env) (p : Pimpl) : RemoteManagerActions → Prop
  | .update => (∀ url ∈ urls env, url = "") ∨ env.urlGet = true
  | .source => equalRange p.remotePackages p.mArgs = [] ∨ env.urlGet = true
  | .install => False
  | .localSearch => ∃ search, env.regex p.mArgs = some search ∧
      ∀ pkg ∈ p.localPackages, (haveExpression search pkg).isSome
  | .search => ∃ search, env.regex p.mArgs = some search ∧
      ∀ pkg ∈ p.remotePackages, (haveExpression search pkg).isSome
  | .show => equalRange p.remotePackages p.mArgs ≠ []
  | .localShow => equalRange p.localPackages p.mArgs ≠ []

end Pimpl

/-- An event after which the manager is usable: a start when the thread before has been joined, unless
its action still runs, and the end of an action that gives the flags back. -/
def Event.Meets (p : Pimpl) : Event → Prop
  | start _ _ => p.mThread ≠ .ended
  | finish env => ∀ a, p.mThread = .running a → p.Completes env a
  | _ => True

namespace Pimpl

/-! ## Each action -/

theorem restored_restore (p : Pimpl) : p.restore.Restored := ⟨rfl, rfl⟩

/-- When an action that is left through `restore` has an end, it gives the flags back. -/
theorem exists_restored_iff {x : Option Pimpl} (h : ∀ p, x = some p → p.Restored) :
    (∃ p, x = some p ∧ p.Restored) ↔ x.isSome := by
  cases x with
  | none => simp
  | some p => simpa using h p rfl

theorem download_isSome (env : Env) (parser : List PackageId) (p : Pimpl) (url : String) :
    (download env parser p url).isSome ↔ url = "" ∨ env.urlGet = true := by
  unfold download
  by_cases hurl : url = ""
  · simp [hurl]
  · by_cases hget : env.urlGet = true
    · rw [if_neg hurl, if_neg (by simp [hget])]
      cases env.download (url ++ "/packages.pkg") <;> simp [hget]
    · simp [hurl, hget]

/-- The loop over the urls comes to its end when every download does. -/
theorem downloads_isSome (env : Env) (urls : List String) (parser : List PackageId) (p : Pimpl) :
    (downloads env parser p urls).isSome ↔ (∀ url ∈ urls, url = "") ∨ env.urlGet = true := by
  induction urls generalizing parser p with
  | nil => simp [downloads]
  | cons url urls ih =>
    have hfirst := download_isSome env parser p url
    unfold downloads
    rcases hrun : download env parser p url with _ | ⟨parser', p'⟩
    · rw [hrun] at hfirst
      simp only [Option.isSome_none, Bool.false_eq_true, false_iff, not_or] at hfirst
      simp [hfirst]
    · rw [hrun] at hfirst
      have hrest := ih parser' p'
      simp only [Option.isSome_some, true_iff] at hfirst
      simp only [Option.bind_eq_bind, Option.bind_some, hrest, List.forall_mem_cons]
      tauto

theorem actionUpdate_completes (env : Env) (p : Pimpl) :
    (∃ p', actionUpdate env p = some p' ∧ p'.Restored) ↔ p.Completes env .update := by
  have hrestored : ∀ p', actionUpdate env p = some p' → p'.Restored := by
    intro p' h
    unfold actionUpdate at h
    obtain ⟨⟨parser, q⟩, -, hq⟩ := Option.bind_eq_some_iff.mp h
    obtain rfl := Option.some.inj hq
    exact restored_restore _
  rw [exists_restored_iff hrestored]
  refine Iff.trans ?_ (downloads_isSome env (urls env) [] { p with mHasError := false })
  unfold actionUpdate
  cases downloads env [] { p with mHasError := false } (urls env) <;> simp

theorem downloadSource_isSome (env : Env) (p : Pimpl) :
    (downloadSource env p).isSome ↔ equalRange p.remotePackages p.mArgs = [] ∨ env.urlGet = true := by
  unfold downloadSource
  cases equalRange p.remotePackages p.mArgs with
  | nil => simp
  | cons it range =>
    cases hdl : env.download (it.url ++ "/" ++ p.mArgs ++ ".tar.bz2") <;>
      cases hget : env.urlGet <;> simp [hdl]

theorem actionSource_completes (env : Env) (p : Pimpl) :
    (∃ p', actionSource env p = some p' ∧ p'.Restored) ↔ p.Completes env .source := by
  have hrestored : ∀ p', actionSource env p = some p' → p'.Restored := by
    intro p' h
    unfold actionSource at h
    obtain ⟨q, -, hq⟩ := Option.bind_eq_some_iff.mp h
    obtain rfl := Option.some.inj hq
    exact restored_restore _
  rw [exists_restored_iff hrestored]
  have hsome : (actionSource env p).isSome ↔ (downloadSource env { p with mHasError := false }).isSome := by
    unfold actionSource
    cases downloadSource env { p with mHasError := false } <;> simp
  exact hsome.trans (downloadSource_isSome env _)

/-- Installing never gives the flags back. -/
theorem actionInstall_started {env : Env} {p p' : Pimpl} (h : actionInstall env p = some p') :
    p'.mIsStarted = p.mIsStarted := by
  unfold actionInstall at h
  cases hrange : equalRange p.remotePackages p.mArgs with
  | nil =>
    simp only [hrange, Option.some.injEq] at h
    rw [← h]
    rfl
  | cons first range =>
    simp only [hrange] at h
    by_cases hupdated : (equalRange p.localPackages (newest first (first :: range)).name).head?.any
        (!packageIdUpdate · (newest first (first :: range)))
    · rw [if_pos hupdated] at h
      rw [← Option.some.inj h]
    · rw [if_neg hupdated] at h
      cases hget : env.urlGet with
      | false => simp [hget] at h
      | true =>
        rw [if_neg (by simp [hget])] at h
        cases hdl : env.download ((newest first (first :: range)).url ++ "/" ++ p.mArgs ++ ".tar.bz2") with
        | ok file =>
          simp only [hdl] at h
          split_ifs at h
          rw [← Option.some.inj h]
        | error message =>
          simp only [hdl] at h
          rw [← Option.some.inj h]
          rfl

theorem removeCopyIf_isSome (search : String → Option Bool) (pkgs : List PackageId) :
    (removeCopyIf search pkgs).isSome ↔ ∀ pkg ∈ pkgs, (haveExpression search pkg).isSome := by
  induction pkgs with
  | nil => simp [removeCopyIf]
  | cons pkg pkgs ih =>
    unfold removeCopyIf
    rw [List.forall_mem_cons, ← ih]
    cases haveExpression search pkg <;> cases removeCopyIf search pkgs <;> simp

theorem searchIn_completes (pkgs : List PackageId) (env : Env) (p : Pimpl) :
    (∃ p', searchIn pkgs env p = some p' ∧ p'.Restored) ↔
      ∃ search, env.regex p.mArgs = some search ∧ ∀ pkg ∈ pkgs, (haveExpression search pkg).isSome := by
  have hrestored : ∀ p', searchIn pkgs env p = some p' → p'.Restored := by
    intro p' h
    unfold searchIn at h
    obtain ⟨expression, -, h⟩ := Option.bind_eq_some_iff.mp h
    obtain ⟨found, -, hq⟩ := Option.bind_eq_some_iff.mp h
    obtain rfl := Option.some.inj hq
    exact restored_restore _
  rw [exists_restored_iff hrestored]
  unfold searchIn
  cases env.regex p.mArgs with
  | none => simp
  | some search =>
    have hfound := removeCopyIf_isSome search pkgs
    cases hrun : removeCopyIf search pkgs <;> simp_all

theorem showIn_completes (pkgs : List PackageId) (kind : String) (p : Pimpl) (hp : p.mIsStarted = true) :
    (∃ p', showIn pkgs kind p = some p' ∧ p'.Restored) ↔ equalRange pkgs p.mArgs ≠ [] := by
  unfold showIn
  cases hrange : equalRange pkgs p.mArgs with
  | nil =>
    simp only [hrange, ne_eq, not_true_eq_false, iff_false, not_exists, not_and]
    intro p' h hrestored
    rw [← Option.some.inj h] at hrestored
    exact absurd (hp.symm.trans hrestored.1) (by decide)
  | cons it range =>
    simp only [hrange]
    exact ⟨fun _ => by simp, fun _ => ⟨_, rfl, restored_restore _⟩⟩

/-- An action of a manager that is started gives the flags back exactly when it completes. -/
theorem action_completes (env : Env) (a : RemoteManagerActions) (p : Pimpl) (hp : p.mIsStarted = true) :
    (∃ p', action env a p = some p' ∧ p'.Restored) ↔ p.Completes env a := by
  cases a with
  | update => exact actionUpdate_completes env p
  | source => exact actionSource_completes env p
  | install =>
    refine ⟨fun ⟨p', h, hrestored⟩ => ?_, False.elim⟩
    exact absurd ((actionInstall_started h).symm.trans hrestored.1) (by simp [hp])
  | localSearch => exact searchIn_completes p.localPackages env p
  | search => exact searchIn_completes p.remotePackages env p
  | «show» => exact showIn_completes p.remotePackages "remote" p hp
  | localShow => exact showIn_completes p.localPackages "local" p hp

/-! ## Runs -/

/-- What holds of a manager as long as its actions complete: it is started exactly while an action
runs. -/
structure Inv (p : Pimpl) : Prop where
  none : p.mThread = .none → p.mIsStarted = false
  running : ∀ a, p.mThread = .running a → p.mIsStarted = true
  ended : p.mThread = .ended → p.Restored

theorem inv_init (localPackages remotePackages : List PackageId) :
    (init localPackages remotePackages).Inv :=
  ⟨fun _ => rfl, fun _ h => (by cases h), fun h => (by cases h)⟩

/-- A manager that is not started and whose thread is joined starts an action. -/
theorem start_of_none {p : Pimpl} (action : RemoteManagerActions) (arg : String)
    (hthread : p.mThread = .none) (hp : p.mIsStarted = false) :
    ∃ p', p.start action arg = some p' ∧ p'.mThread = .running action ∧ p'.mArgs = arg ∧
      p'.mIsStarted = true := by
  rw [start, if_neg (by simp [hp]), hthread]
  exact ⟨_, rfl, rfl, rfl, rfl⟩

theorem Inv.usable {p : Pimpl} (h : p.Inv) : p.Usable where
  ended := h.ended
  joined hthread action arg := by
    obtain ⟨p', hstart, hrunning, harg, -⟩ := start_of_none action arg hthread (h.none hthread)
    exact ⟨p', hstart, hrunning, harg⟩

/-- While its action runs, a manager ignores a start. -/
theorem start_of_started {p : Pimpl} (action : RemoteManagerActions) (arg : String)
    (hp : p.mIsStarted = true) : p.start action arg = some p := if_pos hp

/-- A start before the thread of the last action is joined ends the process. -/
theorem start_of_ended {p : Pimpl} (action : RemoteManagerActions) (arg : String)
    (hthread : p.mThread = .ended) (hp : p.mIsStarted = false) : p.start action arg = none := by
  rw [start, if_neg (by simp [hp]), hthread]

/-- A start in a manager that is in order. -/
theorem start_meets {p : Pimpl} (action : RemoteManagerActions) (arg : String) (h : p.Inv)
    (hthread : p.mThread ≠ .ended) : ∃ p', p.start action arg = some p' ∧ p'.Inv := by
  cases hcase : p.mThread with
  | none =>
    obtain ⟨p', hstart, hrunning, -, hstarted⟩ := start_of_none action arg hcase (h.none hcase)
    refine ⟨p', hstart, fun hnone => ?_, fun _ _ => hstarted, fun hended => ?_⟩
    · rw [hrunning] at hnone
      cases hnone
    · rw [hrunning] at hended
      cases hended
  | running a => exact ⟨p, start_of_started action arg (h.running a hcase), h⟩
  | ended => exact absurd hcase hthread

theorem inv_join {p : Pimpl} (h : p.Inv) (henabled : ∀ a, p.mThread ≠ .running a) : p.join.Inv := by
  refine ⟨fun _ => ?_, fun _ hrunning => (by cases hrunning), fun hended => (by cases hended)⟩
  cases hcase : p.mThread with
  | none => exact h.none hcase
  | running a => exact absurd hcase (henabled a)
  | ended => exact (h.ended hcase).1

theorem inv_stop {p : Pimpl} (h : p.Inv) : p.stop.Inv := by
  unfold stop
  split_ifs
  · exact ⟨h.none, h.running, h.ended⟩
  · exact h

/-- The end of an action leaves the manager in order exactly when the action completes. -/
theorem finish_meets {p : Pimpl} {a : RemoteManagerActions} (env : Env) (h : p.Inv)
    (hthread : p.mThread = .running a) :
    (∃ p', p.finish env = some p' ∧ p'.mThread = .ended ∧ p'.Restored) ↔ p.Completes env a := by
  rw [← action_completes env a p (h.running a hthread)]
  constructor
  · rintro ⟨p', hfinish, -, hrestored⟩
    rw [finish, hthread] at hfinish
    obtain ⟨q, hq, rfl⟩ := Option.map_eq_some_iff.mp hfinish
    exact ⟨q, hq, hrestored⟩
  · rintro ⟨q, hq, hrestored⟩
    refine ⟨{ q with mThread := .ended }, ?_, rfl, hrestored⟩
    rw [finish, hthread]
    exact Option.map_eq_some_iff.mpr ⟨q, hq, rfl⟩

/-- An action that has ended is not usable unless it has given the flags back. -/
theorem finish_ended {p p' : Pimpl} {a : RemoteManagerActions} {env : Env}
    (hthread : p.mThread = .running a) (h : p.finish env = some p') : p'.mThread = .ended := by
  rw [finish, hthread] at h
  obtain ⟨q, -, rfl⟩ := Option.map_eq_some_iff.mp h
  rfl

end Pimpl

/-- An event that meets its condition keeps the manager in order. -/
theorem Event.inv {p p' : Pimpl} {e : Event} (h : p.Inv) (henabled : e.Enabled p) (hmeets : e.Meets p)
    (hrun : e.run p = some p') : p'.Inv := by
  cases e with
  | start action arg =>
    obtain ⟨q, hq, hinv⟩ := Pimpl.start_meets action arg h hmeets
    obtain rfl : q = p' := Option.some.inj (hq.symm.trans hrun)
    exact hinv
  | join =>
    obtain rfl : p.join = p' := Option.some.inj hrun
    exact Pimpl.inv_join h henabled
  | stop =>
    obtain rfl : p.stop = p' := Option.some.inj hrun
    exact Pimpl.inv_stop h
  | finish env =>
    obtain ⟨a, hthread⟩ := henabled
    obtain ⟨q, hq, hended, hrestored⟩ := (Pimpl.finish_meets env h hthread).mpr (hmeets a hthread)
    obtain rfl : q = p' := Option.some.inj (hq.symm.trans hrun)
    refine ⟨fun hnone => ?_, fun b hrunning => ?_, fun _ => hrestored⟩
    · rw [hended] at hnone
      cases hnone
    · rw [hended] at hrunning
      cases hrunning

/-- An event leaves a usable manager exactly when it meets its condition. -/
theorem Event.usable_iff {p : Pimpl} {e : Event} (h : p.Inv) (henabled : e.Enabled p) :
    (∃ p', e.run p = some p' ∧ p'.Usable) ↔ e.Meets p := by
  constructor
  · rintro ⟨p', hrun, husable⟩
    cases e with
    | start action arg =>
      intro hthread
      have hnone := Pimpl.start_of_ended action arg hthread (h.ended hthread).1
      exact absurd (hnone.symm.trans hrun) (by simp)
    | join => exact trivial
    | stop => exact trivial
    | finish env =>
      intro a hthread
      have hended := Pimpl.finish_ended hthread hrun
      exact (Pimpl.finish_meets env h hthread).mp ⟨p', hrun, hended, husable.ended hended⟩
  · intro hmeets
    have hsome : ∃ p', e.run p = some p' := by
      cases e with
      | start action arg =>
        obtain ⟨p', hstart, -⟩ := Pimpl.start_meets action arg h hmeets
        exact ⟨p', hstart⟩
      | join => exact ⟨_, rfl⟩
      | stop => exact ⟨_, rfl⟩
      | finish env =>
        obtain ⟨a, hthread⟩ := henabled
        obtain ⟨p', hfinish, -⟩ := (Pimpl.finish_meets env h hthread).mpr (hmeets a hthread)
        exact ⟨p', hfinish⟩
    obtain ⟨p', hrun⟩ := hsome
    exact ⟨p', hrun, (Event.inv h henabled hmeets hrun).usable⟩

/-- A run leaves a usable manager after each of its events exactly when each of them meets its
condition. -/
theorem usable_along_iff (localPackages remotePackages : List PackageId) (es : List Event)
    (henabled : Along Event.run Event.Enabled (.init localPackages remotePackages) es) :
    Along Event.run (fun p e => ∃ p', e.run p = some p' ∧ p'.Usable) (.init localPackages remotePackages)
      es ↔ Along Event.run Event.Meets (.init localPackages remotePackages) es :=
  along_iff (fun _ _ => Event.usable_iff) (fun _ _ _ h henabled hmeets => Event.inv h henabled hmeets)
    (Pimpl.inv_init localPackages remotePackages) henabled

/-- Nothing can be downloaded or searched. -/
def offline : Env where
  remoteUrl := []
  urlGet := false
  download _ := .error "no network"
  parseError _ := ""
  regex _ := none
  build _ := false

theorem usable_along_show : Along Event.run (fun p e => ∃ p', e.run p = some p' ∧ p'.Usable)
    (.init [] [{ name := "vle.output" }])
    [.start .show "vle.output", .finish offline, .join, .start .update ""] := by
  refine (usable_along_iff [] [{ name := "vle.output" }] _ ?_).mpr ?_
  · refine ⟨trivial, fun p hp => ⟨⟨.show, ?_⟩, fun q hq => ⟨fun a => ?_, fun r _ => ⟨trivial, fun _ _ => trivial⟩⟩⟩⟩
    · obtain rfl := Option.some.inj hp
      rfl
    · obtain rfl := Option.some.inj hp
      obtain rfl := Option.some.inj hq
      simp
  · refine ⟨by simp [Event.Meets, Pimpl.init], fun p hp => ⟨fun a ha => ?_, fun q hq => ⟨trivial, fun r hr => ⟨?_, fun _ _ => trivial⟩⟩⟩⟩
    · obtain rfl := Option.some.inj hp
      obtain rfl : RemoteManagerActions.show = a := ActionThread.running.inj ha
      simp [Pimpl.Completes, Pimpl.equalRange, Pimpl.init]
    · obtain rfl := Option.some.inj hr
      simp [Event.Meets, Pimpl.join]

/-- A package that is not known leaves the manager started. -/
theorem not_usable_along : ¬ ∀ (localPackages remotePackages : List PackageId) (es : List Event),
    Along Event.run Event.Enabled (.init localPackages remotePackages) es →
    Along Event.run (fun p e => ∃ p', e.run p = some p' ∧ p'.Usable)
      (.init localPackages remotePackages) es := by
  intro h
  have hshow := h [] [] [.start .show "vle.output", .finish offline]
    ⟨trivial, fun p hp => ⟨⟨.show, by obtain rfl := Option.some.inj hp; rfl⟩, fun _ _ => trivial⟩⟩
  obtain ⟨⟨p', hfinish, husable⟩, -⟩ := hshow.2 _ rfl
  obtain rfl := Option.some.inj hfinish
  exact absurd (husable.ended rfl).1 (by decide)

end Vle.Utils
