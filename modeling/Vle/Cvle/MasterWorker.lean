import Mathlib.Algebra.BigOperators.Group.Finset.Basic
import Mathlib.Order.Interval.Finset.Nat
import Mathlib.Logic.Relation
import Vle.Cvle.Root

/-!
# Master and workers

`run_as_master` sends the header to every worker, then a block to each one in turn, then a block to
the worker whose answer it receives, until there is no more block; it waits for the answers that are
owed to it and sends the end message. `run_as_worker` answers each block. Messages of one pair of
processes stay in order, and any process that can do so takes the next step.

`Handles` says what is to be expected of every run: the master never waits in vain, the end message of
a worker comes after its last answer, runs come to an end, and at the end each line has been sent once
and each answer written once.
-/

namespace Vle.Cvle

/-- What the master sends: the header, a block, which is given the number of its turn, or the end. -/
inductive Message where
  | header (header : Text)
  | todo (id : ℕ) (block : Block)
  | finish

/-- Where a worker stands in `run_as_worker`. `S` is what it keeps between two blocks. -/
inductive WorkerPc (S : Type) where
  | waiting
  | ready (worker : S)
  | exited
  | aborted

/-- A worker, the messages under way between it and the master, and whether the master counts it as
busy in `workers`. An answer carries the number of its block. -/
structure Link (S : Type) where
  toWorker : List Message := []
  worker : WorkerPc S := .waiting
  toMaster : List (ℕ × Text) := []
  busy : Bool := false

/-- Where the master stands in `run_as_master`. -/
inductive MasterPc where
  | headers (rank : ℕ)
  | firstRound (rank : ℕ)
  | steady
  | drain
  | finish (rank : ℕ)
  | done

/-- What the processes are started with: the input, the number of workers and the block size. A worker
is built from the header, and a block changes it and gives an answer. -/
structure Job (S : Type) where
  text : Text
  workers : ℕ
  blocksize : ℕ
  init : Text → S
  run : S → Block → S × Text

/-- The processes. `sent` records the blocks sent, each with the worker it went to, `answers` what the
workers answered, and `written` what the master wrote. -/
structure System (S : Type) where
  root : Root
  header : Text
  master : MasterPc := .headers 1
  links : ℕ → Link S := fun _ => {}
  sent : List (ℕ × Block) := []
  answers : List (ℕ × Text) := []
  written : List (ℕ × Text) := []

namespace System

variable {S : Type}

/-- The processes at their start, the master having read the header. -/
def start (J : Job S) : System S :=
  let (header, root) := ({ is := { rest := J.text }, blocksize := J.blocksize } : Root).header
  { root, header }

def setLink (s : System S) (rank : ℕ) (l : Link S) : System S :=
  { s with links := Function.update s.links rank l }

/-- `mpi_send_string`. -/
def send (s : System S) (rank : ℕ) (m : Message) : System S :=
  s.setLink rank { s.links rank with toWorker := (s.links rank).toWorker ++ [m] }

/-- `mpi_send_block`, after which the worker is busy. -/
def sendBlock (s : System S) (rank : ℕ) (block : Block) : System S :=
  { s.setLink rank { s.links rank with
      toWorker := (s.links rank).toWorker ++ [.todo s.sent.length block], busy := true } with
    sent := s.sent ++ [(rank, block)] }

/-- The master takes an answer, and writes it. -/
def receive (s : System S) (source : ℕ) (answer : ℕ × Text) (rest : List (ℕ × Text)) : System S :=
  { s.setLink source { s.links source with toMaster := rest, busy := false } with
    written := s.written ++ [answer] }

/-- One step of the master; `source` is the worker whose message it takes, if it takes one. -/
def masterStep (J : Job S) (s : System S) (source : ℕ) : Option (System S) :=
  match s.master with
  | .headers rank =>
    if rank ≤ J.workers then
      some { s.send rank (.header s.header) with master := .headers (rank + 1) }
    else
      some { s with master := .firstRound 1 }
  | .firstRound rank =>
    if rank ≤ J.workers then
      let (found, block, root) := s.root.read
      if found then
        some { s.sendBlock rank block with root, master := .firstRound (rank + 1) }
      else
        some { s with root, master := .steady }
    else
      some { s with master := .steady }
  | .steady =>
    match (s.links source).toMaster with
    | [] => none
    | answer :: rest =>
      let s := s.receive source answer rest
      let (found, block, root) := s.root.read
      let s := if block.text.isEmpty then s else s.sendBlock source block
      some { s with root, master := if found then .steady else .drain }
  | .drain =>
    if ∃ rank ∈ Finset.Icc 1 J.workers, (s.links rank).busy = true then
      match (s.links source).toMaster with
      | [] => none
      | answer :: rest => some (s.receive source answer rest)
    else
      some { s with master := .finish 1 }
  | .finish rank =>
    if rank ≤ J.workers then
      some { s.send rank .finish with master := .finish (rank + 1) }
    else
      some { s with master := .done }
  | .done => none

/-- One step of a worker. -/
def workerStep (J : Job S) (s : System S) (rank : ℕ) : Option (System S) :=
  match (s.links rank).toWorker with
  | [] => none
  | m :: rest =>
    match (s.links rank).worker, m with
    | .waiting, .header header =>
      some (s.setLink rank
        { s.links rank with toWorker := rest, worker := .ready (J.init header) })
    | .ready w, .todo id block =>
      let (w, answer) := J.run w block
      some { s.setLink rank { s.links rank with
          toWorker := rest, worker := .ready w,
          toMaster := (s.links rank).toMaster ++ [(id, answer)] } with
        answers := s.answers ++ [(id, answer)] }
    | .ready _, .finish =>
      some (s.setLink rank { s.links rank with toWorker := rest, worker := .exited })
    | .exited, _ => none
    | _, _ =>
      -- `MPI_Abort`
      some (s.setLink rank { s.links rank with toWorker := rest, worker := .aborted })

/-- A step of a process. -/
def Step (J : Job S) (s s' : System S) : Prop :=
  ∃ rank ∈ Finset.Icc 1 J.workers, s.masterStep J rank = some s' ∨ s.workerStep J rank = some s'

/-- The states that the processes can come to. -/
def Reachable (J : Job S) (s : System S) : Prop := Relation.ReflTransGen (Step J) (start J) s

/-- The worker owes the answer to a block, which is under way in one direction or the other. -/
def Owes (s : System S) (rank : ℕ) : Prop :=
  (∃ id block, .todo id block ∈ (s.links rank).toWorker) ∨ (s.links rank).toMaster ≠ []

/-- The master stands at a receive. -/
def Waits (J : Job S) (s : System S) : Prop :=
  match s.master with
  | .steady => True
  | .drain => ∃ rank ∈ Finset.Icc 1 J.workers, (s.links rank).busy = true
  | _ => False

/-- The end message of a worker has been sent. -/
def Ended (s : System S) (rank : ℕ) : Prop :=
  .finish ∈ (s.links rank).toWorker ∨ (s.links rank).worker = .exited

/-- Blocks of the given lines, with row identifiers that follow on from `n`. -/
def layout : ℕ → List (List Text) → List Block
  | _, [] => []
  | n, c :: cs => ⟨unlines c, n, n + c.length⟩ :: layout (n + c.length) cs

/-- The blocks sent hold the given lines, in order and with consecutive identifiers. -/
def Sent (J : Job S) (s : System S) (lines : List Text) : Prop :=
  ∃ cuts : List (List Text), s.sent.map (·.2) = layout 0 cuts ∧ cuts.flatten = lines ∧
    (∀ c ∈ cuts, c.length ≤ J.blocksize) ∧ ∀ b ∈ s.sent, b.1 ∈ Finset.Icc 1 J.workers

/-- The master and the workers have come to their ends, each line has been sent in one block, each
block has been answered once, and each answer written once. -/
structure Complete (J : Job S) (s : System S) : Prop where
  done : s.master = .done
  exited : ∀ rank ∈ Finset.Icc 1 J.workers, (s.links rank).worker = .exited
  sent : s.Sent J (dataLines J.text)
  answered : (s.answers.map (·.1)).Perm (List.range s.sent.length)
  answer : ∀ a ∈ s.answers, ∃ b ∈ s.sent[a.1]?, ∃ worker, a.2 = (J.run worker b.2).2
  written : s.written.Perm s.answers

/-- The next step is one of a run that ends. -/
def Terminates (J : Job S) (s : System S) : Prop := Acc (fun s₂ s₁ => Step J s₁ s₂) s

end System

/-- Every run of the job does what it should. In each state reached, the lines sent so far are the
first ones, in blocks, no block is answered twice and no answer written twice. -/
structure Handles {S : Type} (J : Job S) : Prop where
  waits : ∀ s, System.Reachable J s → s.Waits J → ∃ rank ∈ Finset.Icc 1 J.workers, s.Owes rank
  sent : ∀ s, System.Reachable J s → ∃ lines, lines <+: dataLines J.text ∧ s.Sent J lines
  once : ∀ s, System.Reachable J s → (s.answers.map (·.1)).Nodup ∧ s.written.Subperm s.answers
  ended : ∀ s, System.Reachable J s → ∀ rank ∈ Finset.Icc 1 J.workers, s.Ended rank → ¬ s.Owes rank
  terminates : ∀ s, System.Reachable J s → s.Terminates J
  complete : ∀ s, System.Reachable J s → (∀ s', ¬ System.Step J s s') → s.Complete J

end Vle.Cvle
