import Vle.Cvle.MasterWorker
import Vle.Lib.Runs

/-!
# Every row is handled once

The states of the conversation between the master and one worker are listed in `Conversation`. `Core`
says that every conversation is in one of them, and counts: the numbers of the blocks answered and of
those on their way to a worker are those of the blocks sent, and the answers written and on their way
are those given. `Inv` adds what depends on the place of the master, in particular what the reads to
come will find (`Root.Ends`), which makes the condition of `handles_iff` exact.
-/

namespace Vle.Cvle

open Finset Lib

variable {S : Type}

/-- The states of the conversation with a worker, by whether the header has been sent to it, and the
end message. -/
inductive Conversation (header : Text) : Bool → Bool → Link S → Prop
  | fresh : Conversation header false false {}
  | called : Conversation header true false { toWorker := [.header header] }
  | calledTodo (id : ℕ) (block : Block) :
    Conversation header true false
      { toWorker := [.header header, .todo id block], busy := true }
  | calledFinish : Conversation header true true { toWorker := [.header header, .finish] }
  | idle (w : S) : Conversation header true false { worker := .ready w }
  | todo (w : S) (id : ℕ) (block : Block) :
    Conversation header true false
      { toWorker := [.todo id block], worker := .ready w, busy := true }
  | answered (w : S) (answer : ℕ × Text) :
    Conversation header true false { worker := .ready w, toMaster := [answer], busy := true }
  | ending (w : S) : Conversation header true true { toWorker := [.finish], worker := .ready w }
  | exited : Conversation header true true { worker := .exited }

/-- The numbers of the blocks on their way to a worker. -/
def Link.todoIds (l : Link S) : Multiset ℕ :=
  (l.toWorker.filterMap fun
    | .todo id _ => some id
    | _ => none : List ℕ)

namespace System

/-- What holds wherever the master stands; `called` and `ended` tell the workers that the header and
the end message have been sent to. -/
structure Core (J : Job S) (s : System S) (called ended : ℕ → Bool) : Prop where
  link : ∀ rank ∈ Icc 1 J.workers,
    Conversation s.header (called rank) (ended rank) (s.links rank)
  ids : ((s.answers.map (·.1) : List ℕ) : Multiset ℕ) +
    ∑ rank ∈ Icc 1 J.workers, (s.links rank).todoIds = Multiset.range s.sent.length
  written : (s.written : Multiset (ℕ × Text)) +
    ∑ rank ∈ Icc 1 J.workers, ((s.links rank).toMaster : Multiset (ℕ × Text)) = s.answers
  todo : ∀ rank ∈ Icc 1 J.workers, ∀ id block, .todo id block ∈ (s.links rank).toWorker →
    s.sent[id]? = some (rank, block)
  answer : ∀ a ∈ s.answers, ∃ b ∈ s.sent[a.1]?, ∃ worker, a.2 = (J.run worker b.2).2
  ranks : ∀ b ∈ s.sent, b.1 ∈ Icc 1 J.workers

section Core

variable {J : Job S} {s : System S} {called ended : ℕ → Bool}

/-- A change of one conversation. -/
theorem Core.setLink (h : s.Core J called ended) {rank : ℕ} (hr : rank ∈ Icc 1 J.workers)
    {called' ended' : ℕ → Bool} (hc : ∀ r, r ≠ rank → called' r = called r)
    (he : ∀ r, r ≠ rank → ended' r = ended r) {l : Link S}
    (hl : Conversation s.header (called' rank) (ended' rank) l)
    (hids : l.todoIds = (s.links rank).todoIds) (hans : l.toMaster = (s.links rank).toMaster)
    (htodo : ∀ id block, .todo id block ∈ l.toWorker → .todo id block ∈ (s.links rank).toWorker) :
    (s.setLink rank l).Core J called' ended' := by
  refine ⟨fun r hr' => ?_, ?_, ?_, fun r hr' id block hmem => ?_, h.answer, h.ranks⟩
  · by_cases hrr : r = rank
    · subst hrr
      simpa [System.setLink] using hl
    · rw [hc r hrr, he r hrr]
      simpa [System.setLink, Function.update_of_ne hrr] using h.link r hr'
  · have := sum_update Link.todoIds s.links hr l
    rw [hids] at this
    exact (congrArg _ (add_right_cancel this)).trans h.ids
  · have := sum_update (fun l : Link S => (l.toMaster : Multiset (ℕ × Text))) s.links hr l
    rw [hans] at this
    exact (congrArg _ (add_right_cancel this)).trans h.written
  · by_cases hrr : r = rank
    · subst hrr
      exact h.todo r hr id block (htodo id block (by simpa [System.setLink] using hmem))
    · exact h.todo r hr' id block (by simpa [System.setLink, Function.update_of_ne hrr] using hmem)

/-- The header goes to a worker that has not got it. -/
theorem Core.sendHeader (h : s.Core J called ended) {rank : ℕ} (hr : rank ∈ Icc 1 J.workers)
    (hcalled : called rank = false) (hended : ended rank = false) {called' : ℕ → Bool}
    (hc : ∀ r, r ≠ rank → called' r = called r) (hc' : called' rank = true) :
    (s.send rank (.header s.header)).Core J called' ended := by
  have hlink := h.link rank hr
  rw [hcalled, hended] at hlink
  refine h.setLink hr hc (fun _ _ => rfl) ?_ ?_ rfl ?_
  · rw [hc', hended]
    cases hlk : s.links rank with
    | mk a b c d =>
      rw [hlk] at hlink
      cases hlink
      exact .called
  · simp [Link.todoIds, List.filterMap_append]
  · simp

/-- The end message goes to a worker that owes nothing. -/
theorem Core.sendFinish (h : s.Core J called ended) {rank : ℕ} (hr : rank ∈ Icc 1 J.workers)
    (hcalled : called rank = true) (hended : ended rank = false)
    (hbusy : (s.links rank).busy = false) {ended' : ℕ → Bool}
    (he : ∀ r, r ≠ rank → ended' r = ended r) (he' : ended' rank = true) :
    (s.send rank .finish).Core J called ended' := by
  have hlink := h.link rank hr
  rw [hcalled, hended] at hlink
  refine h.setLink hr (fun _ _ => rfl) he ?_ ?_ rfl ?_
  · rw [hcalled, he']
    cases hlk : s.links rank with
    | mk a b c d =>
      rw [hlk] at hlink hbusy
      cases hlink with
      | called => exact .calledFinish
      | idle w => exact .ending w
      | calledTodo | todo | answered => cases hbusy
  · simp [Link.todoIds, List.filterMap_append]
  · simp

/-- A block goes to a worker that owes nothing. -/
theorem Core.sendBlock (h : s.Core J called ended) {rank : ℕ} (hr : rank ∈ Icc 1 J.workers)
    (hcalled : called rank = true) (hended : ended rank = false)
    (hbusy : (s.links rank).busy = false) (block : Block) :
    (s.sendBlock rank block).Core J called ended := by
  have hlink := h.link rank hr
  rw [hcalled, hended] at hlink
  have hget : ∀ id b, s.sent[id]? = some b → (s.sent ++ [(rank, block)])[id]? = some b :=
    fun id b hb => by
      rw [List.getElem?_append_left (List.getElem?_eq_some_iff.mp hb).1, hb]
  refine ⟨fun r hr' => ?_, ?_, ?_, fun r hr' id b hmem => ?_, fun a ha => ?_, fun b hb => ?_⟩
  · by_cases hrr : r = rank
    · subst hrr
      rw [hcalled, hended]
      cases hlk : s.links r with
      | mk a b c d =>
        rw [hlk] at hlink hbusy
        simp only [System.sendBlock, System.setLink, Function.update_self, hlk]
        cases hlink with
        | called => exact .calledTodo _ block
        | idle w => exact .todo w _ block
        | calledTodo | todo | answered => cases hbusy
    · simpa [System.sendBlock, System.setLink, Function.update_of_ne hrr] using h.link r hr'
  · have := sum_update Link.todoIds s.links hr { s.links rank with
      toWorker := (s.links rank).toWorker ++ [.todo s.sent.length block], busy := true }
    have hnew : ({ s.links rank with
        toWorker := (s.links rank).toWorker ++ [.todo s.sent.length block],
        busy := true } : Link S).todoIds = (s.links rank).todoIds + {s.sent.length} := by
      simp only [Link.todoIds, List.filterMap_append]
      rfl
    rw [hnew, ← add_assoc, add_right_comm] at this
    have hsum := add_right_cancel this
    simp only [System.sendBlock, System.setLink, List.length_append, List.length_singleton,
      Multiset.range_succ]
    rw [hsum, ← add_assoc, h.ids, ← Multiset.singleton_add, add_comm]
  · have := sum_update (fun l : Link S => (l.toMaster : Multiset (ℕ × Text))) s.links hr
      { s.links rank with
        toWorker := (s.links rank).toWorker ++ [.todo s.sent.length block], busy := true }
    exact (congrArg _ (add_right_cancel this)).trans h.written
  · by_cases hrr : r = rank
    · subst hrr
      simp only [System.sendBlock, System.setLink, Function.update_self, List.mem_append,
        List.mem_singleton, Message.todo.injEq] at hmem ⊢
      rcases hmem with hmem | ⟨rfl, rfl⟩
      · exact hget id _ (h.todo r hr id b hmem)
      · simp
    · simp only [System.sendBlock, System.setLink, Function.update_of_ne hrr] at hmem
      exact hget id _ (h.todo r hr' id b hmem)
  · obtain ⟨b, hb, w, hw⟩ := h.answer a ha
    exact ⟨b, hget a.1 b hb, w, hw⟩
  · rcases List.mem_append.mp hb with hb | hb
    · exact h.ranks b hb
    · rw [List.mem_singleton] at hb
      rw [hb]
      exact hr

/-- The master takes the answer of a worker, which then owes nothing. -/
theorem Core.receive (h : s.Core J called ended) {rank : ℕ} (hr : rank ∈ Icc 1 J.workers)
    {answer : ℕ × Text} {rest : List (ℕ × Text)}
    (hget : (s.links rank).toMaster = answer :: rest) :
    (s.receive rank answer rest).Core J called ended ∧ called rank = true ∧ ended rank = false := by
  have hlink := h.link rank hr
  -- Only one state of the conversation has an answer on its way.
  obtain ⟨w, hlk, hcalled, hended, rfl⟩ : ∃ w, s.links rank =
      { worker := .ready w, toMaster := [answer], busy := true } ∧ called rank = true ∧
        ended rank = false ∧ rest = [] := by
    cases hlk : s.links rank with
    | mk a b c d =>
      rw [hlk] at hlink hget
      generalize hc : called rank = cl at hlink
      generalize he : ended rank = en at hlink
      cases hlink with
      | answered w a =>
        obtain ⟨rfl, rfl⟩ := List.cons.inj hget
        exact ⟨w, rfl, rfl, rfl, rfl⟩
      | fresh | called | calledTodo | calledFinish | idle | todo | ending | exited => cases hget
  refine ⟨⟨fun r hr' => ?_, ?_, ?_, fun r hr' id b hmem => ?_, h.answer, h.ranks⟩, hcalled, hended⟩
  · by_cases hrr : r = rank
    · subst hrr
      rw [hcalled, hended]
      simp only [System.receive, System.setLink, Function.update_self, hlk]
      exact .idle w
    · simpa [System.receive, System.setLink, Function.update_of_ne hrr] using h.link r hr'
  · have := sum_update Link.todoIds s.links hr { s.links rank with toMaster := [], busy := false }
    exact (congrArg _ (add_right_cancel this)).trans h.ids
  · have := sum_update (fun l : Link S => (l.toMaster : Multiset (ℕ × Text))) s.links hr
      { s.links rank with toMaster := [], busy := false }
    simp only [hlk, Multiset.coe_singleton, Multiset.coe_nil, add_zero] at this
    refine Eq.trans ?_ h.written
    rw [← this]
    simp only [System.receive, System.setLink, hlk, ← Multiset.coe_add, Multiset.coe_singleton]
    abel
  · by_cases hrr : r = rank
    · subst hrr
      simp [System.receive, System.setLink, hlk] at hmem
    · simp only [System.receive, System.setLink, Function.update_of_ne hrr] at hmem
      exact h.todo r hr' id b hmem

/-- The place of the master and the input do not matter. -/
theorem Core.move (h : s.Core J called ended) (root : Root) (master : MasterPc) :
    ({ s with root, master } : System S).Core J called ended :=
  ⟨h.link, h.ids, h.written, h.todo, h.answer, h.ranks⟩

/-- Only the workers matter. -/
theorem Core.congr (h : s.Core J called ended) {called' ended' : ℕ → Bool}
    (hc : ∀ r ∈ Icc 1 J.workers, called' r = called r)
    (he : ∀ r ∈ Icc 1 J.workers, ended' r = ended r) : s.Core J called' ended' :=
  ⟨fun r hr => by rw [hc r hr, he r hr]; exact h.link r hr, h.ids, h.written, h.todo, h.answer,
    h.ranks⟩

/-- A worker is busy exactly when it owes an answer. -/
theorem Core.busy_iff (h : s.Core J called ended) {rank : ℕ} (hr : rank ∈ Icc 1 J.workers) :
    (s.links rank).busy = true ↔ s.Owes rank := by
  have hlink := h.link rank hr
  generalize called rank = c at hlink
  generalize ended rank = e at hlink
  rw [Owes]
  cases hlk : s.links rank with
  | mk toWorker worker toMaster busy =>
    rw [hlk] at hlink
    cases hlink <;> simp

/-- When a block has been sent, and no answer written, a worker is busy. -/
theorem Core.exists_busy (h : s.Core J called ended) (hsent : s.sent ≠ []) (hwritten : s.written = []) :
    ∃ rank ∈ Icc 1 J.workers, (s.links rank).busy = true := by
  by_contra hnone
  have hidle : ∀ rank ∈ Icc 1 J.workers, ¬ s.Owes rank := fun rank hr howes =>
    hnone ⟨rank, hr, (h.busy_iff hr).mpr howes⟩
  have hans : s.answers = [] := by
    have hsum := h.written
    rw [hwritten, Finset.sum_eq_zero fun rank hr => ?_] at hsum
    · simpa using hsum.symm
    · by_contra hne
      exact hidle rank hr (.inr (by simpa using hne))
  have hids := h.ids
  rw [hans, Finset.sum_eq_zero fun rank hr => ?_] at hids
  · have : s.sent.length = 0 := by simpa using (congrArg Multiset.card hids).symm
    exact hsent (List.eq_nil_of_length_eq_zero this)
  · rw [Multiset.eq_zero_iff_forall_notMem]
    intro id hid
    obtain ⟨m, hm, hid⟩ := List.mem_filterMap.mp (Multiset.mem_coe.mp hid)
    cases m with
    | todo id block => exact hidle rank hr (.inl ⟨id, block, hm⟩)
    | header | finish => cases hid

/-- A worker that an answer has come from has been sent a block. -/
theorem Core.sent_of_answer (h : s.Core J called ended) {rank : ℕ} (hr : rank ∈ Icc 1 J.workers)
    (hans : (s.links rank).toMaster ≠ []) : s.sent ≠ [] := by
  obtain ⟨a, ha⟩ := List.exists_mem_of_ne_nil _ hans
  have hmem : a ∈ (s.answers : Multiset (ℕ × Text)) := by
    rw [← h.written]
    exact Multiset.mem_add.mpr (.inr (Multiset.mem_sum.mpr ⟨rank, hr, ha⟩))
  obtain ⟨b, hb, -⟩ := h.answer a (Multiset.mem_coe.mp hmem)
  rintro hnil
  rw [hnil] at hb
  cases hb

/-- What a worker's step leaves as it was. -/
structure Kept (s s' : System S) : Prop where
  root : s'.root = s.root
  header : s'.header = s.header
  master : s'.master = s.master
  sent : s'.sent = s.sent
  written : s'.written = s.written
  busy : ∀ rank, (s'.links rank).busy = (s.links rank).busy

/-- A change of one conversation that keeps the busy flag. -/
theorem Kept.setLink {rank : ℕ} {l : Link S} (hbusy : l.busy = (s.links rank).busy) :
    Kept s (s.setLink rank l) := by
  refine ⟨rfl, rfl, rfl, rfl, rfl, fun r => ?_⟩
  by_cases hrr : r = rank
  · subst hrr
    simpa [System.setLink] using hbusy
  · simp [System.setLink, Function.update_of_ne hrr]

/-- A worker answers its block. -/
theorem Core.answerBlock (h : s.Core J called ended) {rank : ℕ} (hr : rank ∈ Icc 1 J.workers)
    {w w' : S} {id : ℕ} {block : Block} {answer : Text}
    (hlk : s.links rank = { toWorker := [.todo id block], worker := .ready w, busy := true })
    (hrun : J.run w block = (w', answer)) :
    ({ s.setLink rank { worker := .ready w', toMaster := [(id, answer)], busy := true } with
      answers := s.answers ++ [(id, answer)] } : System S).Core J called ended := by
  have hlink := h.link rank hr
  rw [hlk] at hlink
  obtain ⟨hcalled, hended⟩ : called rank = true ∧ ended rank = false := by
    generalize hc : called rank = c at hlink
    generalize he : ended rank = e at hlink
    cases hlink
    exact ⟨rfl, rfl⟩
  refine ⟨fun r hr' => ?_, ?_, ?_, fun r hr' i b hmem => ?_, fun a ha => ?_, h.ranks⟩
  · by_cases hrr : r = rank
    · subst hrr
      rw [hcalled, hended]
      simp only [System.setLink, Function.update_self]
      exact .answered w' (id, answer)
    · simpa [System.setLink, Function.update_of_ne hrr] using h.link r hr'
  · have := sum_update Link.todoIds s.links hr
      { worker := .ready w', toMaster := [(id, answer)], busy := true }
    have hold : (s.links rank).todoIds = {id} := by rw [hlk]; rfl
    have hnew : ({ worker := .ready w', toMaster := [(id, answer)], busy := true } : Link S).todoIds
      = 0 := rfl
    rw [hold, hnew, add_zero] at this
    refine Eq.trans ?_ h.ids
    rw [← this]
    simp only [System.setLink, List.map_append, List.map_singleton, ← Multiset.coe_add,
      Multiset.coe_singleton]
    abel
  · have := sum_update (fun l : Link S => (l.toMaster : Multiset (ℕ × Text))) s.links hr
      { worker := .ready w', toMaster := [(id, answer)], busy := true }
    simp only [hlk, Multiset.coe_nil, add_zero, Multiset.coe_singleton] at this
    simp only [System.setLink, ← Multiset.coe_add, Multiset.coe_singleton]
    rw [this, ← h.written]
    abel
  · by_cases hrr : r = rank
    · subst hrr
      simp [System.setLink] at hmem
    · simp only [System.setLink, Function.update_of_ne hrr] at hmem
      exact h.todo r hr' i b hmem
  · rcases List.mem_append.mp ha with ha | ha
    · exact h.answer a ha
    · obtain rfl := List.mem_singleton.mp ha
      have hget := h.todo rank hr id block (by rw [hlk]; exact List.mem_singleton_self _)
      exact ⟨(rank, block), hget, w, by rw [hrun]⟩

/-- A worker's step keeps the conversations and the counts. -/
theorem Core.workerStep (h : s.Core J called ended) {rank : ℕ} (hr : rank ∈ Icc 1 J.workers)
    {s' : System S} (hs' : s.workerStep J rank = some s') : s'.Core J called ended ∧ Kept s s' := by
  have hlink := h.link rank hr
  -- Reading the header or the end message only changes the worker.
  have hset : ∀ l : Link S, Conversation s.header (called rank) (ended rank) l →
      l.todoIds = (s.links rank).todoIds → l.toMaster = (s.links rank).toMaster →
      l.busy = (s.links rank).busy → (∀ m ∈ l.toWorker, m ∈ (s.links rank).toWorker) →
      (s.setLink rank l).Core J called ended ∧ Kept s (s.setLink rank l) :=
    fun l hl hids hans hbusy hmem =>
      ⟨h.setLink hr (fun _ _ => rfl) (fun _ _ => rfl) hl hids hans fun id b => hmem _,
        Kept.setLink hbusy⟩
  generalize hc : called rank = c at hlink hset
  generalize he : ended rank = e at hlink hset
  cases hlk : s.links rank with
  | mk toWorker worker toMaster busy =>
    rw [hlk] at hlink hset
    simp only [System.workerStep, hlk] at hs'
    cases hlink with
    | fresh | idle | answered | exited => cases hs'
    | called =>
      cases hs'
      exact hset _ (.idle _) rfl rfl rfl (by simp)
    | calledTodo id block =>
      cases hs'
      exact hset _ (.todo _ id block) rfl rfl rfl (by simp)
    | calledFinish =>
      cases hs'
      exact hset _ (.ending _) rfl rfl rfl (by simp)
    | ending w =>
      cases hs'
      exact hset _ .exited rfl rfl rfl (by simp)
    | todo w id block =>
      cases hs'
      have hkept : Kept s (s.setLink rank
          { worker := .ready (J.run w block).1, toMaster := [(id, (J.run w block).2)], busy := true }) :=
        Kept.setLink (by rw [hlk])
      exact ⟨h.answerBlock hr hlk rfl, rfl, rfl, rfl, rfl, rfl, hkept.busy⟩

end Core

/-! ## The blocks sent -/

theorem layout_concat (n : ℕ) (cs : List (List Text)) (c : List Text) :
    layout n (cs ++ [c]) =
      layout n cs ++ [⟨unlines c, n + cs.flatten.length, n + cs.flatten.length + c.length⟩] := by
  induction cs generalizing n with
  | nil => simp [layout]
  | cons d cs ih =>
    rw [List.cons_append, layout, ih, layout, List.cons_append, List.flatten_cons,
      List.length_append, Nat.add_assoc n]

/-- The blocks sent and the lines left to read make up the lines of the input. -/
def Cuts (J : Job S) (sent : List (ℕ × Block)) (r : Root) : Prop :=
  ∃ cuts : List (List Text), sent.map (·.2) = layout 0 cuts ∧ (∀ c ∈ cuts, c.length ≤ J.blocksize) ∧
    cuts.flatten ++ r.lines.filter (· ≠ []) = dataLines J.text ∧ r.lastId = cuts.flatten.length

section Cuts

variable {J : Job S} {sent : List (ℕ × Block)} {r r' : Root} {found : Bool} {block : Block}

/-- A block that is read is sent. -/
theorem Cuts.send (h : Cuts J sent r) (hb : r.blocksize = J.blocksize)
    (hread : Root.Reads r r' found block) (rank : ℕ) : Cuts J (sent ++ [(rank, block)]) r' := by
  obtain ⟨cuts, hsent, hlen, hlines, hid⟩ := h
  refine ⟨cuts ++ [(cut r.blocksize r.lines).1], ?_, fun c hc => ?_, ?_, ?_⟩
  · rw [List.map_append, hsent, layout_concat, List.map_singleton, Nat.zero_add, ← hid]
    obtain ⟨text, first, last⟩ := block
    rw [← hread.text, ← hread.last, ← hread.first]
  · rcases List.mem_append.mp hc with hc | hc
    · exact hlen c hc
    · rw [List.mem_singleton.mp hc, ← hb]
      exact cut_fst_length _ _
  · rw [List.flatten_append, List.flatten_singleton, List.append_assoc, hread.lines, cut_filter,
      hlines]
  · rw [hread.lastId, hread.last, hid, List.flatten_append, List.flatten_singleton,
      List.length_append]

/-- A read that comes back empty drops no line. -/
theorem Cuts.skip (h : Cuts J sent r) (hread : Root.Reads r r' found block)
    (hempty : (cut r.blocksize r.lines).1 = []) : Cuts J sent r' := by
  obtain ⟨cuts, hsent, hlen, hlines, hid⟩ := h
  refine ⟨cuts, hsent, hlen, ?_, ?_⟩
  · have := cut_filter r.blocksize r.lines
    rw [hempty, List.nil_append] at this
    rw [hread.lines, this, hlines]
  · rw [hread.lastId, hread.last, hid, hempty, List.length_nil, Nat.add_zero]

end Cuts

/-! ## The invariant -/

end System

/-- The workers that the header has been sent to. -/
def MasterPc.called : MasterPc → ℕ → Bool
  | .headers r, rank => rank < r
  | _, _ => true

/-- The workers that the end message has been sent to. -/
def MasterPc.ended : MasterPc → ℕ → Bool
  | .finish r, rank => rank < r
  | .done, _ => true
  | _, _ => false

namespace System

/-- What the reads of the first round and the later ones are to find, with so many workers to come. -/
def Ahead (workers : ℕ) (r : Root) : Prop :=
  r.Ends fun bs => Exhausting (afterFirstRound workers bs)

/-- What depends on the place of the master: what has been sent and written, which workers are busy,
and what the input is, in terms of what is left of it. -/
def Place (J : Job S) (s : System S) : Prop :=
  match s.master with
  | .headers rank => 1 ≤ rank ∧ s.sent = [] ∧ s.written = [] ∧
    (∀ r, (s.links r).busy = false) ∧
    (Readable J.workers J.blocksize J.text ↔
      (cut J.blocksize s.root.lines).1 ≠ [] ∧ Ahead J.workers s.root)
  | .firstRound rank => 1 ≤ rank ∧ rank ≤ J.workers + 1 ∧ s.sent.length + 1 = rank ∧ s.written = [] ∧
    (∀ r, rank ≤ r → (s.links r).busy = false) ∧
    (Readable J.workers J.blocksize J.text ↔
      (s.sent = [] → (cut J.blocksize s.root.lines).1 ≠ []) ∧
        Ahead (J.workers + 1 - rank) s.root)
  | .steady =>
    (Readable J.workers J.blocksize J.text ↔ s.sent ≠ [] ∧ s.root.Ends Exhausting) ∧
      (Readable J.workers J.blocksize J.text →
        ∃ rank ∈ Icc 1 J.workers, (s.links rank).busy = true)
  | .drain => s.sent ≠ [] ∧
    (Readable J.workers J.blocksize J.text ↔ s.root.lines.filter (· ≠ []) = [])
  | .finish rank => 1 ≤ rank ∧ s.sent ≠ [] ∧
    (∀ rank ∈ Icc 1 J.workers, (s.links rank).busy = false) ∧
    (Readable J.workers J.blocksize J.text ↔ s.root.lines.filter (· ≠ []) = [])
  | .done => s.sent ≠ [] ∧ (∀ rank ∈ Icc 1 J.workers, (s.links rank).busy = false) ∧
    (Readable J.workers J.blocksize J.text ↔ s.root.lines.filter (· ≠ []) = [])

/-- The invariant of the processes. -/
structure Inv (J : Job S) (s : System S) : Prop where
  core : s.Core J s.master.called s.master.ended
  blocksize : s.root.blocksize = J.blocksize
  cuts : Cuts J s.sent s.root
  place : s.Place J

/-- The master has read a block of the first round, or sends the last one out. -/
theorem Inv.firstRound {J : Job S} (hw : 1 ≤ J.workers) (hb : 1 ≤ J.blocksize) {s s' : System S}
    (h : s.Inv J) {rank : ℕ}
    (hm : s.master = .firstRound rank) {source : ℕ} (hs' : s.masterStep J source = some s') :
    s'.Inv J := by
  have hcore := h.core
  have hplace := h.place
  rw [hm] at hcore
  simp only [Place, hm] at hplace
  obtain ⟨hone, hle, hlen, hwritten, hbusy, hread⟩ := hplace
  simp only [masterStep, hm] at hs'
  have hr := s.root.read_eq (by rw [h.blocksize]; exact hb)
  have hbs := h.blocksize
  split_ifs at hs' with hrank hfound
  · -- A block is sent, and the next worker is next.
    cases hs'
    have hmem : rank ∈ Icc 1 J.workers := Finset.mem_Icc.mpr ⟨hone, hrank⟩
    have hsend := hcore.sendBlock hmem rfl rfl (hbusy rank le_rfl) s.root.read.2.1
    have hfirst := hr.firstRound (by omega) (J.workers - rank)
    rw [hfound, if_pos rfl] at hfirst
    refine ⟨hsend.move _ _, hr.blocksize.trans hbs, h.cuts.send hbs hr rank, ?_⟩
    simp only [Place, sendBlock, setLink]
    refine ⟨by omega, by omega, by simp; omega, hwritten, fun r hr => ?_, ?_⟩
    · rw [Function.update_of_ne (by omega)]
      exact hbusy r (by omega)
    · have hleft : J.workers + 1 - rank = J.workers - rank + 1 := by omega
      rw [hread, hleft, Ahead, hfirst, Ahead, show J.workers + 1 - (rank + 1) = J.workers - rank by omega]
      refine ⟨fun ⟨_, hahead⟩ => ⟨fun hnil => by simp at hnil, hahead⟩, fun ⟨_, hahead⟩ =>
        ⟨fun _ => ?_, hahead⟩⟩
      -- The block found is no empty one of a stream that came to its end.
      rcases hr.found_iff.mp hfound with hne | hun
      · rwa [hbs] at hne
      · rcases hfirst.mpr hahead with hf | ⟨hlast, -⟩
        · rw [hun.1] at hf
          cases hf
        · rw [hun.2] at hlast
          cases hlast
  · -- The first round ends early.
    cases hs'
    have hfalse : s.root.read.1 = false := by simpa using hfound
    have hfirst := hr.firstRound (by omega) (J.workers - rank)
    rw [hfalse] at hfirst
    have hempty : (cut s.root.blocksize s.root.lines).1 = [] := by
      by_contra hne
      exact hfound (hr.found_iff.mpr (.inl hne))
    have hleft : J.workers + 1 - rank = J.workers - rank + 1 := by omega
    rw [hleft, Ahead, hfirst] at hread
    simp only [Bool.false_eq_true, if_false] at hread
    rw [hbs] at hempty
    rw [hempty] at hread
    refine ⟨hcore.move _ _, hr.blocksize.trans hbs, h.cuts.skip hr (by rw [hbs]; exact hempty), ?_, ?_⟩
    · rw [hread]
      simp
    · intro hreadable
      exact hcore.exists_busy (by have := (hread.mp hreadable).1; simpa using this) hwritten
  · -- Every worker has been served.
    cases hs'
    have hnone : J.workers + 1 - rank = 0 := by omega
    have hsent : s.sent ≠ [] := by
      rintro hnil
      rw [hnil] at hlen
      simp at hlen
      omega
    rw [hnone, Ahead] at hread
    refine ⟨hcore.move _ _, hbs, h.cuts, ?_, fun _ => hcore.exists_busy hsent hwritten⟩
    rw [hread]
    simp [hsent, afterFirstRound]

/-- The master has an answer, and sends the worker another block if there is one. -/
theorem Inv.steady {J : Job S} (hb : 1 ≤ J.blocksize) {s s' : System S} (h : s.Inv J)
    (hm : s.master = .steady) {source : ℕ} (hsource : source ∈ Icc 1 J.workers)
    (hs' : s.masterStep J source = some s') : s'.Inv J := by
  have hcore := h.core
  have hplace := h.place
  rw [hm] at hcore
  simp only [Place, hm] at hplace
  obtain ⟨hread, -⟩ := hplace
  simp only [masterStep, hm] at hs'
  have hbs := h.blocksize
  have hr := s.root.read_eq (by omega)
  have hsteady := hr.exhausting (by omega)
  cases hans : (s.links source).toMaster with
  | nil => rw [hans] at hs'; cases hs'
  | cons answer rest =>
    rw [hans] at hs'
    obtain ⟨hreceive, -, -⟩ := hcore.receive hsource hans
    have hsent : s.sent ≠ [] := hcore.sent_of_answer hsource (by rw [hans]; exact List.cons_ne_nil _ _)
    have hidle : ((s.receive source answer rest).links source).busy = false := by
      simp [receive, setLink]
    cases hs'
    have hroot : (s.receive source answer rest).root = s.root := rfl
    rw [hroot]
    by_cases hfound : s.root.read.1 = true
    · rw [if_pos hfound] at hsteady
      by_cases htext : s.root.read.2.1.text = []
      · -- The stream has come to its end without a newline: nothing more will be sent.
        rw [if_pos (by simpa using htext), if_pos hfound]
        have hempty : (cut s.root.blocksize s.root.lines).1 = [] := by
          rw [hr.text] at htext
          exact unlines_eq_nil.mp htext
        have hnot : ¬ Readable J.workers J.blocksize J.text := fun hreadable =>
          (hsteady.mp (hread.mp hreadable).2).1 htext
        refine ⟨hreceive.move _ _, hr.blocksize.trans hbs, h.cuts.skip hr hempty, ?_,
          fun hreadable => absurd hreadable hnot⟩
        refine ⟨fun hreadable => absurd hreadable hnot, fun ⟨_, hends⟩ => ?_⟩
        -- Such a stream stays as it is.
        exfalso
        rcases hr.found_iff.mp hfound with hne | hun
        · exact hne hempty
        · have hlines := hr.lines
          rw [hun.2, Root.cut_nil] at hlines
          have hfail := hr.fail_iff
          rw [hun.1, hun.2] at hfail
          rcases hends with hf | ⟨hlast, -⟩
          · simpa using hfail.mp hf
          · rw [hlines] at hlast
            cases hlast
      · rw [if_neg (by simpa using htext), if_pos hfound]
        have hsend := hreceive.sendBlock hsource rfl rfl hidle s.root.read.2.1
        refine ⟨hsend.move _ _, hr.blocksize.trans hbs, h.cuts.send hbs hr source, ?_,
          fun _ => ⟨source, hsource, ?_⟩⟩
        · rw [hread, hsteady]
          simp [sendBlock, hsent, htext]
        · simp [sendBlock, setLink]
    · rw [if_neg hfound] at hsteady
      have hempty : (cut s.root.blocksize s.root.lines).1 = [] := by
        by_contra hne
        exact hfound (hr.found_iff.mpr (.inl hne))
      have htext : s.root.read.2.1.text = [] := by
        rw [hr.text, hempty]
        rfl
      rw [if_pos (by simpa using htext), if_neg hfound]
      refine ⟨hreceive.move _ _, hr.blocksize.trans hbs, h.cuts.skip hr hempty, hsent, ?_⟩
      rw [hread, hsteady]
      simp [hsent]

/-- Every step of the master keeps the invariant. -/
theorem Inv.masterStep {J : Job S} (hw : 1 ≤ J.workers) (hb : 1 ≤ J.blocksize) {s s' : System S}
    (h : s.Inv J) {source : ℕ} (hsource : source ∈ Icc 1 J.workers)
    (hs' : s.masterStep J source = some s') : s'.Inv J := by
  have hcore := h.core
  have hplace := h.place
  have hbs := h.blocksize
  cases hm : s.master with
  | firstRound rank => exact h.firstRound hw hb hm hs'
  | steady => exact h.steady hb hm hsource hs'
  | headers rank =>
    rw [hm] at hcore
    simp only [Place, hm] at hplace
    obtain ⟨hone, hsent, hwritten, hbusy, hread⟩ := hplace
    simp only [System.masterStep, hm] at hs'
    split_ifs at hs' with hrank
    · cases hs'
      have hmem : rank ∈ Icc 1 J.workers := Finset.mem_Icc.mpr ⟨hone, hrank⟩
      have hsend := hcore.sendHeader hmem (by simp [MasterPc.called]) rfl
        (fun r hr => show (MasterPc.headers (rank + 1)).called r = _ by
          simp only [MasterPc.called, decide_eq_decide]
          omega) (by simp [MasterPc.called])
      refine ⟨hsend.move _ _, hbs, h.cuts, by omega, hsent, hwritten, fun r => ?_, hread⟩
      by_cases hrr : r = rank
      · subst hrr
        simpa [send, setLink] using hbusy r
      · simpa [send, setLink, Function.update_of_ne hrr] using hbusy r
    · cases hs'
      refine ⟨(hcore.congr (fun r hr => ?_) fun _ _ => rfl).move _ _, hbs, h.cuts, le_rfl, by omega,
        by simp [hsent], hwritten, fun r _ => hbusy r, ?_⟩
      · have := Finset.mem_Icc.mp hr
        simp only [MasterPc.called]
        exact (decide_eq_true (by omega)).symm
      · rw [hread]
        simp [hsent]
  | drain =>
    rw [hm] at hcore
    simp only [Place, hm] at hplace
    obtain ⟨hsent, hread⟩ := hplace
    simp only [System.masterStep, hm] at hs'
    split_ifs at hs' with hany
    · cases hans : (s.links source).toMaster with
      | nil => rw [hans] at hs'; cases hs'
      | cons answer rest =>
        rw [hans] at hs'
        cases hs'
        obtain ⟨hreceive, -, -⟩ := hcore.receive hsource hans
        have hm' : (s.receive source answer rest).master = .drain := hm
        refine ⟨by rw [hm']; exact hreceive, hbs, h.cuts, ?_⟩
        simp only [Place, hm']
        exact ⟨hsent, hread⟩
    · cases hs'
      refine ⟨(hcore.congr (fun _ _ => rfl) fun r hr => ?_).move _ _, hbs, h.cuts, le_rfl, hsent,
        fun r hr => ?_, hread⟩
      · have := Finset.mem_Icc.mp hr
        simp only [MasterPc.ended]
        exact decide_eq_false (by omega)
      · by_contra hbusy
        exact hany ⟨r, hr, by simpa using hbusy⟩
  | finish rank =>
    rw [hm] at hcore
    simp only [Place, hm] at hplace
    obtain ⟨hone, hsent, hbusy, hread⟩ := hplace
    simp only [System.masterStep, hm] at hs'
    split_ifs at hs' with hrank
    · cases hs'
      have hmem : rank ∈ Icc 1 J.workers := Finset.mem_Icc.mpr ⟨hone, hrank⟩
      have hsend := hcore.sendFinish hmem rfl (by simp [MasterPc.ended]) (hbusy rank hmem)
        (fun r hr => show (MasterPc.finish (rank + 1)).ended r = _ by
          simp only [MasterPc.ended, decide_eq_decide]
          omega) (by simp [MasterPc.ended])
      refine ⟨hsend.move _ _, hbs, h.cuts, by omega, hsent, fun r hr => ?_, hread⟩
      by_cases hrr : r = rank
      · subst hrr
        simpa [send, setLink] using hbusy r hr
      · simpa [send, setLink, Function.update_of_ne hrr] using hbusy r hr
    · cases hs'
      refine ⟨(hcore.congr (fun _ _ => rfl) fun r hr => ?_).move _ _, hbs, h.cuts, hsent, hbusy, hread⟩
      have := Finset.mem_Icc.mp hr
      simp only [MasterPc.ended]
      exact (decide_eq_true (by omega)).symm
  | done =>
    simp only [System.masterStep, hm] at hs'
    cases hs'

/-- A worker's step keeps the invariant. -/
theorem Inv.workerStep {J : Job S} {s s' : System S} (h : s.Inv J) {rank : ℕ}
    (hr : rank ∈ Icc 1 J.workers) (hs' : s.workerStep J rank = some s') : s'.Inv J := by
  obtain ⟨hcore, hkept⟩ := h.core.workerStep hr hs'
  refine ⟨by rw [hkept.master]; exact hcore, by rw [hkept.root]; exact h.blocksize,
    by rw [hkept.sent, hkept.root]; exact h.cuts, ?_⟩
  have hplace := h.place
  simp only [Place] at hplace ⊢
  rw [hkept.master]
  cases hm : s.master <;> rw [hm] at hplace <;>
    simpa only [hkept.root, hkept.sent, hkept.written, hkept.busy] using hplace

/-- The processes start in a state of the invariant. -/
theorem Inv.start (J : Job S) : (System.start J).Inv J := by
  set r : Root := { is := { rest := J.text }, blocksize := J.blocksize } with hr
  obtain ⟨p, ps, hps⟩ := List.exists_cons_of_ne_nil (pieces_ne_nil J.text)
  have hlines : r.lines = p :: ps := by rw [← hps]; rfl
  obtain ⟨-, hrest, hfail⟩ := getline_eq hlines
  have hroot : (System.start J).root = { r with is := (getline r.is).2 } := rfl
  have htail : (pieces J.text).tail = ps := by rw [hps, List.tail_cons]
  refine ⟨⟨fun rank hrank => ?_, ?_, ?_, fun _ _ _ _ hmem => ?_, fun _ ha => ?_, fun _ hb => ?_⟩,
    rfl, ⟨[], rfl, fun _ h => absurd h List.not_mem_nil, ?_, rfl⟩, ?_⟩
  · have : (System.start J).master.called rank = false :=
      decide_eq_false (by have := Finset.mem_Icc.mp hrank; omega)
    rw [this]
    exact .fresh
  · exact (zero_add _).trans (Finset.sum_eq_zero fun _ _ => rfl)
  · exact (zero_add _).trans (Finset.sum_eq_zero fun _ _ => rfl)
  · cases hmem
  · cases ha
  · cases hb
  · rw [hroot, hrest, dataLines, htail]
    rfl
  · refine ⟨le_rfl, rfl, rfl, fun _ => rfl, ?_⟩
    rw [Readable, endsWithNewline_iff, htail, Ahead, Root.Ends, hroot, hrest]
    constructor
    · rintro ⟨hlast, hne, hall⟩
      exact ⟨hne, .inr ⟨hlast, hall⟩⟩
    · rintro ⟨hne, hf | ⟨hlast, hall⟩⟩
      · rw [(hfail.mp hf).1, Root.cut_nil] at hne
        exact absurd rfl hne
      · exact ⟨hlast, hne, hall⟩

/-- Every state reached is one of the invariant. -/
theorem Reachable.inv {J : Job S} (hw : 1 ≤ J.workers) (hb : 1 ≤ J.blocksize) {s : System S}
    (h : Reachable J s) : s.Inv J := by
  induction h with
  | refl => exact Inv.start J
  | tail _ hstep ih =>
    obtain ⟨rank, hr, hs' | hs'⟩ := hstep
    · exact ih.masterStep hw hb hr hs'
    · exact ih.workerStep hr hs'

/-! ## Runs come to an end -/

end System

/-- The steps that a message on its way to a worker leads to: a block gives an answer. -/
def Message.weight : Message → ℕ
  | .todo _ _ => 2
  | .header _ | .finish => 1

/-- The steps that the messages of a conversation lead to. -/
def Link.weight (l : Link S) : ℕ := (l.toWorker.map Message.weight).sum + l.toMaster.length

/-- A bound of the steps that the master has before it, and of the weights of the messages that it
will send, when so many lines are left. -/
def MasterPc.weight (workers lines : ℕ) : MasterPc → ℕ
  | .headers rank => 5 * workers + 6 + 3 * lines + 2 * (workers + 1 - rank)
  | .firstRound rank => 2 * workers + 5 + 3 * lines + 3 * (workers + 1 - rank)
  | .steady => 2 * workers + 4 + 3 * lines
  | .drain => 2 * workers + 3
  | .finish rank => 1 + 2 * (workers + 1 - rank)
  | .done => 0

namespace System

/-- A bound of the number of steps to come. -/
def weight (J : Job S) (s : System S) : ℕ :=
  s.master.weight J.workers s.root.lines.length + ∑ rank ∈ Icc 1 J.workers, (s.links rank).weight

/-- The weight of the links after a change of one of them. -/
theorem weight_setLink {J : Job S} (s : System S) {rank : ℕ} (hr : rank ∈ Icc 1 J.workers)
    {l : Link S} {a b : ℕ} (hl : l.weight + a = (s.links rank).weight + b) :
    ∑ r ∈ Icc 1 J.workers, ((s.setLink rank l).links r).weight + a =
      ∑ r ∈ Icc 1 J.workers, (s.links r).weight + b := by
  have : ∑ r ∈ Icc 1 J.workers, ((s.setLink rank l).links r).weight + (s.links rank).weight =
      ∑ r ∈ Icc 1 J.workers, (s.links r).weight + l.weight := sum_update Link.weight s.links hr l
  omega

/-- A worker's step makes its conversation lighter. -/
theorem workerStep_weight {J : Job S} {s s' : System S} {rank : ℕ} (hr : rank ∈ Icc 1 J.workers)
    (hs' : s.workerStep J rank = some s') : s'.weight J < s.weight J := by
  -- Whatever the worker does, it takes a message, and gives one answer if it was a block.
  have hset : ∀ l : Link S, l.weight < (s.links rank).weight →
      (s.setLink rank l).weight J < s.weight J := fun l hl => by
    have := s.weight_setLink hr (l := l) (a := (s.links rank).weight - l.weight) (b := 0) (by omega)
    simp only [weight, setLink] at this ⊢
    omega
  simp only [workerStep] at hs'
  cases htw : (s.links rank).toWorker with
  | nil => rw [htw] at hs'; cases hs'
  | cons m rest =>
    rw [htw] at hs'
    dsimp only at hs'
    have hold : (s.links rank).weight =
        m.weight + (rest.map Message.weight).sum + (s.links rank).toMaster.length := by
      simp [Link.weight, htw]
    split at hs'
    · cases hs'
      exact hset _ (by rw [hold]; simp [Link.weight, Message.weight])
    · rename_i w id block hw
      cases hs'
      have hlt : ({ s.links rank with
          toWorker := rest
          worker := .ready (J.run w block).1
          toMaster := (s.links rank).toMaster ++ [(id, (J.run w block).2)] } : Link S).weight <
            (s.links rank).weight := by
        rw [hold]
        simp [Link.weight, Message.weight]
        omega
      exact hset _ hlt
    · cases hs'
      exact hset _ (by rw [hold]; simp [Link.weight, Message.weight])
    · cases hs'
    · cases hs'
      have hpos : ∀ m : Message, 0 < m.weight := fun m => by cases m <;> simp [Message.weight]
      exact hset _ (by rw [hold]; simp [Link.weight, hpos])

/-- The weight of the links after a message has been sent. -/
theorem weight_send {J : Job S} (s : System S) {rank : ℕ} (hr : rank ∈ Icc 1 J.workers)
    (m : Message) : ∑ r ∈ Icc 1 J.workers, ((s.send rank m).links r).weight =
      ∑ r ∈ Icc 1 J.workers, (s.links r).weight + m.weight :=
  s.weight_setLink hr (a := 0) (by simp [Link.weight]; omega)

/-- The weight of the links after a block has been sent. -/
theorem weight_sendBlock {J : Job S} (s : System S) {rank : ℕ} (hr : rank ∈ Icc 1 J.workers)
    (block : Block) : ∑ r ∈ Icc 1 J.workers, ((s.sendBlock rank block).links r).weight =
      ∑ r ∈ Icc 1 J.workers, (s.links r).weight + 2 :=
  s.weight_setLink hr (a := 0) (by simp [Link.weight, Message.weight]; omega)

/-- The weight of the links after an answer has been taken. -/
theorem weight_receive {J : Job S} (s : System S) {rank : ℕ} (hr : rank ∈ Icc 1 J.workers)
    {answer : ℕ × Text} {rest : List (ℕ × Text)}
    (hans : (s.links rank).toMaster = answer :: rest) :
    ∑ r ∈ Icc 1 J.workers, ((s.receive rank answer rest).links r).weight + 1 =
      ∑ r ∈ Icc 1 J.workers, (s.links r).weight :=
  s.weight_setLink hr (b := 0) (by simp [Link.weight, hans]; omega)

/-- Every step brings the end nearer. -/
theorem weight_lt {J : Job S} (hb : 1 ≤ J.blocksize) {s s' : System S} (h : s.Inv J)
    (hs' : Step J s s') : s'.weight J < s.weight J := by
  obtain ⟨rank, hr, hs' | hs'⟩ := hs'
  swap
  · exact workerStep_weight hr hs'
  obtain ⟨found, block, root, hrd⟩ : ∃ found block root, s.root.read = (found, block, root) :=
    ⟨_, _, _, rfl⟩
  have hread : Root.Reads s.root root found block := by
    have := s.root.read_eq (by rw [h.blocksize]; exact hb)
    rwa [hrd] at this
  have hlines : root.lines.length ≤ s.root.lines.length := by
    rw [hread.lines]
    exact cut_length _ _
  cases hm : s.master with
  | headers r =>
    have hplace := h.place
    simp only [Place, hm] at hplace
    simp only [masterStep, hm] at hs'
    split_ifs at hs' with hle <;> cases hs'
    · have := s.weight_send (Finset.mem_Icc.mpr ⟨hplace.1, hle⟩) (.header s.header)
      simp only [weight, hm, MasterPc.weight, Message.weight, send, setLink] at this ⊢
      omega
    · simp only [weight, hm, MasterPc.weight]
      omega
  | firstRound r =>
    have hplace := h.place
    simp only [Place, hm] at hplace
    simp only [masterStep, hm, hrd] at hs'
    split_ifs at hs' with hle hfound <;> cases hs'
    · have := s.weight_sendBlock (Finset.mem_Icc.mpr ⟨hplace.1, hle⟩) block
      simp only [weight, hm, MasterPc.weight] at this ⊢
      simp only [sendBlock, setLink] at this ⊢
      omega
    · simp only [weight, hm, MasterPc.weight]
      omega
    · simp only [weight, hm, MasterPc.weight]
      omega
  | steady =>
    simp only [masterStep, hm] at hs'
    cases hans : (s.links rank).toMaster with
    | nil => rw [hans] at hs'; cases hs'
    | cons answer rest =>
      rw [hans] at hs'
      have hreceive := s.weight_receive hr hans
      cases hs'
      have hroot : (s.receive rank answer rest).root = s.root := rfl
      rw [hroot, hrd]
      dsimp only
      by_cases htext : block.text = []
      · rw [if_pos (by simpa using htext)]
        by_cases hfound : found = true
        · simp only [weight, hm, MasterPc.weight, hfound, if_true]
          simp only [receive, setLink] at hreceive ⊢
          omega
        · simp only [weight, hm, MasterPc.weight, if_neg hfound]
          simp only [receive, setLink] at hreceive ⊢
          omega
      · rw [if_neg (by simpa using htext)]
        have hsend := (s.receive rank answer rest).weight_sendBlock hr block
        -- A block that is sent has taken lines.
        have hlt : root.lines.length < s.root.lines.length := by
          rw [hread.lines]
          refine cut_lt (by rw [h.blocksize]; exact hb) fun hnil => htext ?_
          rw [hread.text, hnil, Root.cut_nil]
          rfl
        have hle : (if found = true then MasterPc.steady else .drain).weight J.workers
            root.lines.length ≤ 2 * J.workers + 4 + 3 * root.lines.length := by
          split_ifs <;> simp only [MasterPc.weight] <;> omega
        simp only [weight, hm, MasterPc.weight] at hle ⊢
        simp only [receive, sendBlock, setLink] at hreceive hsend ⊢
        omega
  | drain =>
    simp only [masterStep, hm] at hs'
    split_ifs at hs' with hany
    · cases hans : (s.links rank).toMaster with
      | nil => rw [hans] at hs'; cases hs'
      | cons answer rest =>
        rw [hans] at hs'
        have hreceive := s.weight_receive hr hans
        cases hs'
        have hm' : (s.receive rank answer rest).master = .drain := hm
        simp only [weight, hm, hm', MasterPc.weight]
        omega
    · cases hs'
      simp only [weight, hm, MasterPc.weight]
      omega
  | finish r =>
    have hplace := h.place
    simp only [Place, hm] at hplace
    simp only [masterStep, hm] at hs'
    split_ifs at hs' with hle <;> cases hs'
    · have := s.weight_send (Finset.mem_Icc.mpr ⟨hplace.1, hle⟩) .finish
      simp only [weight, hm, MasterPc.weight, Message.weight, send, setLink] at this ⊢
      omega
    · simp only [weight, hm, MasterPc.weight]
      omega
  | done =>
    simp only [masterStep, hm] at hs'
    cases hs'

/-- Every run from a state of the invariant comes to an end. -/
theorem Inv.terminates {J : Job S} (hw : 1 ≤ J.workers) (hb : 1 ≤ J.blocksize) {s : System S}
    (h : s.Inv J) : s.Terminates J := by
  refine acc_of_weight (weight J) (fun s s' h hs' => ⟨?_, weight_lt hb h hs'⟩) h
  obtain ⟨rank, hr, hm | hwk⟩ := hs'
  · exact h.masterStep hw hb hr hm
  · exact h.workerStep hr hwk

/-! ## What every run does -/

/-- When no process can take a step, the master is done, or waits in vain. -/
theorem Inv.stuck {J : Job S} (hw : 1 ≤ J.workers) {s : System S} (h : s.Inv J)
    (hstuck : ∀ s', ¬ Step J s s') :
    (∀ rank ∈ Icc 1 J.workers, (s.links rank).busy = false) ∧ (s.master = .steady ∨ s.master = .done) := by
  have hone : 1 ∈ Icc 1 J.workers := Finset.mem_Icc.mpr ⟨le_rfl, hw⟩
  have hmaster : ∀ rank ∈ Icc 1 J.workers, s.masterStep J rank = none := fun rank hr =>
    Option.eq_none_iff_forall_ne_some.mpr fun s' hs' => hstuck s' ⟨rank, hr, .inl hs'⟩
  have hworker : ∀ rank ∈ Icc 1 J.workers, s.workerStep J rank = none := fun rank hr =>
    Option.eq_none_iff_forall_ne_some.mpr fun s' hs' => hstuck s' ⟨rank, hr, .inr hs'⟩
  -- A worker that is busy has a message to take, or an answer on its way.
  have hanswer : ∀ rank ∈ Icc 1 J.workers, (s.links rank).busy = true →
      (s.links rank).toMaster ≠ [] := by
    intro rank hr hbusy
    have hlink := h.core.link rank hr
    have hnone := hworker rank hr
    generalize s.master.called rank = c at hlink
    generalize s.master.ended rank = e at hlink
    cases hlk : s.links rank with
    | mk toWorker worker toMaster busy =>
      rw [hlk] at hlink hbusy
      simp only [System.workerStep, hlk] at hnone
      cases hlink with
      | answered w a => exact List.cons_ne_nil _ _
      | calledTodo | todo => cases hnone
      | fresh | called | calledFinish | idle | ending | exited => cases hbusy
  cases hm : s.master with
  | headers rank =>
    have := hmaster 1 hone
    simp only [System.masterStep, hm] at this
    split_ifs at this
  | firstRound rank =>
    have := hmaster 1 hone
    simp only [System.masterStep, hm] at this
    split_ifs at this
  | finish rank =>
    have := hmaster 1 hone
    simp only [System.masterStep, hm] at this
    split_ifs at this
  | steady =>
    refine ⟨fun rank hr => ?_, .inl rfl⟩
    by_contra hbusy
    obtain ⟨a, rest, hans⟩ := List.exists_cons_of_ne_nil (hanswer rank hr (by simpa using hbusy))
    have := hmaster rank hr
    simp only [System.masterStep, hm, hans] at this
    cases this
  | drain =>
    exfalso
    by_cases hany : ∃ rank ∈ Icc 1 J.workers, (s.links rank).busy = true
    · obtain ⟨rank, hr, hbusy⟩ := hany
      obtain ⟨a, rest, hans⟩ := List.exists_cons_of_ne_nil (hanswer rank hr hbusy)
      have := hmaster rank hr
      simp only [System.masterStep, hm, hans] at this
      rw [if_pos ⟨rank, hr, hbusy⟩] at this
      cases this
    · have := hmaster 1 hone
      simp only [System.masterStep, hm] at this
      rw [if_neg hany] at this
      cases this
  | done =>
    have hplace := h.place
    simp only [Place, hm] at hplace
    exact ⟨hplace.2.1, .inr rfl⟩

/-- When no process can take a step and the lines have all been sent, everything has been done. -/
theorem Inv.complete {J : Job S} {s : System S} (h : s.Inv J) (hm : s.master = .done)
    (hstuck : ∀ s', ¬ Step J s s') (hlines : s.root.lines.filter (· ≠ []) = []) : s.Complete J := by
  have hplace := h.place
  simp only [Place, hm] at hplace
  have hidle := hplace.2.1
  -- Nothing is on its way between the processes.
  have hexited : ∀ rank ∈ Icc 1 J.workers, s.links rank = { worker := .exited } := by
    intro rank hr
    have hlink := h.core.link rank hr
    have hnone : s.workerStep J rank = none :=
      Option.eq_none_iff_forall_ne_some.mpr fun s' hs' => hstuck s' ⟨rank, hr, .inr hs'⟩
    rw [hm] at hlink
    simp only [MasterPc.called, MasterPc.ended] at hlink
    cases hlk : s.links rank with
    | mk toWorker worker toMaster busy =>
      rw [hlk] at hlink
      simp only [System.workerStep, hlk] at hnone
      cases hlink with
      | exited => rfl
      | calledFinish | ending => cases hnone
  obtain ⟨cuts, hsent, hlen, hall, -⟩ := h.cuts
  rw [hlines, List.append_nil] at hall
  refine ⟨hm, fun rank hr => by rw [hexited rank hr], ⟨cuts, hsent, hall, hlen, h.core.ranks⟩, ?_,
    h.core.answer, ?_⟩
  · have := h.core.ids
    rw [Finset.sum_eq_zero fun rank hr => by rw [hexited rank hr]; rfl, add_zero] at this
    exact Multiset.coe_eq_coe.mp this
  · have := h.core.written
    rw [Finset.sum_eq_zero fun rank hr => by rw [hexited rank hr]; rfl, add_zero] at this
    exact Multiset.coe_eq_coe.mp this

/-- The end message comes after the last answer. -/
theorem Core.not_owes {J : Job S} {s : System S} {called ended : ℕ → Bool}
    (h : s.Core J called ended) {rank : ℕ} (hr : rank ∈ Icc 1 J.workers) (hended : s.Ended rank) :
    ¬ s.Owes rank := by
  have hlink := h.link rank hr
  generalize called rank = c at hlink
  generalize ended rank = e at hlink
  rw [Ended] at hended
  rw [Owes]
  cases hlk : s.links rank with
  | mk toWorker worker toMaster busy =>
    rw [hlk] at hlink hended
    cases hlink <;> simp_all

end System

/-- All the runs on an input that can be read to its end do what they should. -/
theorem Readable.handles {J : Job S} (hw : 1 ≤ J.workers) (hb : 1 ≤ J.blocksize)
    (hreadable : Readable J.workers J.blocksize J.text) : Handles J := by
  refine ⟨fun s hs hwaits => ?_, fun s hs => ?_, fun s hs => ?_, fun s hs rank hr =>
    (System.Reachable.inv hw hb hs).core.not_owes hr,
    fun s hs => (System.Reachable.inv hw hb hs).terminates hw hb, fun s hs hstuck => ?_⟩
  · have hinv := System.Reachable.inv hw hb hs
    obtain ⟨rank, hr, hbusy⟩ : ∃ rank ∈ Icc 1 J.workers, (s.links rank).busy = true := by
      have hplace := hinv.place
      cases hm : s.master with
      | steady =>
        simp only [System.Place, hm] at hplace
        exact hplace.2 hreadable
      | drain => simpa only [System.Waits, hm] using hwaits
      | headers | firstRound | finish | done => simp only [System.Waits, hm] at hwaits
    exact ⟨rank, hr, (hinv.core.busy_iff hr).mp hbusy⟩
  · have hinv := System.Reachable.inv hw hb hs
    obtain ⟨cuts, hsent, hlen, hlines, -⟩ := hinv.cuts
    exact ⟨cuts.flatten, ⟨_, hlines⟩, cuts, hsent, rfl, hlen, hinv.core.ranks⟩
  · have hcore := (System.Reachable.inv hw hb hs).core
    constructor
    · have hnodup := Multiset.nodup_range s.sent.length
      rw [← hcore.ids] at hnodup
      exact Multiset.coe_nodup.mp (Multiset.nodup_of_le (Multiset.le_add_right _ _) hnodup)
    · have hle := Multiset.le_add_right (s.written : Multiset (ℕ × Text))
        (∑ rank ∈ Icc 1 J.workers, ((s.links rank).toMaster : Multiset (ℕ × Text)))
      rw [hcore.written] at hle
      exact Multiset.coe_le.mp hle
  · have hinv := System.Reachable.inv hw hb hs
    obtain ⟨hidle, hm⟩ := hinv.stuck hw hstuck
    have hplace := hinv.place
    rcases hm with hm | hm
    · simp only [System.Place, hm] at hplace
      obtain ⟨rank, hr, hbusy⟩ := hplace.2 hreadable
      rw [hidle rank hr] at hbusy
      cases hbusy
    · simp only [System.Place, hm] at hplace
      exact hinv.complete hm hstuck (hplace.2.2.mp hreadable)

example : Readable 2 1 "x\na\n\nb\n".toList := by decide

example : ¬ Readable 1 1 "x\na\n\nb\n".toList := by decide

end Vle.Cvle
