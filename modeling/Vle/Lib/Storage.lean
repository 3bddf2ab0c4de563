import Vle.Lib.Except

/-!
# Writes in a storage

A storage is a list that keeps its length, and a write outside of it fails. A series of writes succeeds
when each is inside, whatever the values (`writeAll_eq_ok`), and a place then holds what the last write
there put in it (`writeAll_last`), or what it held when there was none (`writeAll_apart`). Moves between
two storages are the writes of what the first one held, when no place is moved from twice
(`moveAll_eq`).
-/

namespace Vle.Lib.Storage

variable {ε β : Type}

/-- A write, which fails with `e` outside of the storage. -/
def write (e : ε) (s : List β) (i : ℕ) (b : β) : Except ε (List β) :=
  if i < s.length then .ok (s.set i b) else .error e

/-- A read, which fails with `e` outside of the storage. -/
def read (e : ε) (s : List β) (i : ℕ) : Except ε β :=
  match s[i]? with
  | some b => .ok b
  | none => .error e

/-- Writes in turn. -/
def writeAll (e : ε) (ws : List (ℕ × β)) (s : List β) : Except ε (List β) :=
  ws.foldlM (fun s w => write e s w.1 w.2) s

/-- Moves in turn from a storage to another, which leave `hole` behind. A move is the place it takes
from, then the one it goes to. -/
def moveAll (e : ε) (hole : β) (ms : List (ℕ × ℕ)) (src dst : List β) : Except ε (List β × List β) :=
  ms.foldlM (fun s m => do
    let b ← read e s.1 m.1
    let dst ← write e s.2 m.2 b
    return (s.1.set m.1 hole, dst)) (src, dst)

/-- Copies in turn from a storage to another. A copy is the place it takes from, then the one it goes
to. -/
def copyAll (e : ε) (ms : List (ℕ × ℕ)) (src dst : List β) : Except ε (List β) :=
  ms.foldlM (fun dst m => do
    let b ← read e src m.1
    write e dst m.2 b) dst

theorem write_eq_ok {e : ε} {s s' : List β} {i : ℕ} {b : β} :
    write e s i b = .ok s' ↔ i < s.length ∧ s' = s.set i b := by
  unfold write
  split_ifs with h
  · simp [h, eq_comm]
  · simp [h]

theorem read_eq_ok {e : ε} {s : List β} {i : ℕ} {b : β} : read e s i = .ok b ↔ s[i]? = some b := by
  unfold read
  cases s[i]? <;> simp

@[simp] theorem writeAll_nil (e : ε) (s : List β) : writeAll e [] s = .ok s := rfl

theorem writeAll_cons (e : ε) (w : ℕ × β) (ws : List (ℕ × β)) (s : List β) :
    writeAll e (w :: ws) s = (write e s w.1 w.2 >>= fun s' => writeAll e ws s') := rfl

/-- A storage keeps its length. -/
theorem length_of_writeAll {e : ε} {ws : List (ℕ × β)} {s s' : List β}
    (h : writeAll e ws s = .ok s') : s'.length = s.length := by
  induction ws generalizing s with
  | nil =>
    cases h
    rfl
  | cons w ws ih =>
    rw [writeAll_cons] at h
    obtain ⟨s₁, h₁, h⟩ := Except.bind_eq_ok.mp h
    obtain ⟨-, rfl⟩ := write_eq_ok.mp h₁
    rw [ih h, List.length_set]

/-- Writes that succeed are all inside. -/
theorem inside_of_writeAll {e : ε} {ws : List (ℕ × β)} {s s' : List β}
    (h : writeAll e ws s = .ok s') : ∀ w ∈ ws, w.1 < s.length := by
  induction ws generalizing s with
  | nil =>
    intro w hw
    cases hw
  | cons w ws ih =>
    rw [writeAll_cons] at h
    obtain ⟨s₁, h₁, h⟩ := Except.bind_eq_ok.mp h
    obtain ⟨hlt, rfl⟩ := write_eq_ok.mp h₁
    intro w' hw'
    rcases List.mem_cons.mp hw' with rfl | hw'
    · exact hlt
    · have := ih h w' hw'
      rwa [List.length_set] at this

/-- Writes inside succeed. -/
theorem exists_writeAll (e : ε) {ws : List (ℕ × β)} {s : List β} (h : ∀ w ∈ ws, w.1 < s.length) :
    ∃ s', writeAll e ws s = .ok s' := by
  induction ws generalizing s with
  | nil => exact ⟨s, rfl⟩
  | cons w ws ih =>
    obtain ⟨s', hs'⟩ := ih (s := s.set w.1 w.2) fun w' hw' => by
      rw [List.length_set]
      exact h w' (List.mem_cons_of_mem _ hw')
    refine ⟨s', ?_⟩
    rw [writeAll_cons, write_eq_ok.mpr ⟨h w List.mem_cons_self, rfl⟩]
    exact hs'

/-- Writes fail in one way only. -/
theorem writeAll_eq_error {e e' : ε} {ws : List (ℕ × β)} {s : List β}
    (h : writeAll e ws s = .error e') : e' = e ∧ ∃ w ∈ ws, s.length ≤ w.1 := by
  induction ws generalizing s with
  | nil => cases h
  | cons w ws ih =>
    rw [writeAll_cons] at h
    by_cases hlt : w.1 < s.length
    · rw [write_eq_ok.mpr ⟨hlt, rfl⟩] at h
      obtain ⟨he, w', hw', hle⟩ := ih h
      rw [List.length_set] at hle
      exact ⟨he, w', List.mem_cons_of_mem _ hw', hle⟩
    · rw [write, if_neg hlt] at h
      cases h
      exact ⟨rfl, w, List.mem_cons_self, not_lt.mp hlt⟩

/-- A place without a write keeps what it holds. -/
theorem writeAll_apart {e : ε} {ws : List (ℕ × β)} {s s' : List β} (h : writeAll e ws s = .ok s')
    {k : ℕ} (hk : ∀ w ∈ ws, w.1 ≠ k) : s'[k]? = s[k]? := by
  induction ws generalizing s with
  | nil =>
    cases h
    rfl
  | cons w ws ih =>
    rw [writeAll_cons] at h
    obtain ⟨s₁, h₁, h⟩ := Except.bind_eq_ok.mp h
    obtain ⟨-, rfl⟩ := write_eq_ok.mp h₁
    rw [ih h fun w' hw' => hk w' (List.mem_cons_of_mem _ hw'),
      List.getElem?_set_ne (hk w List.mem_cons_self)]

/-- Writes go on from their first part. -/
theorem writeAll_append (e : ε) (ws vs : List (ℕ × β)) (s : List β) :
    writeAll e (ws ++ vs) s = (writeAll e ws s >>= fun s' => writeAll e vs s') := by
  unfold writeAll
  rw [List.foldlM_append]

/-- A place holds what the last write there put in it. -/
theorem writeAll_last {e : ε} {ws vs : List (ℕ × β)} {w : ℕ × β} {s s' : List β}
    (h : writeAll e (ws ++ w :: vs) s = .ok s') (hvs : ∀ v ∈ vs, v.1 ≠ w.1) :
    s'[w.1]? = some w.2 := by
  rw [writeAll_append] at h
  obtain ⟨s₁, -, h⟩ := Except.bind_eq_ok.mp h
  rw [writeAll_cons] at h
  obtain ⟨s₂, h₂, h⟩ := Except.bind_eq_ok.mp h
  obtain ⟨hlt, rfl⟩ := write_eq_ok.mp h₂
  rw [writeAll_apart h hvs, List.getElem?_set_self hlt]

/-- A place that gets one value only holds it after a write there. -/
theorem writeAll_const {e : ε} {ws : List (ℕ × β)} {s s' : List β} (h : writeAll e ws s = .ok s')
    {k : ℕ} {b : β} (hb : ∀ w ∈ ws, w.1 = k → w.2 = b) (hk : ∃ w ∈ ws, w.1 = k) :
    s'[k]? = some b := by
  induction ws generalizing s with
  | nil =>
    obtain ⟨w, hw, -⟩ := hk
    cases hw
  | cons w ws ih =>
    rw [writeAll_cons] at h
    obtain ⟨s₁, h₁, h⟩ := Except.bind_eq_ok.mp h
    obtain ⟨hlt, rfl⟩ := write_eq_ok.mp h₁
    by_cases hlater : ∃ w' ∈ ws, w'.1 = k
    · exact ih h (fun w' hw' => hb w' (List.mem_cons_of_mem _ hw')) hlater
    · push Not at hlater
      obtain ⟨w', hw', rfl⟩ := hk
      rcases List.mem_cons.mp hw' with rfl | hw'
      · rw [writeAll_apart h hlater, List.getElem?_set_self hlt, hb w' List.mem_cons_self rfl]
      · exact absurd rfl (hlater w' hw')

theorem moveAll_cons (e : ε) (hole : β) (m : ℕ × ℕ) (ms : List (ℕ × ℕ)) (src dst : List β) :
    moveAll e hole (m :: ms) src dst = (read e src m.1 >>= fun b => write e dst m.2 b >>= fun dst' =>
      moveAll e hole ms (src.set m.1 hole) dst') := by
  unfold moveAll
  rw [List.foldlM_cons]
  cases read e src m.1 with
  | error e' => rfl
  | ok b => cases h : write e dst m.2 b <;> simp [h]

/-- Moves from places inside, none of them twice, write what the first storage held. -/
theorem moveAll_eq (e : ε) (hole : β) (f : ℕ → β) {ms : List (ℕ × ℕ)} {src : List β} (dst : List β)
    (hf : ∀ m ∈ ms, src[m.1]? = some (f m.1)) (hnodup : (ms.map Prod.fst).Nodup) :
    Prod.snd <$> moveAll e hole ms src dst = writeAll e (ms.map fun m => (m.2, f m.1)) dst := by
  induction ms generalizing src dst with
  | nil => rfl
  | cons m ms ih =>
    rw [List.map_cons, List.nodup_cons] at hnodup
    rw [List.map_cons, moveAll_cons, writeAll_cons, read_eq_ok.mpr (hf m List.mem_cons_self)]
    simp only [Except.ok_bind]
    cases hw : write e dst m.2 (f m.1) with
    | error e' => rfl
    | ok dst' =>
      simp only [Except.ok_bind]
      refine ih _ (fun m' hm' => ?_) hnodup.2
      have hne : m.1 ≠ m'.1 := fun h => hnodup.1 (List.mem_map.mpr ⟨m', hm', h.symm⟩)
      rw [List.getElem?_set_ne hne]
      exact hf m' (List.mem_cons_of_mem _ hm')

/-- Moves keep the length of the storage that they go to. -/
theorem length_of_moveAll {e : ε} {hole : β} {ms : List (ℕ × ℕ)} {src dst : List β}
    {r : List β × List β} (h : moveAll e hole ms src dst = .ok r) : r.2.length = dst.length := by
  refine Except.foldlM_keeps (p := fun s => s.2.length = dst.length) ?_ h rfl
  intro s m s' hs hstep
  obtain ⟨b, -, hstep⟩ := Except.bind_eq_ok.mp hstep
  obtain ⟨t, hwrite, hs'⟩ := Except.bind_eq_ok.mp hstep
  obtain ⟨-, rfl⟩ := write_eq_ok.mp hwrite
  cases hs'
  rw [List.length_set, hs]

/-- Copies from places inside write what the first storage holds. -/
theorem copyAll_eq (e : ε) (f : ℕ → β) {ms : List (ℕ × ℕ)} {src : List β} (dst : List β)
    (hf : ∀ m ∈ ms, src[m.1]? = some (f m.1)) :
    copyAll e ms src dst = writeAll e (ms.map fun m => (m.2, f m.1)) dst := by
  induction ms generalizing dst with
  | nil => rfl
  | cons m ms ih =>
    rw [List.map_cons, writeAll_cons, copyAll, List.foldlM_cons,
      read_eq_ok.mpr (hf m List.mem_cons_self), Except.ok_bind]
    cases hw : write e dst m.2 (f m.1) with
    | error e' => rfl
    | ok dst' => exact ih dst' fun m' hm' => hf m' (List.mem_cons_of_mem _ hm')

/-- Copies fail in one way only. -/
theorem copyAll_eq_error {e e' : ε} {ms : List (ℕ × ℕ)} {src dst : List β}
    (h : copyAll e ms src dst = .error e') : e' = e := by
  induction ms generalizing dst with
  | nil => cases h
  | cons m ms ih =>
    rw [copyAll, List.foldlM_cons] at h
    unfold read write at h
    split at h
    · rw [Except.ok_bind] at h
      split_ifs at h
      · exact ih h
      · cases h
        rfl
    · cases h
      rfl

/-- Copies keep the length of the storage that they go to. -/
theorem length_of_copyAll {e : ε} {ms : List (ℕ × ℕ)} {src dst dst' : List β}
    (h : copyAll e ms src dst = .ok dst') : dst'.length = dst.length := by
  refine Except.foldlM_keeps (p := fun s => s.length = dst.length) ?_ h rfl
  intro s m s' hs hstep
  obtain ⟨b, -, hstep⟩ := Except.bind_eq_ok.mp hstep
  obtain ⟨-, rfl⟩ := write_eq_ok.mp hstep
  rw [List.length_set, hs]

end Vle.Lib.Storage
