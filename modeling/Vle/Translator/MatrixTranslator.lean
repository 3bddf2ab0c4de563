import Vle.Lib.Grid
import Vle.Lib.Loops
import Vle.Lib.Storage
import Vle.Devs.Simulator
import Mathlib.Data.List.GetD

/-!
# Regular graphs

`translator::regular_graph_generator` builds the models of a line or of a grid, and connects each of
them to those that a mask shows around it. It commands an executive, and what it commands is listed. An
`int` that overflows and a vector that is read outside are failures, since the language leaves undefined
what they do.

`target` says where an offset of the mask leads on an axis, and `Connects` is the rule for the programs
that make connections: a loop makes those of its rounds (`connects_loop`), and a loop that is clipped to
an axis makes those of the cells whose targets are on it (`connects_clipped`).
-/

namespace Vle.Translator

open Lib Lib.EState Lib.Loops Devs

variable {V ν : Type}

/-- `regular_graph_generator::connectivity`. -/
inductive Connectivity where
  | IN_OUT
  | OTHER
  | NAMED
  deriving DecidableEq, Repr

/-- `regular_graph_generator::node_metrics`. -/
structure NodeMetrics where
  x : ℤ
  y : ℤ
  z : ℤ
  deriving DecidableEq, Repr

/-- `regular_graph_generator::parameter`: `make_model` gives the name and the class of a model. -/
structure Parameter where
  make_model : NodeMetrics → String × String
  type : Connectivity

/-- How a generator fails: with an `ArgError`, with a number that is too large for an `int`, or with
what the language leaves undefined. -/
inductive Failure where
  | argError (what : String)
  | numericCast
  | outOfRange
  | overflow
  deriving DecidableEq, Repr

/-! ## Arrays -/

/-- The values of `size_t` are below this. -/
def sizeType : ℕ := 2 ^ 64

/-- An `int` made a `size_t`. -/
def toSize (i : ℤ) : ℕ := (i % sizeType).toNat

/-- `utils::Array`, whose container has as many elements as the product of its sizes says. -/
structure TwoDim (α : Type) where
  m_c : List α
  m_rows : ℕ
  m_columns : ℕ
  size : m_c.length = m_rows * m_columns % sizeType

namespace TwoDim

variable {α : Type}

/-- The constructor with a value, which is an empty string where the source has none. -/
def ofSizes (cols rows : ℕ) (value : α) : TwoDim α :=
  ⟨List.replicate (rows * cols % sizeType) value, rows, cols, List.length_replicate⟩

/-- The place of an element in the container. -/
def place (a : TwoDim α) (col row : ℕ) : ℕ := Grid.place sizeType a.m_columns col row

/-- `operator()`, which checks the indices. -/
def get (a : TwoDim α) (col row : ℕ) : Except Failure α :=
  if a.m_columns ≤ col ∨ a.m_rows ≤ row then .error (.argError "Array: bad access")
  else Storage.read .outOfRange a.m_c (a.place col row)

/-- An assignment through `operator()`. -/
def assign (a : TwoDim α) (col row : ℕ) (x : α) : Except Failure (TwoDim α) :=
  if a.m_columns ≤ col ∨ a.m_rows ≤ row then .error (.argError "Array: bad access")
  else if a.place col row < a.m_c.length then
    .ok { a with
      m_c := a.m_c.set (a.place col row) x
      size := by rw [List.length_set]; exact a.size }
  else .error .outOfRange

end TwoDim

/-! ## Programs -/

/-- What a generator has done: its commands, the names of its models, and the number of vertices. -/
structure Work (V ν : Type) where
  commands : List (Command V)
  modelnames : ν
  vertices : ℤ

/-- A program of a generator. -/
abbrev GenM (V ν : Type) := EStateM Failure (Work V ν)

/-- The value of an expression of type `int`. -/
def int (v : ℤ) : GenM V ν ℤ := if intMin ≤ v ∧ v ≤ intMax then pure v else throw .overflow

/-- `numeric_cast<int>` of a size. -/
def numericCast (size : ℕ) : GenM V ν ℤ := if (size : ℤ) ≤ intMax then pure size else throw .numericCast

/-- An element of a vector, which is not checked. -/
def element {α : Type} (l : List α) (i : ℤ) : GenM V ν α :=
  inspect fun _ => Storage.read .outOfRange l (toSize i)

/-- Commands to the executive. -/
def command (cs : List (Command V)) : GenM V ν PUnit :=
  modify fun w => { w with commands := w.commands ++ cs }

/-- `for (int x = first, m = first'; x != last; ++x, ++m)`. -/
def loop (first first' last : ℤ) (body : ℤ → ℤ → GenM V ν PUnit) : GenM V ν PUnit :=
  forNe .overflow last body first first'

/-- The position on an axis that wraps: the length is added once to a negative one. -/
def wrapTo (length x : ℤ) : GenM V ν ℤ :=
  if x < 0 then int (length + x) else if length ≤ x then pure (x.tmod length) else pure x

/-- The commands of the `switch` over the connectivity. -/
def link (type : Connectivity) (src dst cell : String) : List (Command V) :=
  match type with
  | .IN_OUT =>
    [.addOutputPort src "out", .addInputPort dst "in", .addConnection src "out" dst "in"]
  | .OTHER => [.addOutputPort src dst, .addInputPort dst src, .addConnection src dst dst src]
  | .NAMED => [.addOutputPort src cell, .addInputPort dst cell, .addConnection src cell dst cell]

/-! ## Lines -/

/-- A model of a line, connected as a cell of the mask says. -/
def connect1d (type : Connectivity) (mask : List String) (i x m : ℤ) : GenM V (List String) PUnit := do
  let cell ← element mask m
  if cell = "" then pure ⟨⟩
  else do
    let w ← get
    let src ← element w.modelnames i
    let dst ← element w.modelnames x
    command (link type src dst cell)

def make1dNoWrap (connectivity : Connectivity) (length : ℤ) (mask : List String) (x_mask : ℤ) :
    GenM V (List String) PUnit := do
  let mask_length ← numericCast mask.length
  loop 0 0 length fun i _ => do
    let before ← int (i - x_mask)
    let next ← int (i + mask_length)
    let next ← int (next - x_mask)
    let mask_before ← int (x_mask - i)
    let i_min := max 0 before
    let i_max := min length next
    let x_mask_min := max 0 mask_before
    loop i_min x_mask_min i_max fun x m => connect1d connectivity mask i x m

def make1dWrap (connectivity : Connectivity) (length : ℤ) (mask : List String) (x_mask : ℤ) :
    GenM V (List String) PUnit := do
  let mask_length ← numericCast mask.length
  loop 0 0 length fun i _ => do
    let x_min ← int (i - x_mask)
    let x_max ← int (i + mask_length)
    let x_max ← int (x_max - x_mask)
    loop x_min 0 x_max fun x m => do
      let p ← wrapTo length x
      connect1d connectivity mask i p m

/-- The text of the exceptions. -/
def badModelParameters : Failure := .argError "regular_graph_generator: bad model parameters"

def badParameters : Failure := .argError "regular_graph_generator: bad parameters"

/-- The loop of `make_1d` over the models. -/
def create1d (conditions : Conditions V) (m_params : Parameter) (length : ℤ) :
    GenM V (List String) PUnit := do
  modify fun w => { w with modelnames := List.replicate length.toNat "" }
  loop 0 0 length fun i _ => do
    let made := m_params.make_model ⟨i, -1, -1⟩
    command [.createModelFromClass made.2 made.1 [] [] conditions]
    let w ← get
    let modelnames ← inspect fun _ => Storage.write .outOfRange w.modelnames (toSize i) made.1
    modify fun w => { w with modelnames := modelnames }

/-- `make_1d` after its checks. -/
def build1d (conditions : Conditions V) (m_params : Parameter) (length : ℤ) (wrap : Bool)
    (mask : List String) (x_mask : ℤ) : GenM V (List String) PUnit := do
  create1d conditions m_params length
  modify fun w => { w with vertices := length }
  if wrap then make1dWrap m_params.type length mask x_mask
  else make1dNoWrap m_params.type length mask x_mask

/-- `make_1d`. -/
def make1d (conditions : Conditions V) (m_params : Parameter) (length : ℤ) (wrap : Bool)
    (mask : List String) (x_mask : ℤ) : GenM V (List String) PUnit :=
  if length ≤ 0 ∨ mask.length = 0 then throw badModelParameters
  else do
    let size ← numericCast mask.length
    if size ≤ x_mask then throw badModelParameters
    else build1d conditions m_params length wrap mask x_mask

/-! ## Grids -/

/-- A model of a grid, connected as a cell of the mask says. -/
def connect2d (type : Connectivity) (mask : TwoDim String) (c r x y m n : ℤ) :
    GenM V (TwoDim String) PUnit := do
  let cell ← inspect fun _ => mask.get (toSize m) (toSize n)
  if cell = "" then pure ⟨⟩
  else do
    let src ← inspect fun w => w.modelnames.get (toSize c) (toSize r)
    let dst ← inspect fun w => w.modelnames.get (toSize x) (toSize y)
    command (link type src dst cell)

def applyMask (params : Parameter) (c r : ℤ) (length : ℤ × ℤ) (mask : TwoDim String)
    (x_mask y_mask : ℤ) : GenM V (TwoDim String) PUnit := do
  let mask_columns ← numericCast mask.m_columns
  let mask_rows ← numericCast mask.m_rows
  let x_before ← int (c - x_mask)
  let x_next ← int (c + mask_columns)
  let x_next ← int (x_next - x_mask)
  let y_before ← int (r - y_mask)
  let y_next ← int (r + mask_rows)
  let y_next ← int (y_next - y_mask)
  let x_mask_before ← int (x_mask - c)
  let y_mask_before ← int (y_mask - r)
  loop (max 0 y_before) (max 0 y_mask_before) (min length.2 y_next) fun y n =>
    loop (max 0 x_before) (max 0 x_mask_before) (min length.1 x_next) fun x m =>
      connect2d params.type mask c r x y m n

def applyWrapMask (wrap : Bool × Bool) (params : Parameter) (c r : ℤ) (length : ℤ × ℤ)
    (mask : TwoDim String) (x_mask y_mask : ℤ) : GenM V (TwoDim String) PUnit := do
  let mask_columns ← numericCast mask.m_columns
  let mask_rows ← numericCast mask.m_rows
  let x_min ← int (c - x_mask)
  let x_max ← int (c + mask_columns)
  let x_max ← int (x_max - x_mask)
  let y_min ← int (r - y_mask)
  let y_max ← int (r + mask_rows)
  let y_max ← int (y_max - y_mask)
  loop y_min 0 y_max fun y n =>
    -- the loops go on with the next row or column where the axis does not wrap
    if wrap.2 then do
      let p ← wrapTo length.2 y
      loop x_min 0 x_max fun x m =>
        if wrap.1 then do
          let q ← wrapTo length.1 x
          connect2d params.type mask c r q p m n
        else pure ⟨⟩
    else pure ⟨⟩

/-- The loops of `make_2d` over the models. -/
def create2d (conditions : Conditions V) (m_params : Parameter) (length : ℤ × ℤ) :
    GenM V (TwoDim String) PUnit := do
  modify fun w => { w with modelnames := TwoDim.ofSizes (toSize length.1) (toSize length.2) "" }
  loop 0 0 length.1 fun c _ =>
    loop 0 0 length.2 fun r _ => do
      let made := m_params.make_model ⟨c, r, -1⟩
      command [.createModelFromClass made.2 made.1 [] [] conditions]
      let w ← get
      let modelnames ← inspect fun _ => w.modelnames.assign (toSize c) (toSize r) made.1
      modify fun w => { w with modelnames := modelnames }

/-- The loops of `make_2d` over the masks of the models. -/
def apply2d (m_params : Parameter) (length : ℤ × ℤ) (wrap : Bool × Bool) (mask : TwoDim String)
    (x_mask y_mask : ℤ) : GenM V (TwoDim String) PUnit :=
  if wrap.1 = false ∧ wrap.2 = false then
    loop 0 0 length.1 fun c _ =>
      loop 0 0 length.2 fun r _ => applyMask m_params c r length mask x_mask y_mask
  else
    loop 0 0 length.1 fun c _ =>
      loop 0 0 length.2 fun r _ => applyWrapMask wrap m_params c r length mask x_mask y_mask

/-- `make_2d`. -/
def make2d (conditions : Conditions V) (m_params : Parameter) (length : ℤ × ℤ) (wrap : Bool × Bool)
    (mask : TwoDim String) (x_mask y_mask : ℤ) : GenM V (TwoDim String) PUnit := do
  let product ← int (length.1 * length.2)
  if product ≤ 0 ∨ x_mask < 0 ∨ y_mask < 0 ∨ mask.m_columns ≤ toSize x_mask ∨
      mask.m_rows ≤ toSize y_mask then
    throw badParameters
  else do
    modify fun w => { w with vertices := product }
    create2d conditions m_params length
    apply2d m_params length wrap mask x_mask y_mask

/-! ## The graph of a mask -/

/-- The connections among some commands. -/
def connections (cs : List (Command V)) : List (String × String × String × String) :=
  cs.filterMap fun c =>
    match c with
    | .addConnection src srcPort dst dstPort => some (src, srcPort, dst, dstPort)
    | _ => none

/-- A connection, with the port names of the connectivity. -/
def connection (type : Connectivity) (src dst cell : String) : String × String × String × String :=
  match type with
  | .IN_OUT => (src, "out", dst, "in")
  | .OTHER => (src, dst, dst, src)
  | .NAMED => (src, cell, dst, cell)

/-- The position at an offset on an axis: modulo the length when the axis wraps, and otherwise only on
the axis. -/
def target (wrap : Bool) (length i o : ℤ) : Option ℤ :=
  if wrap then some ((i + o) % length)
  else if 0 ≤ i + o ∧ i + o < length then some (i + o) else none

/-! ## Programs -/

theorem int_of_bounds {v : ℤ} (h : intMin ≤ v ∧ v ≤ intMax) : (int v : GenM V ν ℤ) = pure v := if_pos h

theorem int_bind_ok {α : Type} {v : ℤ} {f : ℤ → GenM V ν α} {w w' : Work V ν} {u : α}
    (h : (int v >>= f) w = .ok u w') : (intMin ≤ v ∧ v ≤ intMax) ∧ f v w = .ok u w' := by
  by_cases hv : intMin ≤ v ∧ v ≤ intMax
  · rw [int_of_bounds hv, pure_bind] at h
    exact ⟨hv, h⟩
  · rw [int, if_neg hv] at h
    cases h

theorem numericCast_of_le {n : ℕ} (h : (n : ℤ) ≤ intMax) : (numericCast n : GenM V ν ℤ) = pure ↑n :=
  if_pos h

theorem numericCast_bind_ok {α : Type} {n : ℕ} {f : ℤ → GenM V ν α} {w w' : Work V ν} {u : α}
    (h : (numericCast n >>= f) w = .ok u w') : (n : ℤ) ≤ intMax ∧ f n w = .ok u w' := by
  by_cases hn : (n : ℤ) ≤ intMax
  · rw [numericCast_of_le hn, pure_bind] at h
    exact ⟨hn, h⟩
  · rw [numericCast, if_neg hn] at h
    cases h

/-- The position is the remainder unless it is before the line by more than its length. -/
theorem wrapTo_of_le {length x : ℤ} (h0 : 0 < length) (hlength : length ≤ intMax) (hx : -length ≤ x) :
    (wrapTo length x : GenM V ν ℤ) = pure (x % length) := by
  have hmax : intMin = -intMax - 1 := by decide
  unfold wrapTo
  split_ifs with hneg hge
  · rw [int_of_bounds (by omega), ← Int.add_emod_left, Int.emod_eq_of_lt (by omega) (by omega)]
  · rw [Int.tmod_eq_emod_of_nonneg (by omega)]
  · rw [Int.emod_eq_of_lt (by omega) (by omega)]

/-- Otherwise it stays negative. -/
theorem wrapTo_of_lt {length x : ℤ} (h0 : 0 < length) (hlength : length ≤ intMax) (hx : x < -length)
    (hmin : intMin ≤ x) : (wrapTo length x : GenM V ν ℤ) = pure (length + x) := by
  have hmax : intMin = -intMax - 1 := by decide
  rw [wrapTo, if_pos (by omega), int_of_bounds (by omega)]

/-- The position on an axis that wraps is its remainder, unless it stays negative. -/
theorem wrapTo_eq {length x : ℤ} (h0 : 0 < length) (hlength : length ≤ intMax) (hx : intMin ≤ x) :
    ∃ v, (wrapTo length x : GenM V ν ℤ) = pure v ∧ (intMin ≤ v ∧ v < length) ∧
      (0 ≤ v → v = x % length) := by
  have hmin : intMin < 0 := by decide
  rcases le_or_gt (-length) x with hle | hlt
  · have := Int.emod_nonneg x h0.ne'
    exact ⟨x % length, wrapTo_of_le h0 hlength hle, ⟨by omega, Int.emod_lt_of_pos x h0⟩, fun _ => rfl⟩
  · exact ⟨length + x, wrapTo_of_lt h0 hlength hlt hx, by omega, by omega⟩

theorem toSize_of_nonneg {i : ℤ} (h0 : 0 ≤ i) (h : i ≤ intMax) : toSize i = i.toNat := by
  unfold toSize sizeType
  unfold intMax at h
  omega

theorem toSize_of_neg {i : ℤ} (h0 : i < 0) (h : intMin ≤ i) : intMax < toSize i := by
  unfold toSize sizeType intMax
  unfold intMin at h
  omega

theorem connections_append (cs ds : List (Command V)) :
    connections (cs ++ ds) = connections cs ++ connections ds :=
  List.filterMap_append

theorem connections_link (type : Connectivity) (src dst cell : String) :
    connections (link type src dst cell : List (Command V)) = [connection type src dst cell] := by
  cases type <;> rfl

/-- The names of the models are the same. -/
def SameNames (w w' : Work V ν) : Prop := w'.modelnames = w.modelnames

instance : Std.Refl (SameNames (V := V) (ν := ν)) := ⟨fun _ => rfl⟩

instance : IsTrans (Work V ν) SameNames := ⟨fun _ _ _ h h' => h'.trans h⟩

theorem within_int (v : ℤ) : Within SameNames (int v : GenM V ν ℤ) := by
  unfold int
  split_ifs
  · exact within_pure _
  · exact within_throw _

theorem within_wrapTo (length x : ℤ) : Within SameNames (wrapTo length x : GenM V ν ℤ) := by
  unfold wrapTo
  split_ifs
  · exact within_int _
  · exact within_pure _
  · exact within_pure _

theorem within_command (cs : List (Command V)) : Within SameNames (command cs : GenM V ν PUnit) :=
  within_modify fun _ => rfl

theorem within_loop {a b c : ℤ} {f : ℤ → ℤ → GenM V ν PUnit} (h : ∀ x m, Within SameNames (f x m)) :
    Within SameNames (loop a b c f) := by
  intro w _ w' hrun
  obtain ⟨-, -, hforM⟩ := forNe_of_ok hrun
  exact within_forM (fun k => h _ _) _ w _ w' hforM

/-- A program that makes some connections and keeps the names, unless it fails in an E way. -/
def Connects (E : Failure → Prop) (names : ν) (x : GenM V ν PUnit)
    (cs : List (String × String × String × String)) : Prop :=
  ∀ w, w.modelnames = names → (∃ w', x w = .ok ⟨⟩ w' ∧ w'.modelnames = names ∧
    connections w'.commands = connections w.commands ++ cs) ∨ ∃ e w', x w = .error e w' ∧ E e

variable {E : Failure → Prop} {N : ν}

theorem connects_pure : Connects (V := V) E N (pure ⟨⟩) [] :=
  fun w hw => .inl ⟨w, rfl, hw, (List.append_nil _).symm⟩

/-- A loop makes the connections of its rounds. -/
theorem connects_forM {l : List ℕ} {f : ℕ → GenM V ν PUnit}
    {g : ℕ → List (String × String × String × String)}
    (h : ∀ k ∈ l, Connects E N (f k) (g k)) :
    Connects E N (l.forM f) (l.flatMap g) := by
  induction l with
  | nil => exact connects_pure
  | cons k l ih =>
    intro w hw
    have hrest := ih fun j hj => h j (List.mem_cons_of_mem k hj)
    change (∃ w', (f k >>= fun _ => l.forM f) w = .ok ⟨⟩ w' ∧ _) ∨
      ∃ e w', (f k >>= fun _ => l.forM f) w = .error e w' ∧ E e
    rcases h k List.mem_cons_self w hw with ⟨w₁, hk, hN₁, hcs₁⟩ | ⟨e, w₁, hk, he⟩
    · rw [bind_run hk]
      rcases hrest w₁ hN₁ with ⟨w₂, hl, hN₂, hcs₂⟩ | herror
      · exact .inl ⟨w₂, hl, hN₂, by rw [hcs₂, hcs₁, List.flatMap_cons, List.append_assoc]⟩
      · exact .inr herror
    · exact .inr ⟨e, w₁, bind_run_error hk, he⟩

/-- A loop of the source makes the connections of its rounds. -/
theorem connects_loop {a b c : ℤ} {n : ℕ} {f : ℤ → ℤ → GenM V ν PUnit} (hn : c = a + n)
    (hc : c ≤ intMax) (hb : b + n ≤ intMax) {g : ℕ → List (String × String × String × String)}
    (h : ∀ k < n, Connects E N (f (a + k) (b + k)) (g k)) :
    Connects E N (loop a b c f) ((List.range n).flatMap g) := by
  subst hn
  rw [loop, forNe_eq (by omega) hc (by omega), add_sub_cancel_left, Int.toNat_natCast]
  exact connects_forM fun k hk => h k (List.mem_range.mp hk)

/-- A loop from zero is a loop over a range. -/
theorem loop_zero_eq {c : ℤ} (h0 : 0 ≤ c) (hc : c ≤ intMax) (f : ℤ → ℤ → GenM V ν PUnit) :
    loop 0 0 c f = (List.range c.toNat).forM fun k => f k k := by
  rw [loop, forNe_eq h0 hc (by omega), Int.sub_zero]
  simp only [zero_add]

/-- A loop from zero. -/
theorem connects_loop_zero {c : ℤ} {f : ℤ → ℤ → GenM V ν PUnit} (h0 : 0 ≤ c) (hc : c ≤ intMax)
    {g : ℕ → List (String × String × String × String)}
    (h : ∀ k : ℕ, (k : ℤ) < c → Connects E N (f k k) (g k)) :
    Connects E N (loop 0 0 c f) ((List.range c.toNat).flatMap g) := by
  refine connects_loop (by omega) hc (by omega) fun k hk => ?_
  rw [zero_add]
  exact h k (by omega)

/-- A loop that is clipped to an axis makes the connections of the cells whose targets are on it. -/
theorem connects_clipped {length i o : ℤ} {n : ℕ} (ho : -1 ≤ o) (hn : o < n) (h0 : 0 ≤ i)
    (hi : i < length) (hsum : length - 1 + n ≤ intMax) (hsum' : length - 1 + n - o ≤ intMax)
    {f : ℤ → ℤ → GenM V ν PUnit} {g : ℕ → List (String × String × String × String)}
    (hin : ∀ m < n, ∀ t, target false length i (m - o) = some t → Connects E N (f t m) (g m))
    (hout : ∀ m < n, target false length i (m - o) = none → g m = []) :
    Connects E N (loop (max 0 (i - o)) (max 0 (o - i)) (min length (i + n - o)) f)
      ((List.range n).flatMap g) := by
  set a := max 0 (i - o) with ha
  set b := max 0 (o - i) with hb
  set c := min length (i + n - o) with hc
  rw [flatMap_range_window (a := b.toNat) (k := (c - a).toNat) (by omega)]
  · -- the cells from `b` on are those of the positions from `a` to before `c`
    refine connects_loop (by omega) (by omega) (by omega) fun k hk => ?_
    have hm : b + (k : ℤ) = ((b.toNat + k : ℕ) : ℤ) := by omega
    rw [hm]
    refine hin _ (by omega) _ ?_
    have hx : i + (((b.toNat + k : ℕ) : ℤ) - o) = a + k := by omega
    simp only [target, hx, Bool.false_eq_true, if_false]
    exact if_pos (by omega)
  · intro m hm houtside
    have : ¬ (0 ≤ i + ((m : ℤ) - o) ∧ i + ((m : ℤ) - o) < length) := by omega
    exact hout m hm (by rw [target, if_neg Bool.false_ne_true, if_neg this])

end Vle.Translator
