import Vle.Manager.Accu
import Vle.Manager.Plan

/-!
# The outputs of a plan

A `ManOutput` gets the view of every simulation. It integrates the column of its port over time, and a
delegate aggregates what this gives: first over the replicates of an input, in an accumulator that it
creates when the first one comes and gives up with the last one, then over the inputs. There are four
delegates, by whether the integration keeps all values, and the aggregation over the inputs.
-/

namespace Vle.Manager

/-- A `value::Matrix` by its cells. -/
structure Matrix where
  columns : ℕ
  rows : ℕ
  cell : ℕ → ℕ → Option (Value ℚ)

namespace Matrix

/-- `Matrix::get`, whose check lets one row too many through. -/
def get (m : Matrix) (column row : ℕ) : Except Fault (Option (Value ℚ)) :=
  if column < m.columns ∧ row ≤ m.rows then
    .ok (m.cell column row)
  else
    .error (.thrown s!"Matrix: bad access {column} {row} for {m.columns} x {m.rows} matrix")

/-- The value at a cell that must not be empty. -/
def getValue (m : Matrix) (column row : ℕ) : Except Fault (Value ℚ) := do
  match ← m.get column row with
  | some v => return v
  | none =>
    throw (.thrown s!"Matrix: empty or null value at {column} {row} for {m.columns} x {m.rows} ")

def getDouble (m : Matrix) (column row : ℕ) : Except Fault ℚ := do
  match ← m.getValue column row with
  | .double d => return d
  | _ => throw (.thrown "Value is not a double")

def getString (m : Matrix) (column row : ℕ) : Except Fault String := do
  match ← m.getValue column row with
  | .string s => return s
  | _ => throw (.thrown "Value is not a string")

def set (m : Matrix) (column row : ℕ) (v : Option (Value ℚ)) : Except Fault Matrix :=
  if column < m.columns ∧ row ≤ m.rows then
    .ok { m with cell := fun c r => if c = column ∧ r = row then v else m.cell c r }
  else
    .error (.thrown s!"Matrix: bad access {column} {row} for {m.columns} x {m.rows} matrix")

/-- A new size; the cells that are not in both sizes are empty. -/
def resize (m : Matrix) (columns rows : ℕ) : Matrix :=
  { columns, rows, cell := fun c r =>
      if c < m.columns ∧ r < m.rows ∧ c < columns ∧ r < rows then m.cell c r else none }

/-- The column from the second row on. -/
def column (m : Matrix) (column : ℕ) : Except Fault (List ℚ) :=
  (List.range' 1 (m.rows - 1)).mapM (m.getDouble column)

end Matrix

/-- The views of a simulation by their names. -/
abbrev Views := String → Option Matrix

inductive IntegrationType where
  | LAST
  | MAX
  | SUM
  | MSE
  | ALL
  deriving DecidableEq, Repr

/-- The members of `ManOutput` that its constructor sets. The member `shared` stays true. -/
structure ManOutput where
  id : String
  view : String := ""
  absolutePort : String := ""
  integrationType : IntegrationType := .LAST
  replicateAggregationType : AccuStat := .S_mean
  inputAggregationType : AccuStat := .S_at
  mseTimes : List ℚ := []
  mseObservations : List ℚ := []
  mse : mseTimes.length = mseObservations.length := by rfl
  replicateAggregationQuantile : ℚ := 1 / 2

namespace ManOutput

/-- `ManOutput::parsePath`: the view and the port of a path. -/
def parsePath (path : String) : Option (String × String) :=
  match tokenize path "/" false with
  | [view, port] => some (view, port)
  | _ => none

/-- A string of a configuration. -/
def getString (m : List (String × Option (Value ℚ))) (name : String) : Except Fault String := do
  match ← Value.mapGet m name with
  | some (.string s) => return s
  | some _ => throw (.thrown "Value is not a string")
  | none => throw (.thrown s!"Map: the key '{name}' have empty (null) value")

/-- A double of a configuration. -/
def getDouble (m : List (String × Option (Value ℚ))) (name : String) : Except Fault ℚ := do
  match ← Value.mapGet m name with
  | some (.double d) => return d
  | some _ => throw (.thrown "Value is not a double")
  | none => throw (.thrown s!"Map: the key '{name}' have empty (null) value")

/-- A tuple of a configuration. -/
def getTuple (m : List (String × Option (Value ℚ))) (name : String) : Except Fault (List ℚ) := do
  match ← Value.mapGet m name with
  | some (.tuple t) => return t
  | some _ => throw (.thrown "Value is not a tuple")
  | none => throw (.thrown s!"Map: the key '{name}' have empty (null) value")

/-- The exception for an output that is configured with a map. -/
def badMap (id : String) : Fault :=
  .thrown s!"[Manager] : error in configuration of the output 'output_{id}' with a map"

/-- The aggregation over the replicates, with its quantile. -/
def replicateAggregation (m : List (String × Option (Value ℚ))) (id : String) (o : ManOutput) :
    Except Fault ManOutput := do
  if !Value.mapExist m "aggregation_replicate" then
    return o
  match ← getString m "aggregation_replicate" with
  | "mean" => return { o with replicateAggregationType := .S_mean }
  | "quantile" =>
    if Value.mapExist m "replicate_quantile" then
      let q ← getDouble m "replicate_quantile"
      return { o with replicateAggregationType := .S_quantile, replicateAggregationQuantile := q }
    else
      return { o with replicateAggregationType := .S_quantile }
  | "variance" => return { o with replicateAggregationType := .S_variance }
  | _ => throw (badMap id)

/-- The aggregation over the inputs. -/
def inputAggregation (m : List (String × Option (Value ℚ))) (id : String) (o : ManOutput) :
    Except Fault ManOutput := do
  if !Value.mapExist m "aggregation_input" then
    return o
  match ← getString m "aggregation_input" with
  | "mean" => return { o with inputAggregationType := .S_mean }
  | "quantile" => return { o with inputAggregationType := .S_quantile }
  | "max" => return { o with inputAggregationType := .S_max }
  | "all" => return { o with inputAggregationType := .S_at }
  | _ => throw (.thrown (s!"[Manager] : error in configuration of the output 'output_{id}' when " ++
      "parsing the aggregation type of inputs"))

/-- The integration, with the times and the observations of a square error. -/
def integration (m : List (String × Option (Value ℚ))) (id : String) (o : ManOutput) :
    Except Fault ManOutput := do
  if !Value.mapExist m "integration" then
    return { o with integrationType := .LAST }
  match ← getString m "integration" with
  | "last" => return { o with integrationType := .LAST }
  | "max" => return { o with integrationType := .MAX }
  | "sum" => return { o with integrationType := .SUM }
  | "mse" =>
    if !(Value.mapExist m "mse_times" && Value.mapExist m "mse_observations") then
      throw (badMap id)
    let times ← getTuple m "mse_times"
    let observations ← getTuple m "mse_observations"
    if h : times.length = observations.length then
      return { o with
        integrationType := .MSE, mseTimes := times, mseObservations := observations, mse := h }
    else
      throw (badMap id)
  | "all" => return { o with integrationType := .ALL }
  | tmp => throw (.thrown (s!"[Manager] : error in configuration of the output 'output_{id}' when " ++
      s!"parsing the integration type: '{tmp}'"))

/-- The constructor of `ManOutput`. -/
def make (id : String) (val : Value ℚ) : Except Fault ManOutput := do
  match val with
  | .string s =>
    match parsePath s with
    | some (view, absolutePort) => return { id, view, absolutePort }
    | none => throw (.thrown
        s!"[Manager] : error in configuration of the output 'output_{id}' with a string; got: '{s}'")
  | .map m =>
    let mut o : ManOutput := { id }
    if Value.mapExist m "path" then
      match parsePath (← getString m "path") with
      | some (view, absolutePort) => o := { o with view, absolutePort }
      | none => throw (.thrown
          s!"[Manager] : error in configuration of the output  'output_{id}' when parsing the path")
    o ← replicateAggregation m id o
    o ← inputAggregation m id o
    integration m id o
  | _ => return { id }

/-- `DelegateOut::integrateReplicate`: what is kept of a view, but for the integration that keeps all.
The quotient of a square error without a time in the view is not a number in the source. -/
def integrateReplicate (o : ManOutput) (colIndex : ℕ) (outMat : Matrix) : Except Fault (Value ℚ) :=
  match o.integrationType with
  | .MAX => do
    let column ← outMat.column colIndex
    return .double (column.foldl (fun max v => if v > max then v else max) (-9999))
  | .SUM => do
    let column ← outMat.column colIndex
    return .double column.sum
  | .LAST => do
    Value.deref (← outMat.get colIndex (outMat.rows - 1))
  | .MSE => do
    let errors ← (o.mseTimes.zip o.mseObservations).filterMapM fun x => do
      let t := ⌊x.1⌋
      if 0 ≤ t ∧ t + 1 < outMat.rows then
        return some (((← outMat.getDouble colIndex (t.toNat + 1)) - x.2) ^ 2)
      else
        return none
    return .double (errors.sum / errors.length)
  | .ALL => .error .null

/-- What is kept of a view, as a double. -/
def integrateDouble (o : ManOutput) (colIndex : ℕ) (outMat : Matrix) : Except Fault ℚ := do
  match ← o.integrateReplicate colIndex outMat with
  | .double d => return d
  | _ => throw (.thrown "Value is not a double")

end ManOutput

/-- The value of an output: a number, a table, or a matrix of any values. -/
inductive Aggregate where
  | double (d : ℚ)
  | table (t : Table)
  | matrix (m : Matrix)

/-- The four delegates. `mreplicateAccu` maps an input to the accumulator of its replicates. -/
inductive Delegate where
  | std (mreplicateAccu : ℕ → Option AccuMono) (minputAccu : Option AccuMono)
  | intAggrAll (manageDouble : Bool) (mreplicateAccu : ℕ → Option AccuMulti)
      (minputAccu : Option Aggregate) (nbInputsFilled : ℕ)
  | intAll (mreplicateAccu : ℕ → Option AccuMulti) (minputAccu : Option AccuMulti)
  | aggrAll (manageDouble : Bool) (mreplicateAccu : ℕ → Option AccuMono)
      (minputAccu : Option Aggregate) (nbInputsFilled : ℕ)

/-- What a `ManOutput` keeps from one insertion to the next. -/
structure OutputState where
  colIndex : ℕ
  nbInputs : ℕ
  nbReplicates : ℕ
  delegate : Delegate

namespace Delegate

/-- `DelegateOut::getAccu` of single accumulators. -/
def getAccuMono (accus : ℕ → Option AccuMono) (index : ℕ) (o : ManOutput) : AccuMono :=
  (accus index).getD
    ((AccuMono.ofStat o.replicateAggregationType).setDefaultQuantile o.replicateAggregationQuantile)

/-- `DelegateOut::getAccu` of columns of accumulators. -/
def getAccuMulti (accus : ℕ → Option AccuMulti) (index : ℕ) (o : ManOutput) : AccuMulti :=
  (accus index).getD
    ((AccuMulti.ofStat o.replicateAggregationType).setDefaultQuantile o.replicateAggregationQuantile)

/-- What a null pointer to an accumulator gives. -/
def nonNull {α : Type} : Option α → Except Fault α
  | some a => .ok a
  | none => .error .null

/-- `Value::toTable`. -/
def toTable : Aggregate → Except Fault Table
  | .table t => .ok t
  | _ => .error (.thrown "Value is not a table")

/-- `Value::toMatrix`. -/
def toMatrix : Aggregate → Except Fault Matrix
  | .matrix m => .ok m
  | _ => .error (.thrown "Value is not a matrix")

variable (o : ManOutput) (colIndex nbInputs nbReplicates : ℕ) (outMat : Matrix) (currInput : ℕ)

/-- `DelOutStd::insertReplicate`. -/
def insertStd (accus : ℕ → Option AccuMono) (minputAccu : Option AccuMono) :
    Except Fault (Delegate × Option Aggregate) := do
  let v ← o.integrateDouble colIndex outMat
  let (accus, inputAccu) ←
    if nbReplicates = 1 then do
      pure (accus, (← nonNull minputAccu).insert v)
    else do
      let accuRepl := (getAccuMono accus currInput o).insert v
      if accuRepl.count = nbReplicates then
        let stat ← accuRepl.getStat o.replicateAggregationType
        pure (Function.update accus currInput none, (← nonNull minputAccu).insert stat)
      else
        pure (Function.update accus currInput (some accuRepl), ← nonNull minputAccu)
  if inputAccu.count = nbInputs then
    let res ← inputAccu.getStat o.inputAggregationType
    return (.std accus none, some (.double res))
  else
    return (.std accus (some inputAccu), none)

/-- The table or the matrix that `DelOutIntAggrALL` fills, created with the first view and resized
when its height is less than the rows of the view, which have a header. -/
def createIntAggrAll (manageDouble : Bool) (minputAccu : Option Aggregate) :
    Except Fault Aggregate := do
  let acc ←
    match minputAccu with
    | some acc => pure acc
    | none =>
      if manageDouble then do
        pure (.table (← Table.ofSize nbInputs (outMat.rows - 1)))
      else
        pure (.matrix { columns := nbInputs, rows := outMat.rows - 1, cell := fun _ _ => none })
  if manageDouble then
    let t ← toTable acc
    if t.height < outMat.rows then
      return .table (← t.resize nbInputs (outMat.rows - 1))
    else
      return acc
  else
    let m ← toMatrix acc
    if m.rows < outMat.rows then
      return .matrix (m.resize nbInputs (outMat.rows - 1))
    else
      return acc

/-- `DelOutIntAggrALL::insertReplicate`. -/
def insertIntAggrAll (manageDouble : Bool) (accus : ℕ → Option AccuMulti)
    (minputAccu : Option Aggregate) (nbInputsFilled : ℕ) :
    Except Fault (Delegate × Option Aggregate) := do
  let acc ← createIntAggrAll nbInputs outMat manageDouble minputAccu
  let (accus, acc, filled) ←
    if nbReplicates = 1 then
      if manageDouble then do
        let column ← outMat.column colIndex
        pure (accus, Aggregate.table (← (← toTable acc).fillColumn currInput column),
          nbInputsFilled + 1)
      else do
        let m ← toMatrix acc
        let m ← (List.range' 1 (outMat.rows - 1)).foldlM (fun m i => do
          let v ← Value.deref (← outMat.get colIndex i)
          m.set currInput (i - 1) (some v)) m
        pure (accus, Aggregate.matrix m, nbInputsFilled + 1)
    else do
      let accuRepl := (getAccuMulti accus currInput o).insertColumn (← outMat.column colIndex)
      if (← accuRepl.count) = nbReplicates then
        let column ← accuRepl.stats o.replicateAggregationType
        pure (Function.update accus currInput none,
          Aggregate.table (← (← toTable acc).fillColumn currInput column), nbInputsFilled + 1)
      else
        pure (Function.update accus currInput (some accuRepl), acc, nbInputsFilled)
  if filled = nbInputs then
    return (.intAggrAll manageDouble accus none filled, some acc)
  else
    return (.intAggrAll manageDouble accus (some acc) filled, none)

/-- `DelOutIntALL::insertReplicate`. -/
def insertIntAll (accus : ℕ → Option AccuMulti) (minputAccu : Option AccuMulti) :
    Except Fault (Delegate × Option Aggregate) := do
  let inputAccu := minputAccu.getD (AccuMulti.ofStat o.inputAggregationType)
  let column ← outMat.column colIndex
  let (accus, inputAccu) ←
    if nbReplicates = 1 then
      pure (accus, inputAccu.insertColumn column)
    else do
      let accuRepl := (getAccuMulti accus currInput o).insertColumn column
      if (← accuRepl.count) = nbReplicates then
        pure (Function.update accus currInput none,
          ← inputAccu.insertAccuStat accuRepl o.replicateAggregationType)
      else
        pure (Function.update accus currInput (some accuRepl), inputAccu)
  if (← inputAccu.count) = nbInputs then
    let res ← Table.ofSize 1 inputAccu.size
    let res ← res.fillColumn 0 (← inputAccu.stats o.inputAggregationType)
    return (.intAll accus (some inputAccu), some (.table res))
  else
    return (.intAll accus (some inputAccu), none)

/-- `DelOutAggrALL::insertReplicate`. -/
def insertAggrAll (manageDouble : Bool) (accus : ℕ → Option AccuMono)
    (minputAccu : Option Aggregate) (nbInputsFilled : ℕ) :
    Except Fault (Delegate × Option Aggregate) := do
  let intVal ← o.integrateReplicate colIndex outMat
  let acc ← nonNull minputAccu
  let (accus, acc, filled) ←
    if nbReplicates = 1 then
      if manageDouble then do
        let v ← o.integrateDouble colIndex outMat
        pure (accus, Aggregate.table (← (← toTable acc).set currInput 0 v), nbInputsFilled + 1)
      else do
        pure (accus, Aggregate.matrix (← (← toMatrix acc).set currInput 0 (some intVal)),
          nbInputsFilled + 1)
    else do
      let accuRepl := (getAccuMono accus currInput o).insert (← o.integrateDouble colIndex outMat)
      if accuRepl.count = nbReplicates then
        let stat ← accuRepl.getStat o.replicateAggregationType
        pure (Function.update accus currInput none,
          Aggregate.table (← (← toTable acc).set currInput 0 stat), nbInputsFilled + 1)
      else
        pure (Function.update accus currInput (some accuRepl), acc, nbInputsFilled)
  if filled = nbInputs then
    return (.aggrAll manageDouble accus none filled, some acc)
  else
    return (.aggrAll manageDouble accus (some acc) filled, none)

/-- `insertReplicate` of a delegate. -/
def insertReplicate : Delegate → Except Fault (Delegate × Option Aggregate)
  | .std accus acc => insertStd o colIndex nbInputs nbReplicates outMat currInput accus acc
  | .intAggrAll d accus acc filled =>
    insertIntAggrAll o colIndex nbInputs nbReplicates outMat currInput d accus acc filled
  | .intAll accus acc => insertIntAll o colIndex nbInputs nbReplicates outMat currInput accus acc
  | .aggrAll d accus acc filled =>
    insertAggrAll o colIndex nbInputs nbReplicates outMat currInput d accus acc filled

/-- The delegate of an output. -/
def create (manageDouble : Bool) : Except Fault Delegate :=
  if o.integrationType = .ALL then
    if o.inputAggregationType = .S_at then
      .ok (.intAggrAll manageDouble (fun _ => none) none 0)
    else
      .ok (.intAll (fun _ => none) none)
  else
    if o.inputAggregationType = .S_at then
      if manageDouble then do
        return .aggrAll true (fun _ => none) (some (.table (← Table.ofSize nbInputs 1))) 0
      else
        .ok (.aggrAll false (fun _ => none)
          (some (.matrix { columns := nbInputs, rows := 1, cell := fun _ _ => none })) 0)
    else
      .ok (.std (fun _ => none) (some (AccuMono.ofStat o.inputAggregationType)))

end Delegate

namespace ManOutput

/-- The last column of a name, `9999` if there is none, which is what the source starts with. -/
def findColumn (absolutePort : String) (outMat : Matrix) : Except Fault ℕ :=
  (List.range outMat.columns).foldlM (fun colIndex i => do
    return if (← outMat.getString i 0) = absolutePort then i else colIndex) 9999

/-- What the first insertion does: it finds the column, and creates the delegate. -/
def start (o : ManOutput) (outMat : Matrix) (nbIn nbRepl : ℕ) : Except Fault OutputState := do
  if outMat.rows < 2 then
    throw (.thrown "[Manager] expect at least 2 rows")
  let colIndex ← findColumn o.absolutePort outMat
  if colIndex = 9999 then
    throw (.thrown s!"[Manager] view.port '{o.absolutePort}' not found)")
  let cell ← Value.deref (← outMat.get colIndex 1)
  let manageDouble :=
    match cell with
    | .double _ => true
    | _ => false
  if !manageDouble && (nbRepl ≠ 1 || (o.integrationType ≠ .ALL && o.integrationType ≠ .LAST) ||
      o.inputAggregationType ≠ .S_at) then
    throw (.thrown
      s!"[Manager] since data is not double no aggregation is possible for output '{o.id}'")
  return {
    colIndex, nbInputs := nbIn, nbReplicates := nbRepl,
    delegate := ← Delegate.create o nbIn manageDouble }

/-- `ManOutput::insertReplicate` of a simulation result. -/
def insertReplicate (o : ManOutput) (state : Option OutputState) (result : Views)
    (currInput nbIn nbRepl : ℕ) : Except Fault (OutputState × Option Aggregate) := do
  let some outMat := result o.view | throw (.thrown s!"[Manager] view '{o.view}' not found)")
  let state ←
    match state with
    | some state => pure state
    | none => o.start outMat nbIn nbRepl
  let (delegate, res) ← state.delegate.insertReplicate o state.colIndex state.nbInputs
    state.nbReplicates outMat currInput
  return ({ state with delegate }, res)

end ManOutput

/-- The outputs of a plan with what they keep, and the results. `received` records the values that the
outputs give, with their identifiers. -/
structure Outputs where
  states : List (ManOutput × Option OutputState)
  results : String → Option Aggregate := fun _ => none
  received : List (String × Aggregate) := []

namespace Outputs

/-- The outputs before the first insertion. -/
def start (mOutputs : List ManOutput) : Outputs := { states := mOutputs.map fun o => (o, none) }

/-- One turn of the loop of a worker over the outputs. -/
def insertOne (result : Views) (currInput N M : ℕ) (acc : Outputs)
    (x : ManOutput × Option OutputState) : Except Fault Outputs := do
  let (state, aggr) ← x.1.insertReplicate x.2 result currInput N M
  let states := acc.states ++ [(x.1, some state)]
  match aggr with
  | some aggr => return { states, results := Function.update acc.results x.1.id (some aggr),
                          received := acc.received ++ [(x.1.id, aggr)] }
  | none => return { acc with states }

/-- The insertion of a simulation result in all outputs. -/
def insertReplicate (s : Outputs) (result : Views) (currInput N M : ℕ) : Except Fault Outputs :=
  s.states.foldlM (insertOne result currInput N M)
    { states := [], results := s.results, received := s.received }

end Outputs

end Vle.Manager
