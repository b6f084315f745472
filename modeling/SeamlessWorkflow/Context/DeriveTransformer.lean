import SeamlessWorkflow.Context.SourceState

/-!
# The inputs of a transformer

`transformerReading` is the first part of `_derive_transformer`: what the code and the pins of a
transformer deliver, and whether that is a demand, a list of missing inputs, or a failure.
-/

namespace SeamlessWorkflow

/-- The reason that `unavailable` records for an input in some state. -/
def inputReason : SourceState → Reason
  | .miswired => .miswired
  | .blockedByMiswiring => .blockedByMiswiring
  | .failed => .blockedByError
  | .blocked | .unwired => .blockedByUnwired
  | _ => .waiting

/-- The state that a pin shows for an edge that is not complete. -/
def pinStateOf : SourceState → NodeState
  | .failed | .blocked | .unwired | .blockedByMiswiring => .blocked
  | .miswired => .miswired
  | .waiting => .waiting
  | .computing => .computing
  | .complete => .complete

/-- What derivation finds at one pin. -/
structure PinReading where
  state : PinState
  /-- Why the transformer has to wait for this pin. -/
  reason : Option Reason := none
  /-- The checksum that the pin contributes to the demand. -/
  value : Option Checksum := none
  /-- Does a recorded read error of the pin stay recorded? -/
  keepsReadError : Bool := true
  /-- A value error of a compiled transformer, which ends the derivation. -/
  fatal : Option Error := none
  deriving DecidableEq, Repr

/-- A pin that is not available. -/
def PinReading.unavailable (state : NodeState) (error : Option Error) (reason : Reason) :
    PinReading :=
  { state := ⟨state, none, error⟩, reason := some reason }

/-- A stored or delivered input of a pin, before it is converted. -/
structure PinInput where
  checksum : Checksum
  celltype : Celltype
  fromEdge : Bool
  deriving DecidableEq, Repr

/-- The input of a pin: what its edge delivers, else its stored producer. -/
def pinInput (env : Substrate) (v : View) (fields : TransformerFields)
    (incoming : List (Path × Edge)) (pin : String) : Evaluated (PinReading ⊕ PinInput) :=
  match incoming.lookup [.key pin] with
  | some edge => do
    let source ← sourceState env v edge
    match source.state, source.checksum with
    | .complete, some c =>
      let celltype := v.graph.edgeInputCelltype edge
      pure (.inr ⟨env.canonicalize c celltype, celltype, true⟩)
    | .complete, none => pure (.inl (.unavailable .unwired none (inputReason .unwired)))
    | state, _ => pure (.inl (.unavailable (pinStateOf state) none (inputReason state)))
  | none =>
    match fields.pinProducers.lookup pin with
    | some producer =>
      pure (.inr ⟨env.canonicalize producer.checksum producer.celltype, producer.celltype, false⟩)
    | none =>
      pure (.inl { state := ⟨.unwired, none, none⟩
                   reason := if fields.config.optionalPins.contains pin then none
                     else some .unwired })

/-- The rest of a pin once its checksum has the celltype of the pin: a recorded read error, and the
validation of a compiled transformer. -/
def pinChecked (env : Substrate) (fields : TransformerFields) (pin : String) (celltype : Celltype)
    (input : PinInput) (checksum : Checksum) : PinReading :=
  let config := fields.config
  let standing := (fields.pinReadErrors.lookup pin).filter fun recorded =>
    decide (recorded.checksum = checksum) && decide (recorded.inputType = input.celltype) &&
      decide (recorded.outputType = celltype)
  match standing with
  | some recorded => .unavailable .failed (some recorded.error) .blockedByError
  | none =>
    match if config.compilation.isSome then env.validatePin config pin celltype checksum
        else .valid with
    | .mixedValueError e =>
      { state := ⟨.failed, none, some e⟩, keepsReadError := false, fatal := some e }
    | .typeError e =>
      { PinReading.unavailable .failed (some e) .blockedByError with keepsReadError := false }
    | .valid =>
      { state := ⟨.complete, some checksum, none⟩, value := some checksum, keepsReadError := false }

/-- The error of a pin conversion, as a compiled transformer reports it. -/
def pinConversionError (config : TransformerConfig) (pin : String) (input : Celltype)
    (e : Error) : Error :=
  if config.compilation.isSome then
    ⟨.valueError, "Pin '" ++ pin ++ "' conversion from '" ++ input.name ++ "' to '" ++
      (config.celltypeOf pin).name ++ "': " ++ e.text, 0⟩
  else e

/-- One round of the pin loop of `_derive_transformer`. -/
def pinReading (env : Substrate) (v : View) (fields : TransformerFields)
    (incoming : List (Path × Edge)) (pin : String) : Evaluated PinReading := do
  let config := fields.config
  let celltype := config.celltypeOf pin
  let optional := config.optionalPins.contains pin
  let read ← pinInput env v fields incoming pin
  match read with
  | .inl reading => pure reading
  | .inr input =>
    if env.isNull input.checksum && optional then
      match if input.celltype = celltype then none
          else env.shapeError [] input.celltype celltype with
      | some e => pure (.unavailable .failed (some e) .blockedByError)
      | none => pure { state := ⟨.complete, some input.checksum, none⟩ }
    else match if config.compilation.isSome then none
        else env.pinNullError input.checksum celltype pin with
      | some e => pure (.unavailable .failed (some e) .blockedByError)
      | none =>
        if input.celltype = celltype then
          pure (pinChecked env fields pin celltype input input.checksum)
        else do
          let scratch := config.metadata.allowInputFingertip && input.fromEdge
          let result ← projection env v input.checksum [] input.celltype celltype
            { scratch := scratch, materialize := !scratch }
          match result.state, result.checksum with
          | .complete, some c => pure (pinChecked env fields pin celltype input c)
          | state, _ =>
            pure { state := ⟨state, none, result.error.map (pinConversionError config pin input.celltype)⟩
                   reason := some (inputReason state.toSource) }

/-- The pins in turn, up to the first fatal one. -/
def pinReadings (env : Substrate) (v : View) (fields : TransformerFields)
    (incoming : List (Path × Edge)) : List String → Evaluated (List (String × PinReading))
  | [] => pure []
  | pin :: pins => do
    let reading ← pinReading env v fields incoming pin
    if reading.fatal.isSome then pure [(pin, reading)]
    else do
      let readings ← pinReadings env v fields incoming pins
      pure ((pin, reading) :: readings)

/-- What the inputs of a transformer amount to. -/
inductive InputVerdict
  | failed (error : Error)
  | pending (reasons : List (Reason × String))
  | ready (code : Checksum) (pins : List (String × Checksum))
  deriving DecidableEq, Repr

structure TransformerReading where
  verdict : InputVerdict
  pins : List (String × PinReading) := []
  /-- The code that an edge delivers. -/
  edgeCode : Option Checksum := none
  deriving DecidableEq, Repr

/-- The code of a transformer, or why it is missing. -/
def codeReading (env : Substrate) (v : View) (fields : TransformerFields)
    (incoming : List (Path × Edge)) : Evaluated (Reason ⊕ Checksum) :=
  match incoming.lookup [.key "code"] with
  | some edge => do
    let source ← sourceState env v edge
    match source.state, source.checksum with
    | .complete, some c => pure (.inr c)
    | state, _ => pure (.inl (inputReason state))
  | none =>
    match fields.config.codeChecksum with
    | some c => pure (.inr c)
    | none => pure (.inl .unwired)

/-- `sorted` on pin names. -/
def sortPins (pins : List String) : List String := pins.insertionSort fun a b => decide (a ≤ b)

/-- The first part of `_derive_transformer`. -/
def transformerReading (env : Substrate) (v : View) (path : NodePath) (fields : TransformerFields) :
    Evaluated TransformerReading :=
  match if fields.config.compilation.isSome then env.stage1Error fields.config else none with
  | some e => pure { verdict := .failed e }
  | none => do
    let incoming := v.graph.incomingFor path
    let code ← codeReading env v fields incoming
    let edgeCode := if (incoming.lookup [.key "code"]).isSome then code.getRight? else none
    let pins ← pinReadings env v fields incoming (sortPins fields.config.pins)
    match pins.findSome? fun entry => entry.2.fatal with
    | some e => pure { verdict := .failed e, pins, edgeCode }
    | none =>
      let pending := (code.getLeft?.map fun reason => (reason, "code")).toList ++
        pins.filterMap fun entry => entry.2.reason.map fun reason => (reason, entry.1)
      match code, pending with
      | .inr code, [] =>
        pure { verdict := .ready code (pins.filterMap fun entry => entry.2.value.map (entry.1, ·))
               pins, edgeCode }
      | _, _ => pure { verdict := .pending pending, pins, edgeCode }

/-- The order in which missing inputs take precedence. -/
def Reason.priority : Reason → Nat
  | .miswired => 0
  | .unwired => 1
  | .blockedByMiswiring => 2
  | .blockedByUnwired => 3
  | .blockedByError => 4
  | .waiting => 5

/-- The state of a transformer whose inputs are blocked for this reason. -/
def Reason.nodeState : Reason → NodeState
  | .miswired => .miswired
  | .unwired => .unwired
  | .waiting => .waiting
  | .blockedByMiswiring | .blockedByUnwired | .blockedByError => .blocked

/-- The reason of the highest precedence. -/
def firstReason (pending : List (Reason × String)) : Reason :=
  (pending.map Prod.fst).foldl (fun best reason =>
    if reason.priority < best.priority then reason else best) .waiting

end SeamlessWorkflow
