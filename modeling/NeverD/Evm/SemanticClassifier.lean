import NeverD.Evm.Opcodes
import NeverD.Lib.OrderedSet
import NeverD.Lib.WalkHistory

namespace NeverD.Evm

open NeverD.Lib

inductive ValueKind
  | constant
  | instruction
  | phi
  | unknown
deriving DecidableEq

structure MedPhiIncoming where
  sourceLane : Nat
  value : Nat
deriving DecidableEq

structure MedValue where
  kind : ValueKind
  pc : Nat
  inputs : List Nat
  phiIncomings : List MedPhiIncoming
  constant : Option (BitVec 256)
deriving DecidableEq

structure MedOperation where
  pc : Nat
  op : Opcode
  inputs : List Nat
  outputs : List Nat
  executingLanes : List Nat
deriving DecidableEq

inductive Reachability
  | mayReachable
  | reachable
deriving DecidableEq

structure MedStateLane where
  id : Nat
  evidence : Reachability
deriving DecidableEq

/-- Values and the operations of all blocks. -/
structure EVMMedIR where
  values : List MedValue
  operations : List MedOperation
  stateLanes : List MedStateLane
  inputs_lt : ∀ v ∈ values, ∀ i ∈ v.inputs, i < values.length
  outputs_value : ∀ o ∈ operations, ∀ id ∈ o.outputs, ∃ v, values[id]? = some v ∧ v.kind ≠ .phi ∧
    v.inputs = o.inputs
  outputs_nodup : (operations.flatMap MedOperation.outputs).Nodup
  produced : ∀ id v, values[id]? = some v → v.kind = .instruction → ∃ o ∈ operations, id ∈ o.outputs
  -- The inputs of a phi repeat the values of its incomings.
  phi_inputs : ∀ v ∈ values, v.kind = .phi → v.phiIncomings.map MedPhiIncoming.value = v.inputs

namespace EVMMedIR

def producer (med : EVMMedIR) (id : Nat) : Option MedOperation :=
  med.operations.find? fun o => id ∈ o.outputs

def isReachable (med : EVMMedIR) (lane : Nat) : Bool :=
  match med.stateLanes[lane]? with
  | some state => state.id = lane && state.evidence = .reachable
  | none => false

end EVMMedIR

inductive SemanticKind
  | unknown
  | constant
  | calldataWordZero
  | selectorWord
  | selectorXor
  | selectorEquality
  | callValue
  | isZeroCallValue
  | externalOutcome
  | isZeroExternalOutcome
  | calldataSize
  | isZeroCalldataSize
  | calldataSizeBelowSelector
  | calldataSizeAtLeastSelector
deriving DecidableEq

structure SemanticValue where
  kind : SemanticKind
  word : BitVec 256
  selector : BitVec 32
  originPCs : List Nat
deriving DecidableEq

namespace SemanticValue

def simple (kind : SemanticKind) : SemanticValue := ⟨kind, 0, 0, []⟩

def unknown : SemanticValue := simple .unknown

def ofConstant (value : BitVec 256) : SemanticValue := { simple .constant with word := value }

def callValue (kind : SemanticKind) (pc : Nat) : SemanticValue :=
  { simple kind with originPCs := [pc] }

def externalOutcome (kind : SemanticKind) (pc : Nat) : SemanticValue :=
  { simple kind with originPCs := [pc] }

def selectorEquality (selector : BitVec 32) : SemanticValue :=
  { simple .selectorEquality with selector := selector }

def selectorXor (selector : BitVec 32) : SemanticValue :=
  { simple .selectorXor with selector := selector }

end SemanticValue

open SemanticValue

def sameExpression (lhs rhs : SemanticValue) : Bool :=
  lhs.kind = rhs.kind &&
    match lhs.kind with
    | .constant => lhs.word = rhs.word
    | .selectorXor | .selectorEquality => lhs.selector = rhs.selector
    | .externalOutcome | .isZeroExternalOutcome => lhs.originPCs = rhs.originPCs
    | .unknown => false
    | .calldataWordZero | .selectorWord | .callValue | .isZeroCallValue | .calldataSize
    | .isZeroCalldataSize | .calldataSizeBelowSelector | .calldataSizeAtLeastSelector => true

def mergeOrigins (destination source : List Nat) : List Nat :=
  (destination ++ source).foldl (fun set pc => OrderedSet.insert pc set) []

def isSelectorMask (value : SemanticValue) : Bool :=
  value.kind = .constant && value.word = 0xffffffff

def matchSelectorConstant (constant selector : SemanticValue) : Option (BitVec 32) :=
  if constant.kind ≠ .constant ∨ 2 ^ 32 ≤ constant.word.toNat ∨
    selector.kind ≠ .selectorWord then none
  else some (constant.word.setWidth 32)

def isZeroConstant (value : SemanticValue) : Bool := value.kind = .constant && value.word = 0

def isSelectorByteCount (value : SemanticValue) : Bool := value.kind = .constant && value.word = 4

def isDup (op : Opcode) : Bool := 0x80 ≤ op.toNat && op.toNat ≤ 0x8f

def isDeepDup (op : Opcode) : Bool := op = 0xe6

def evaluateCalldataload (offset : SemanticValue) : SemanticValue :=
  if isZeroConstant offset then simple .calldataWordZero else unknown

def evaluateShr (shift word : SemanticValue) : SemanticValue :=
  if shift.kind = .constant ∧ shift.word = 224 ∧ word.kind = .calldataWordZero then
    simple .selectorWord else unknown

def evaluateAnd (first second : SemanticValue) : SemanticValue :=
  if (first.kind = .selectorWord ∧ isSelectorMask second) ∨
    (second.kind = .selectorWord ∧ isSelectorMask first) then
    simple .selectorWord
  else unknown

def evaluateXor (first second : SemanticValue) : SemanticValue :=
  match matchSelectorConstant first second with
  | some selector => selectorXor selector
  | none =>
    match matchSelectorConstant second first with
    | some selector => selectorXor selector
    | none => unknown

def evaluateIszero (operand : SemanticValue) : SemanticValue :=
  match operand.kind with
  | .callValue => { operand with kind := .isZeroCallValue }
  | .calldataSize => simple .isZeroCalldataSize
  | .externalOutcome => { operand with kind := .isZeroExternalOutcome }
  | .isZeroExternalOutcome => { operand with kind := .externalOutcome }
  | .selectorXor => selectorEquality operand.selector
  | .calldataSizeBelowSelector => simple .calldataSizeAtLeastSelector
  | .calldataSizeAtLeastSelector => simple .calldataSizeBelowSelector
  | _ => unknown

def matchZero (value zero : SemanticValue) : SemanticValue :=
  if !isZeroConstant zero then unknown
  else match value.kind with
    | .callValue => { value with kind := .isZeroCallValue }
    | .calldataSize => simple .isZeroCalldataSize
    | .externalOutcome => { value with kind := .isZeroExternalOutcome }
    | .isZeroExternalOutcome => { value with kind := .externalOutcome }
    | .selectorXor => selectorEquality value.selector
    | _ => unknown

def evaluateEq (first second : SemanticValue) : SemanticValue :=
  match matchSelectorConstant first second with
  | some selector => selectorEquality selector
  | none =>
    match matchSelectorConstant second first with
    | some selector => selectorEquality selector
    | none =>
      if (matchZero first second).kind ≠ .unknown then matchZero first second
      else if (matchZero second first).kind ≠ .unknown then matchZero second first
      else unknown

def evaluateComparison (op : Opcode) (first second : SemanticValue) : SemanticValue :=
  if (op = 0x10 ∧ first.kind = .calldataSize ∧ isSelectorByteCount second) ∨
      (op = 0x11 ∧ isSelectorByteCount first ∧ second.kind = .calldataSize) then
    simple .calldataSizeBelowSelector
  else unknown

def isExternal (o : MedOperation) : Bool :=
  match assignedOpcodeInfo o.op with
  | some info => o.outputs.length = 1 && (info.effect = .externalCall || info.effect = .create)
  | none => false

def evaluateOperation (results : Nat → SemanticValue) (o : MedOperation) : SemanticValue :=
  let input := fun i => results (o.inputs.getD i 0)
  let count := o.inputs.length
  if (isDup o.op || isDeepDup o.op) ∧ count = 1 then input 0
  else if o.op = 0x35 ∧ count = 1 then evaluateCalldataload (input 0)
  else if o.op = 0x1c ∧ count = 2 then evaluateShr (input 0) (input 1)
  else if o.op = 0x16 ∧ count = 2 then evaluateAnd (input 0) (input 1)
  else if o.op = 0x18 ∧ count = 2 then evaluateXor (input 0) (input 1)
  else if o.op = 0x34 ∧ count = 0 then callValue .callValue o.pc
  else if o.op = 0x36 ∧ count = 0 then simple .calldataSize
  else if isExternal o then externalOutcome .externalOutcome o.pc
  else if o.op = 0x15 ∧ count = 1 then evaluateIszero (input 0)
  else if o.op = 0x14 ∧ count = 2 then evaluateEq (input 0) (input 1)
  else if (o.op = 0x10 ∨ o.op = 0x11) ∧ count = 2 then evaluateComparison o.op (input 0) (input 1)
  else unknown

variable {m : Type → Type} [Monad m] (noteReferenceVisit : Nat → m Unit) (med : EVMMedIR)

def noteReferences (count pc : Nat) : m Unit :=
  match count with
  | 0 => pure ()
  | count + 1 => do
    noteReferenceVisit pc
    noteReferences count pc

def isEligible (pc : Nat) : List Nat → m Bool
  | [] => pure false
  | lane :: rest => do
    noteReferenceVisit pc
    if med.isReachable lane then pure true else isEligible pc rest

def isProduced (id : Nat) (value : MedValue) : m Bool :=
  if value.kind = .instruction then
    match med.producer id with
    | none => pure false
    | some o => isEligible noteReferenceVisit med o.pc o.executingLanes
  else pure true

def dependenciesOf (id : Nat) (value : MedValue) : m (List Nat) :=
  if value.constant.isSome ∨ value.kind = .unknown then pure []
  else if value.kind = .phi then do
    noteReferences noteReferenceVisit value.inputs.length value.pc
    pure value.inputs
  else
    match med.producer id with
    | none => pure []
    | some o => do
      noteReferences noteReferenceVisit o.inputs.length o.pc
      pure o.inputs

def dependencies (id : Nat) : m (List Nat) :=
  match med.values[id]? with
  | none => pure []
  | some value => do
    noteReferenceVisit value.pc
    let isProduced ← isProduced noteReferenceVisit med id value
    if isProduced then dependenciesOf noteReferenceVisit med id value else pure []

/-- The common value of the incomings, where all are known. -/
def evaluatePhi (results : Nat → SemanticValue) (pc : Nat) :
    List MedPhiIncoming → Option SemanticValue → m SemanticValue
  | [], common => pure (common.getD unknown)
  | incoming :: rest, common => do
    noteReferenceVisit pc
    if !med.isReachable incoming.sourceLane then pure unknown
    else match common with
      | none =>
        if (results incoming.value).kind = .unknown then pure unknown
        else evaluatePhi results pc rest (some (results incoming.value))
      | some common =>
        let origins := mergeOrigins common.originPCs (results incoming.value).originPCs
        if !sameExpression common (results incoming.value) then pure unknown
        else evaluatePhi results pc rest (some { common with originPCs := origins })

def evaluateInstruction (results : Nat → SemanticValue) (id : Nat) : m SemanticValue :=
  match med.producer id with
  | none => pure unknown
  | some o => do
    let eligible ← isEligible noteReferenceVisit med o.pc o.executingLanes
    if eligible then do
      noteReferences noteReferenceVisit o.inputs.length o.pc
      pure (evaluateOperation results o)
    else pure unknown

def evaluateValue (results : Nat → SemanticValue) (id : Nat) (value : MedValue) : m SemanticValue :=
  match value.constant with
  | some constant => pure (ofConstant constant)
  | none =>
    if value.kind = .phi then
      evaluatePhi noteReferenceVisit med results value.pc value.phiIncomings none
    else if value.kind = .instruction then evaluateInstruction noteReferenceVisit med results id
    else pure unknown

def evaluate (results : Nat → SemanticValue) (id : Nat) : m SemanticValue :=
  match med.values[id]? with
  | none => pure unknown
  | some value => do
    noteReferenceVisit value.pc
    let isProduced ← isProduced noteReferenceVisit med id value
    if isProduced then evaluateValue noteReferenceVisit med results id value else pure unknown

def classifyFuel : Nat :=
  Walk.unseenWeight (fun id => ((med.values[id]?).elim 0 fun value => value.inputs.length) + 2)
    (fun _ => .unseen) med.values.length

def classify (memo : Walk.Memo SemanticValue) (root : Nat) :
    m (Option (SemanticValue × Walk.Memo SemanticValue)) :=
  Walk.classify (dependencies noteReferenceVisit med) (evaluate noteReferenceVisit med)
    unknown med.values.length (classifyFuel med) memo root

end NeverD.Evm
