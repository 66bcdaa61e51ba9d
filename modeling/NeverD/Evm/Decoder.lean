import NeverD.Evm.Opcodes
import NeverD.Lib.OrderedSet

namespace NeverD.Evm

open NeverD.Lib

abbrev Code := List (BitVec 8)

inductive OpcodeDecodeStatus
  | active
  | inactive
  | unknown
deriving DecidableEq

inductive ImmediateDecodeStatus
  | none
  | complete
  | truncated
  | invalid
deriving DecidableEq

structure LowInstruction where
  pc : Nat
  nextPC : Nat
  info : OpcodeInfo
  decodeStatus : OpcodeDecodeStatus
  immediate : BitVec 256
  immediateStatus : ImmediateDecodeStatus
  stackOperands : Nat × Nat
  stackOperandCount : Nat
  encoding : Code
deriving DecidableEq

namespace LowInstruction

def isAssigned (i : LowInstruction) : Bool := i.info.isAssigned

def isActive (i : LowInstruction) : Bool := i.decodeStatus = .active

def hasWellFormedImmediate (i : LowInstruction) : Bool :=
  match i.info.immediate with
  | .none => i.immediateStatus = .none && i.stackOperandCount = 0
  | .pushData => (i.immediateStatus = .complete || i.immediateStatus = .truncated) &&
      i.stackOperandCount = 0
  | .eip8024Single => (i.immediateStatus = .complete || i.immediateStatus = .truncated) &&
      i.stackOperandCount = 1
  | .eip8024Pair => (i.immediateStatus = .complete || i.immediateStatus = .truncated) &&
      i.stackOperandCount = 2

def isExecutable (i : LowInstruction) : Bool :=
  i.isActive && i.isAssigned && i.hasWellFormedImmediate

def isTerminator (i : LowInstruction) : Bool := !i.isExecutable || i.info.isTerminator

def is (i : LowInstruction) (candidate : Opcode) : Bool := i.isExecutable && i.info.op = candidate

end LowInstruction

structure PushData where
  value : BitVec 256
  encoding : Code
  pc : Nat
  status : ImmediateDecodeStatus

/-- The bytes of a push, highest first. -/
def decodePushBytes (code : Code) : Nat → PushData → PushData
  | 0, data => data
  | n + 1, data =>
    let value := data.value <<< 8
    match code[data.pc]? with
    | some b => decodePushBytes code n ⟨value ||| b.setWidth 256, data.encoding ++ [b], data.pc + 1,
        data.status⟩
    | none => decodePushBytes code n { data with value := value, status := .truncated }

def decodePushData (i : LowInstruction) (code : Code) (pc : Nat) : LowInstruction × Nat :=
  let data := decodePushBytes code i.info.immediateBytes ⟨0, i.encoding, pc, .complete⟩
  ({ i with immediate := data.value, encoding := data.encoding, immediateStatus := data.status },
    data.pc)

def decodeEIP8024Immediate (i : LowInstruction) (encoded : BitVec 8) : Option LowInstruction :=
  match i.info.immediate with
  | .eip8024Single =>
    (decodeEIP8024Single encoded).map fun depth =>
      { i with stackOperands := (depth, i.stackOperands.2), stackOperandCount := 1 }
  | .eip8024Pair =>
    (decodeEIP8024Pair encoded).map fun pair =>
      { i with stackOperands := pair, stackOperandCount := 2 }
  | .none => none
  | .pushData => none

def decodeConditionalImmediate (i : LowInstruction) (code : Code) (pc : Nat) :
    LowInstruction × Nat :=
  let encoded := (code[pc]?).getD 0
  let i := { i with
    immediate := encoded.setWidth 256
    immediateStatus := if pc < code.length then .complete else .truncated }
  match decodeEIP8024Immediate i encoded with
  | some i => if pc < code.length then ({ i with encoding := i.encoding ++ [encoded] }, pc + 1)
      else (i, pc)
  | none => ({ i with immediateStatus := .invalid }, pc)

def decodeOpcode (byte : BitVec 8) (pc : Nat) (fork : Hardfork) : LowInstruction :=
  let activeInfo := opcodeInfo byte fork
  let assignedInfo := assignedOpcodeInfo byte
  let status : OpcodeDecodeStatus :=
    if activeInfo.isSome then .active else if assignedInfo.isSome then .inactive else .unknown
  ⟨pc, 0, activeInfo.getD (assignedInfo.getD (unknownOpcodeInfo byte)), status, 0, .none, (0, 0),
    0, [byte]⟩

def decodeImmediate (i : LowInstruction) (code : Code) (pc : Nat) : LowInstruction × Nat :=
  if i.isActive then
    match i.info.immediate with
    | .none => (i, pc)
    | .pushData => decodePushData i code pc
    | .eip8024Single => decodeConditionalImmediate i code pc
    | .eip8024Pair => decodeConditionalImmediate i code pc
  else (i, pc)

/-- The instruction at a place in the code. There is none outside. -/
def decodeInstructionAt (code : Code) (pc : Nat) (fork : Hardfork) : Option LowInstruction :=
  match code[pc]? with
  | none => none
  | some byte =>
    let (i, next) := decodeImmediate (decodeOpcode byte pc fork) code (pc + 1)
    some { i with nextPC := next }

structure Diagnostic where
  pc : Nat
  message : String
deriving DecidableEq

structure DecodeOptions where
  fork : Hardfork
  strict : Bool
  maxCodeSize : Nat
  maxInstructions : Nat
  maxLowDiagnostics : Nat
  maxLowDiagnosticBytes : Nat
  -- Sizes are machine words.
  wordSize : maxCodeSize < 2 ^ 64

structure DecodedBytecode where
  fork : Hardfork
  strict : Bool
  code : Code
  instructions : List LowInstruction
  jumpDestinations : List Nat
  diagnostics : List Diagnostic

inductive DecodeFailure
  | error (message : String)
  | stuck
deriving DecidableEq

def hexDigits (n : Nat) : String := String.ofList (Nat.toDigits 16 n)

def decoderError (pc : Nat) (message : String) : DecodeFailure :=
  .error ("evm: " ++ message ++ " at pc 0x" ++ (hexDigits pc).toUpper)

def formatOpcodeByte (byte : BitVec 8) : String :=
  "0x" ++ if byte.toNat < 16 then "0" ++ hexDigits byte.toNat else hexDigits byte.toNat

def invalidImmediateDiagnostic (i : LowInstruction) : Diagnostic :=
  ⟨i.pc, "invalid immediate " ++ formatOpcodeByte (i.immediate.setWidth 8) ++ " for " ++
    i.info.name⟩

def appendDiagnostic (diagnostics : List Diagnostic) (entry : Diagnostic) (diagnosticBytes : Nat)
    (options : DecodeOptions) : Except DecodeFailure (List Diagnostic × Nat) :=
  if options.maxLowDiagnostics ≤ diagnostics.length then
    .error (decoderError entry.pc ("LowIR diagnostic limit " ++
      toString options.maxLowDiagnostics ++ " exceeded"))
  else if options.maxLowDiagnosticBytes < diagnosticBytes ∨
      options.maxLowDiagnosticBytes - diagnosticBytes < entry.message.utf8ByteSize then
    .error (decoderError entry.pc
      ("LowIR diagnostic byte limit " ++ toString options.maxLowDiagnosticBytes ++ " exceeded"))
  else .ok (diagnostics ++ [entry], diagnosticBytes + entry.message.utf8ByteSize)

def diagnoseInstruction (i : LowInstruction) (diagnostics : List Diagnostic) (diagnosticBytes : Nat)
    (options : DecodeOptions) : Except DecodeFailure (List Diagnostic × Nat) :=
  let first :=
    if i.immediateStatus = .invalid then
      appendDiagnostic diagnostics (invalidImmediateDiagnostic i) diagnosticBytes options
    else .ok (diagnostics, diagnosticBytes)
  match first with
  | .error e => .error e
  | .ok (diagnostics, diagnosticBytes) =>
    if !i.isActive then
      let reason := if i.isAssigned then "inactive opcode " else "unknown opcode "
      appendDiagnostic diagnostics ⟨i.pc, reason ++ formatOpcodeByte (i.encoding.headD 0)⟩
        diagnosticBytes options
    else .ok (diagnostics, diagnosticBytes)

def decodeFrom (code : Code) (options : DecodeOptions) :
    Nat → Nat → DecodedBytecode → Nat → Except DecodeFailure DecodedBytecode
  | 0, pc, result, _ => if pc < code.length then .error .stuck else .ok result
  | fuel + 1, pc, result, diagnosticBytes =>
    if pc < code.length then
      if options.maxInstructions ≤ result.instructions.length then
        .error (decoderError pc ("instruction limit " ++ toString options.maxInstructions ++
          " exceeded"))
      else match decodeInstructionAt code pc options.fork with
        | none => .error .stuck
        | some i =>
          match diagnoseInstruction i result.diagnostics diagnosticBytes options with
          | .error e => .error e
          | .ok (diagnostics, diagnosticBytes) =>
            decodeFrom code options fuel i.nextPC
              { result with
                instructions := result.instructions ++ [i]
                jumpDestinations :=
                  if i.is jumpdest then OrderedSet.insert i.pc result.jumpDestinations
                    else result.jumpDestinations
                diagnostics := diagnostics }
              diagnosticBytes
    else .ok result

def decodeBytecode (code : Code) (options : DecodeOptions) : Except DecodeFailure DecodedBytecode :=
  if options.maxInstructions = 0 then
    .error (decoderError 0 "MaxInstructions must be greater than zero")
  else if options.maxLowDiagnostics = 0 then
    .error (decoderError 0 "MaxLowDiagnostics must be greater than zero")
  else if options.maxLowDiagnosticBytes = 0 then
    .error (decoderError 0 "MaxLowDiagnosticBytes must be greater than zero")
  else if options.maxCodeSize < code.length then
    .error (decoderError 0 "bytecode exceeds configured size limit")
  else decodeFrom code options code.length 0 ⟨options.fork, options.strict, code, [], [], []⟩ 0

end NeverD.Evm
