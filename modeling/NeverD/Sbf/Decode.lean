import NeverD.Sbf.Validation

namespace NeverD.Sbf

structure ProgramFunctionEntry where
  key : BitVec 32
  targetSlot : Nat
  name : String

structure ProgramRegion where
  address : Word
  bytes : List (BitVec 8)
  dataVisible : Bool
  name : String

structure ProgramImage where
  version : Version
  textAddress : Word
  entrySlot : Nat
  text : Text
  /-- The legacy function entries, sorted by key. -/
  functions : List ProgramFunctionEntry
  regions : List ProgramRegion

def ProgramImage.findFunction (image : ProgramImage) (key : BitVec 32) :
    Option ProgramFunctionEntry :=
  (image.functions.find? fun entry => key.ule entry.key).filter fun entry => entry.key = key

inductive DiagnosticSeverity
  | warning | error
deriving DecidableEq

structure Diagnostic where
  severity : DiagnosticSeverity
  slot : Nat
  address : Word
  message : String
  rule : ValidationRule

def utohexstr (n : Nat) : String := String.ofList ((Nat.toDigits 16 n).map Char.toUpper)

def analysisError (slot : Nat) (address : Word) (message : String) : String :=
  "sbf: instruction " ++ toString slot ++ " at 0x" ++ utohexstr address.toNat ++ ": " ++ message

structure DecodeContext where
  image : ProgramImage
  /-- Where the loader puts the text. -/
  textVM : Word
  strict : Bool
  /-- The name of the function symbol at an address. -/
  findFunctionSymbol : Word → Option String
  /-- The symbol name that the call relocation at an address carries. -/
  findCallRelocation : Word → Option String
  /-- The name that the table of audited runtime calls has for a hash. -/
  getSyscallInfo : BitVec 32 → Option String

namespace DecodeContext

/-- Only an error stops the analysis, and only a strict one. -/
def report (c : DecodeContext) (diagnostics : List Diagnostic) (slot : Nat) (message : String)
    (severity : DiagnosticSeverity) (rule : ValidationRule) : Except String (List Diagnostic) :=
  let address := c.textVM + BitVec.ofNat 64 (slot * instructionSize)
  if c.strict ∧ severity = .error then .error (analysisError slot address message)
  else .ok (diagnostics ++ [⟨severity, slot, address, message, rule⟩])

end DecodeContext

def syntheticFunctionName (address : Word) : String := "sub_" ++ utohexstr address.toNat

inductive CallDispatchPolicy
  | direct | legacyRuntimeThenFunction
deriving DecidableEq

structure LowInstruction where
  slot : Nat
  address : Word
  encoding : List (BitVec 8)
  rawOpcode : BitVec 8
  dst : Nat := 0
  src : Nat := 0
  offset : BitVec 16 := 0
  rawImmediate : BitVec 32 := 0
  immediate : Word := 0
  info : Option OpcodeInfo := none
  invalidReason : ValidationRule := .none
  isContinuation : Bool := false
  slotWidth : Nat := 1
  branchTarget : Option Nat := none
  call : CallKind := .none
  dispatch : CallDispatchPolicy := .direct
  callTarget : Option Nat := none
  callRegister : Nat := 0
  syscallHash : BitVec 32 := 0
  syscall : Option String := none
  resolvedName : String := ""

namespace LowInstruction

def isInvalid (i : LowInstruction) : Bool := i.invalidReason ≠ .none

end LowInstruction

structure Listing where
  version : Version
  textAddress : Word
  entrySlot : Nat
  instructions : List LowInstruction
  diagnostics : List Diagnostic

namespace DecodeContext

def slotAddress (c : DecodeContext) (slot : Nat) : Word :=
  c.image.textAddress + BitVec.ofNat 64 (slot * instructionSize)

def slotEncoding (c : DecodeContext) (slot : Nat) : List (BitVec 8) :=
  (c.image.text.drop (slot * instructionSize)).take instructionSize

def raw (c : DecodeContext) (slot : Nat) : RawInstruction :=
  decodeRaw c.image.text c.image.version slot

def validation (c : DecodeContext) (slot : Nat) : InstructionValidation :=
  validateInstruction c.image.text c.image.version (c.raw slot)

/-- What follows the text of a rule in its diagnostic. -/
def validationDetail (c : DecodeContext) (i : RawInstruction) : ValidationRule → String
  | .unknownOpcode => " 0x" ++ utohexstr i.rawOpcode.toNat
  | .immediateShiftOutOfRange =>
    " (" ++ toString i.immediate.toInt ++ " for " ++ toString ((i.info.map (·.width)).getD 0) ++
      "-bit operand)"
  | .invalidEndianImmediate => " (" ++ toString i.immediate.toInt ++ ")"
  | .misalignedFrameAdjustment => " (required alignment " ++ toString dynamicStackFrameAlignment ++
      ")"
  | .invalidCallXRegister =>
    " (" ++ toString (callxRegisterIndex c.image.version i.dst i.src i.immediate) ++ ")"
  | .invalidSourceRegister => " (r" ++ toString i.src ++ ")"
  | .framePointerWrite | .invalidDestinationRegister => " (r" ++ toString i.dst ++ ")"
  | _ => ""

/-- The instruction that starts at a slot. -/
def decodeAt (c : DecodeContext) (slot : Nat) : LowInstruction :=
  let i := c.raw slot
  let validation := c.validation slot
  let decoded : LowInstruction := {
    slot, address := c.slotAddress slot, encoding := c.slotEncoding slot, rawOpcode :=
      i.rawOpcode, dst := i.dst,
    src := i.src, offset := i.offset, rawImmediate := i.immediate, info := i.info
    immediate :=
      if validation.hasLDDWContinuation then c.image.text.read32le (slot + 1) 4 ++ i.immediate
      else i.immediate.signExtend 64
    slotWidth := if validation.hasLDDWContinuation then lddwSlotCount else 1 }
  if validation.valid then
    { decoded with
      branchTarget := validation.branchTarget
      call := if validation.callXRegister.isSome then .indirect else .none
      callRegister := validation.callXRegister.getD 0 }
  else { decoded with invalidReason := validation.rule }

def continuationAt (c : DecodeContext) (slot : Nat) : LowInstruction where
  slot := slot
  address := c.slotAddress slot
  encoding := c.slotEncoding slot
  rawOpcode := c.image.text.byte slot 0
  isContinuation := true

def quarantine (c : DecodeContext) (slot : Nat) (diagnostics : List Diagnostic) :
    Except String (List Diagnostic) :=
  let validation := c.validation slot
  if validation.valid then .ok diagnostics
  else c.report diagnostics validation.diagnosticSlot
    (validation.rule.message ++ c.validationDetail (c.raw slot) validation.rule)
    .error validation.rule

/-- The listing from a slot on. -/
def decodeFrom (c : DecodeContext) : Nat → Nat → List Diagnostic →
    Except String (List LowInstruction × List Diagnostic)
  | 0, _, diagnostics => .ok ([], diagnostics)
  | fuel + 1, slot, diagnostics =>
    if slot < c.image.text.instructionCount then do
      let diagnostics ← c.quarantine slot diagnostics
      if (c.decodeAt slot).slotWidth = lddwSlotCount then
        let (rest, diagnostics) ← c.decodeFrom fuel (slot + 2) diagnostics
        .ok (c.decodeAt slot :: c.continuationAt (slot + 1) :: rest, diagnostics)
      else
        let (rest, diagnostics) ← c.decodeFrom fuel (slot + 1) diagnostics
        .ok (c.decodeAt slot :: rest, diagnostics)
    else .ok ([], diagnostics)

def listing (c : DecodeContext) (instructions : List LowInstruction)
    (diagnostics : List Diagnostic) : Listing :=
  ⟨c.image.version, c.image.textAddress, c.image.entrySlot, instructions, diagnostics⟩

/-- Every slot of the text is decoded. A text that is not a sequence of slots has no listing. -/
def decodeInstructions (c : DecodeContext) : Except String Listing :=
  let text := c.image.text
  let refuse (message : String) : Except String Listing :=
    (c.report [] 0 message .error .none).map (c.listing [])
  if text.length = 0 then refuse "program text is empty"
  else if text.length % instructionSize ≠ 0 then
    refuse ("program length is not a multiple of " ++ toString instructionSize ++ " bytes")
  else if maxInstructions < text.instructionCount then
    refuse "program exceeds the SBF instruction limit"
  else (c.decodeFrom text.instructionCount 0 []).map fun r => c.listing r.1 r.2

def callSlot (i : LowInstruction) : Int := i.slot + 1 + i.rawImmediate.toInt

/-- A static call, with the warning it gives rise to. -/
def resolveStaticCall (c : DecodeContext) (count : Nat) (i : LowInstruction) :
    LowInstruction × Option String :=
  if i.src = 0 then
    let syscall := c.getSyscallInfo i.rawImmediate
    ({ i with
        call := .syscall
        syscallHash := i.rawImmediate
        syscall
        resolvedName := syscall.getD "unknown_syscall" },
      if syscall.isSome then none
        else some "static syscall hash is absent from the audited runtime ABI")
  else if i.src = 1 then
    if 0 ≤ callSlot i ∧ callSlot i < count then
      let target := (callSlot i).toNat
      ({ i with
          call := .internal
          callTarget := some target
          resolvedName := (c.findFunctionSymbol (c.slotAddress target)).getD
            (syntheticFunctionName (c.slotAddress target)) }, none)
    else
      ({ i with call := .unsupported, resolvedName := "unknown_function" },
        some "static internal call target is outside program text")
  else
    ({ i with call := .unsupported, resolvedName := "unknown_function" },
      some "static CALL source discriminator is unsupported at execution")

/-- A call by key. The registry of functions comes first, and any other key is left to the
runtime. -/
def resolveLegacyCall (c : DecodeContext) (i : LowInstruction) : LowInstruction × Option String :=
  let syscall := c.getSyscallInfo i.rawImmediate
  let i := { i with dispatch := .legacyRuntimeThenFunction, syscallHash := i.rawImmediate, syscall }
  match c.image.findFunction i.rawImmediate with
  | some function =>
    let address := c.slotAddress function.targetSlot
    ({ i with
        call := .internal
        callTarget := some function.targetSlot
        resolvedName :=
          if function.name ≠ "" then function.name
          else (c.findFunctionSymbol address).getD (syntheticFunctionName address) }, none)
  | none =>
    match syscall with
    | some name => ({ i with call := .syscall, resolvedName := name }, none)
    | none =>
      match c.findCallRelocation i.address with
      | some name =>
        ({ i with call := .syscall, resolvedName := name },
          some "legacy CALL relocation names an unaudited runtime syscall")
      | none =>
        ({ i with call := .syscall, resolvedName := "unknown_function" },
          some ("legacy CALL key is absent from the audited syscall and function registries; " ++
            "preserving runtime registry dispatch"))

def resolveInstruction (c : DecodeContext) (count : Nat) (i : LowInstruction) :
    LowInstruction × Option String :=
  if i.isContinuation ∨ i.isInvalid then (i, none)
  else match i.info with
    | none => (i, none)
    | some info =>
      if info.id ≠ .callImm then (i, none)
      else if versionHasFeature c.image.version .staticSyscalls then c.resolveStaticCall count i
      else c.resolveLegacyCall i

def warn (c : DecodeContext) (diagnostics : List Diagnostic) (slot : Nat) :
    Option String → Except String (List Diagnostic)
  | none => .ok diagnostics
  | some message => c.report diagnostics slot message .warning .none

def resolveAll (c : DecodeContext) (count : Nat) : List LowInstruction → List Diagnostic →
    Except String (List LowInstruction × List Diagnostic)
  | [], diagnostics => .ok ([], diagnostics)
  | i :: instructions, diagnostics => do
    let resolved := c.resolveInstruction count i
    let diagnostics ← c.warn diagnostics i.slot resolved.2
    let (rest, diagnostics) ← c.resolveAll count instructions diagnostics
    .ok (resolved.1 :: rest, diagnostics)

def resolveControlFlow (c : DecodeContext) (low : Listing) : Except String Listing :=
  (c.resolveAll low.instructions.length low.instructions low.diagnostics).map fun r =>
    { low with instructions := r.1, diagnostics := r.2 }

end DecodeContext

end NeverD.Sbf
