import NeverD.Evm.Tiling

namespace NeverD.Evm

open NeverD.Lib

structure LowBlock where
  startPC : Nat
  endPC : Nat
  firstInstruction : Nat
  instructionCount : Nat
deriving DecidableEq

structure EVMLowIR extends DecodedBytecode where
  blocks : List LowBlock

structure AnalyzeOptions extends DecodeOptions where
  maxBlocks : Nat

def lowIRAnalysisError (pc : Nat) (message : String) : DecodeFailure :=
  .error ("evm: " ++ message ++ " at pc 0x" ++ (hexDigits pc).toUpper)

def blockLimitError (pc : Nat) (options : AnalyzeOptions) : DecodeFailure :=
  lowIRAnalysisError pc ("basic block limit " ++ toString options.maxBlocks ++ " exceeded")

def insertBlockStart (options : AnalyzeOptions) (pc : Nat) (starts : List Nat) :
    Except DecodeFailure (List Nat) :=
  if pc ∈ starts then .ok starts
  else if options.maxBlocks ≤ starts.length then .error (blockLimitError pc options)
  else .ok (OrderedSet.insert pc starts)

def insertBlockStartIf (condition : Bool) (options : AnalyzeOptions) (pc : Nat)
    (starts : List Nat) : Except DecodeFailure (List Nat) :=
  if condition then insertBlockStart options pc starts else .ok starts

def insertBlockStarts (codeSize : Nat) (options : AnalyzeOptions) :
    List LowInstruction → List Nat → Except DecodeFailure (List Nat)
  | [], starts => .ok starts
  | i :: rest, starts =>
    match insertBlockStartIf (i.is jumpdest) options i.pc starts with
    | .error e => .error e
    | .ok starts =>
      match insertBlockStartIf (i.isTerminator && i.nextPC < codeSize) options i.nextPC starts with
      | .error e => .error e
      | .ok starts => insertBlockStarts codeSize options rest starts

/-- The last place of an instruction in the table, counted from a number on. -/
def instructionIndex (pc : Nat) : List LowInstruction → Nat → Option Nat
  | [], _ => none
  | i :: rest, n => (instructionIndex pc rest (n + 1)).or (if i.pc = pc then some n else none)

/-- A block ends where the next one starts. -/
def blocksFrom (instructions : List LowInstruction) (codeSize : Nat) (options : AnalyzeOptions) :
    List Nat → List LowBlock → Except DecodeFailure (List LowBlock)
  | [], blocks => .ok blocks
  | startPC :: rest, blocks =>
    match instructionIndex startPC instructions 0 with
    | none => blocksFrom instructions codeSize options rest blocks
    | some first =>
      let endPC := rest.headD codeSize
      let count := ((instructions.drop first).takeWhile fun i => i.pc < endPC).length
      if options.maxBlocks ≤ blocks.length then .error (blockLimitError startPC options)
      else blocksFrom instructions codeSize options rest
        (blocks ++ [⟨startPC, endPC, first, count⟩])

def sliceBlocks (decoded : DecodedBytecode) (options : AnalyzeOptions) :
    Except DecodeFailure EVMLowIR :=
  match insertBlockStart options 0 [] with
  | .error e => .error e
  | .ok starts =>
    match insertBlockStarts decoded.code.length options decoded.instructions starts with
    | .error e => .error e
    | .ok starts =>
      match blocksFrom decoded.instructions decoded.code.length options starts [] with
      | .error e => .error e
      | .ok blocks => .ok { decoded with blocks := blocks }

section

-- The control flow is found behind the cut. It annotates the blocks, and changes nothing of them.
variable {Flow : Type} (analyzeControlFlow : EVMLowIR → AnalyzeOptions → Except DecodeFailure Flow)

def decodeLowIR (code : Code) (options : AnalyzeOptions) : Except DecodeFailure (EVMLowIR × Flow) :=
  if options.maxBlocks = 0 then .error (lowIRAnalysisError 0 "MaxBlocks must be greater than zero")
  else match decodeBytecode code options.toDecodeOptions with
    | .error e => .error e
    | .ok decoded =>
      match sliceBlocks decoded options with
      | .error e => .error e
      | .ok low =>
        match analyzeControlFlow low options with
        | .error e => .error e
        | .ok flow => .ok (low, flow)

end

inductive LowIRFailureKind
  | lowInstructionTable
  | lowJumpDestination
deriving DecidableEq

def LowIRFailureKind.message : LowIRFailureKind → String
  | .lowInstructionTable => "non-canonical LowIR instruction table"
  | .lowJumpDestination => "invalid LowIR jump destination table"

/-- Being stuck is a look outside the code. -/
inductive LowIRFailure
  | fail (pc : Nat) (kind : LowIRFailureKind)
  | stuck
deriving DecidableEq

/-- The checks of the instructions. -/
def verifyInstructions (low : EVMLowIR) : List LowInstruction → Nat → List Nat →
    Except LowIRFailure (Nat × List Nat)
  | [], expectedPC, jumpDestination => .ok (expectedPC, jumpDestination)
  | i :: rest, expectedPC, jumpDestination =>
    if i.pc ≠ expectedPC ∨ i.encoding = [] ∨ 2 ^ 64 - 1 - i.pc < i.encoding.length ∨
        i.nextPC ≠ i.pc + i.encoding.length ∨ low.code.length < i.nextPC then
      .error (.fail i.pc .lowInstructionTable)
    else match decodeInstructionAt low.code i.pc low.fork with
      | none => .error .stuck
      | some canonical =>
        if i ≠ canonical then .error (.fail i.pc .lowInstructionTable)
        else if i.encoding ≠ (low.code.drop i.pc).take i.encoding.length then
          .error (.fail i.pc .lowInstructionTable)
        else if i.is jumpdest then
          if jumpDestination.head? ≠ some i.pc then .error (.fail i.pc .lowJumpDestination)
          else verifyInstructions low rest i.nextPC jumpDestination.tail
        else verifyInstructions low rest i.nextPC jumpDestination

def verifyLowIRExecutionStructure (low : EVMLowIR) : Except LowIRFailure Unit :=
  if 2 ^ 64 - 1 < low.code.length then .error (.fail 0 .lowInstructionTable)
  else match verifyInstructions low low.instructions 0 low.jumpDestinations with
    | .error e => .error e
    | .ok (expectedPC, jumpDestination) =>
      if expectedPC ≠ low.code.length ∨ low.instructions.isEmpty ≠ low.code.isEmpty then
        .error (.fail 0 .lowInstructionTable)
      else if jumpDestination ≠ [] then .error (.fail 0 .lowJumpDestination)
      else .ok ()

def verifyLowIRForExecution (low : EVMLowIR) : Except DecodeFailure Unit :=
  match verifyLowIRExecutionStructure low with
  | .ok () => .ok ()
  | .error .stuck => .error .stuck
  | .error (.fail pc kind) =>
    .error (.error ("evm: non-canonical LowIR for execution at pc 0x" ++ (hexDigits pc).toUpper ++
      ": " ++ kind.message))

end NeverD.Evm
