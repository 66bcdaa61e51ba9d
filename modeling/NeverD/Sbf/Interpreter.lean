import NeverD.Sbf.Decode

namespace NeverD.Sbf

structure SBFVMConfig where
  stackFrameSize : Nat := 4096
  maxCallDepth : Nat := 64
  enableStackFrameGaps : Bool := true
  alignedMemoryMapping : Bool := false

def stackStart : Word := 2 <<< 32

def stackFrameGapMultiplier : Nat := 2

namespace SBFVMConfig

def validate (config : SBFVMConfig) : Except String Unit :=
  if config.stackFrameSize = 0 then .error "sbf: stack frame size must be non-zero"
  else if config.maxCallDepth = 0 then .error "sbf: maximum call depth must be non-zero"
  else if 64 < config.maxCallDepth then
    .error "sbf: maximum call depth exceeds the host call-depth limit"
  else if (2 ^ 64 - 1) / config.stackFrameSize < config.maxCallDepth then
    .error "sbf: configured stack size overflows"
  else if 2 ^ 32 ≤ config.stackFrameSize * config.maxCallDepth then
    .error "sbf: configured stack exceeds one VM region"
  else if 4096 * 64 < config.stackFrameSize * config.maxCallDepth then
    .error "sbf: configured stack exceeds the host stack-byte limit"
  else .ok ()

def stackSize (config : SBFVMConfig) : Nat := config.stackFrameSize * config.maxCallDepth

def usesStackFrameGaps (config : SBFVMConfig) (v : Version) : Bool :=
  config.enableStackFrameGaps && versionHasFeature v .stackFrameGaps

def initialFramePointer (config : SBFVMConfig) (v : Version) : Word :=
  stackStart + BitVec.ofNat 64
    (if versionHasFeature v .manualStackFrames then config.stackSize else config.stackFrameSize)

def automaticFrameStride (config : SBFVMConfig) (v : Version) : Word :=
  BitVec.ofNat 64 (config.stackFrameSize * if config.usesStackFrameGaps v then
    stackFrameGapMultiplier else 1)

def requiresAlignedMapping (config : SBFVMConfig) (v : Version) : Bool :=
  versionHasFeature v .alignedMemoryMapping || config.alignedMemoryMapping

end SBFVMConfig

structure Executable where
  image : ProgramImage
  config : SBFVMConfig
  activeRuntimeFeatures : Word

inductive SyscallOutcome
  | unregistered
  | returned (value : Word)
  | fault (code : FaultCode)

namespace SyscallOutcome

/-- The code of a fault is never the one that stands for success. -/
def faultCode (code : FaultCode) : FaultCode := if code = .none then .invalidInstruction else code

/-- A missing registration, also when a fault says so. -/
def representsUnregisteredSyscall : SyscallOutcome → Bool
  | unregistered => true
  | returned _ => false
  | fault code => faultCode code = .unknownSyscall

end SyscallOutcome

structure SyscallInvocation where
  hash : BitVec 32
  arguments : List Word
  runtimeFeatures : Word

structure MemoryRegion where
  address : Word
  bytes : List (BitVec 8)
  writable : Bool
  name : String
  vmGapSize : Nat := 0

/-- What the host supplies. -/
structure ExecutionEnvironment (σ : Type) where
  input : Word
  instructionData : Word
  memory : List MemoryRegion
  syscall : Option (σ → BitVec 32 → List Word → Option Word × σ)
  hostSyscall : Option (σ → BitVec 32 → List Word → SyscallOutcome × σ)
  runtimeFeatures : Option Word
  featureAwareSyscall : Option (σ → SyscallInvocation → SyscallOutcome × σ)
  host : σ

structure InterpreterOptions where
  maxSteps : Nat
  maxCallDepth : Option Nat
  recordTrace : Bool

structure InterpreterTraceEntry where
  slot : Nat
  address : Word
  rawOpcode : BitVec 8
  op : Opcode
  callDepth : Nat

structure SyscallTraceEntry where
  slot : Nat
  hash : BitVec 32
  arguments : List Word
  result : Word

inductive ExecutionStatus
  | running | returned | faulted | stepLimit
deriving DecidableEq

structure CallFrame where
  savedRegisters : List Word
  framePointer : Word
  returnSlot : Nat

abbrev Registers := Nat → Word

structure ExecutionResult where
  status : ExecutionStatus
  fault : FaultCode
  error : String
  finalSlot : Nat
  steps : Nat
  maxCallDepth : Nat
  returnValue : Word
  registers : Registers
  memory : List MemoryRegion
  trace : List InterpreterTraceEntry
  syscalls : List SyscallTraceEntry

namespace MemoryRegion

def virtualSpan (r : MemoryRegion) : Option Nat :=
  if r.vmGapSize = 0 then some r.bytes.length
  else if r.bytes.length % r.vmGapSize ≠ 0 ∨
    (2 ^ 64 - 1) / stackFrameGapMultiplier < r.bytes.length then none
  else some (r.bytes.length * stackFrameGapMultiplier)

def overlaps (l r : MemoryRegion) : Bool :=
  if l.bytes = [] ∨ r.bytes = [] then false
  else match l.virtualSpan, r.virtualSpan with
    | some ls, some rs =>
      if 2 ^ 64 - 1 - l.address.toNat < ls ∨ 2 ^ 64 - 1 - r.address.toNat < rs then true
      else l.address.toNat < r.address.toNat + rs ∧ r.address.toNat < l.address.toNat + ls
    | _, _ => true

def lastAddress (r : MemoryRegion) (span : Nat) : Nat :=
  if span = 0 then r.address.toNat else r.address.toNat + span - 1

/-- Where the bytes of an access stand in the backing of a region. -/
def rangeContains (r : MemoryRegion) (address : Word) (size : Nat) : Option Nat :=
  if address.toNat < r.address.toNat then none
  else
    let delta := address.toNat - r.address.toNat
    if r.vmGapSize = 0 then
      if r.bytes.length < delta ∨ r.bytes.length - delta < size then none else some delta
    else match r.virtualSpan with
      | none => none
      | some span =>
        let period := r.vmGapSize * stackFrameGapMultiplier
        let periodOffset := delta % period
        let backingOffset := delta / period * r.vmGapSize + periodOffset
        if span ≤ delta ∨ r.vmGapSize ≤ periodOffset ∨ r.vmGapSize - periodOffset < size ∨
            r.bytes.length < backingOffset ∨ r.bytes.length - backingOffset < size then none
        else some backingOffset

end MemoryRegion

/-- The first check that a mapping of the memory fails. -/
def validateRegions (aligned : Bool) : List Nat → List MemoryRegion → Except String Unit
  | _, [] => .ok ()
  | indices, r :: rest =>
    if r.vmGapSize ≠ 0 ∧ ¬r.vmGapSize.isPowerOfTwo then
      .error "sbf: VM memory gap size must be a power of two"
    else match r.virtualSpan with
      | none => .error "sbf: gapped VM memory region has an invalid backing size"
      | some span =>
        if 2 ^ 64 - 1 - r.address.toNat < span then
          .error "sbf: VM memory region address range overflows"
        else
          let index := r.address.toNat / 2 ^ 32
          if aligned ∧ r.lastAddress span / 2 ^ 32 ≠ index then
            .error "sbf: memory region crosses an aligned VM region boundary"
          else if aligned ∧ index ∈ indices then
            .error "sbf: memory mapping has multiple regions at one aligned index"
          else if rest.any r.overlaps then .error "sbf: VM memory regions overlap"
          else validateRegions aligned (index :: indices) rest

namespace Executable

def validateMemory (p : Executable) (memory : List MemoryRegion) : Except String Unit :=
  validateRegions (p.config.requiresAlignedMapping p.image.version) [] memory

def stackRegions (p : Executable) : List MemoryRegion :=
  let zeros (n : Nat) : List (BitVec 8) := List.replicate n 0
  if p.config.usesStackFrameGaps p.image.version then
    if p.config.requiresAlignedMapping p.image.version then
      [⟨stackStart, zeros p.config.stackSize, true, "stack", p.config.stackFrameSize⟩]
    else (List.range p.config.maxCallDepth).map fun frame =>
      ⟨stackStart + BitVec.ofNat 64 (frame * p.config.stackFrameSize * stackFrameGapMultiplier),
        zeros p.config.stackFrameSize, true, "stack." ++ toString frame, 0⟩
  else [⟨stackStart, zeros p.config.stackSize, true, "stack", 0⟩]

def appendProgramMemory (p : Executable) (memory : List MemoryRegion) : List MemoryRegion :=
  memory ++ ((p.image.regions.filter fun r => r.dataVisible ∧ r.bytes ≠ []).map fun r =>
      ⟨r.address, r.bytes, false, r.name, 0⟩) ++
    p.stackRegions

def validateProgram (p : Executable) (options : InterpreterOptions) : Except String Unit := do
  p.config.validate
  if ¬p.image.version.isConcreteVersion then
    .error "sbf: raw interpreter requires a concrete SBF version"
  else if p.image.text.length = 0 ∨ p.image.text.length % instructionSize ≠ 0 then
    .error "sbf: raw interpreter requires non-empty, instruction-aligned text"
  else if maxInstructions < p.image.text.instructionCount then
    .error "sbf: raw interpreter program exceeds the instruction limit"
  else if p.image.text.instructionCount ≤ p.image.entrySlot then
    .error "sbf: raw interpreter entry point is outside program text"
  else if options.maxCallDepth = some 0 then
    .error "sbf: raw interpreter call-depth limit must be non-zero"
  else if p.config.maxCallDepth < options.maxCallDepth.getD 0 then
    .error "sbf: raw interpreter call-depth limit exceeds the VM configuration"
  else .ok ()

end Executable

def loadBytes (bytes : List (BitVec 8)) (offset : Nat) : Nat → Word
  | 0 => 0
  | size + 1 =>
    loadBytes bytes offset size ||| ((bytes.getD (offset + size) 0).setWidth 64 <<< (size * 8))

def storeBytes (bytes : List (BitVec 8)) (offset : Nat) (value : Word) : Nat → List (BitVec 8)
  | 0 => bytes
  | size + 1 =>
    (storeBytes bytes offset value size).set (offset + size) ((value >>> (size * 8)).setWidth 8)

abbrev Faulting (α : Type) := Except (FaultCode × String) α

def load (address : Word) (width : Nat) : List MemoryRegion → Faulting Word
  | [] => .error (.memoryAccess, "memory load is outside mapped VM regions")
  | r :: rest =>
    match r.rangeContains address (width / 8) with
    | none => load address width rest
    | some offset => .ok (loadBytes r.bytes offset (width / 8))

def store (address : Word) (width : Nat) (value : Word) :
    List MemoryRegion → Faulting (List MemoryRegion)
  | [] => .error (.memoryAccess, "memory store is outside mapped VM regions")
  | r :: rest =>
    match r.rangeContains address (width / 8) with
    | none => (store address width value rest).map (r :: ·)
    | some offset =>
      if r.writable then .ok ({ r with bytes := storeBytes r.bytes offset value (width / 8) } ::
        rest)
      else .error (.memoryAccess, "memory store targets a read-only VM region")

end NeverD.Sbf
