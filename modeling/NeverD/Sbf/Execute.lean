import NeverD.Sbf.Interpreter

namespace NeverD.Sbf

def returnRegister : Nat := 0

def firstArgumentRegister : Nat := 1

def instructionDataRegister : Nat := 2

def argumentRegisterCount : Nat := 5

def firstCalleeSavedRegister : Nat := 6

def calleeSavedRegisterCount : Nat := 4

/-- The high half of a product, from the four products of the halves. -/
def unsignedHighMultiply64 (left right : Word) : Word :=
  let leftLow := left &&& 0xffffffff
  let leftHigh := left >>> 32
  let rightLow := right &&& 0xffffffff
  let rightHigh := right >>> 32
  let lowProduct := leftLow * rightLow
  let crossProduct := leftHigh * rightLow + (lowProduct >>> 32)
  let middle := (crossProduct &&& 0xffffffff) + leftLow * rightHigh
  leftHigh * rightHigh + (crossProduct >>> 32) + (middle >>> 32)

def signedHighMultiply64 (left right : Word) : Word :=
  unsignedHighMultiply64 left right - (if left >>> 63 ≠ 0 then right else 0) - (if right >>> 63 ≠
    0 then left else 0)

/-- Division and remainder at one width. The result is not sign-extended. -/
def divide {w : Nat} (op : Operation) (left right : BitVec w) : Faulting (BitVec w) :=
  if right = 0 then .error (.divideByZero, "SBF division by zero")
  else if op = .sDiv ∨ op = .sRem then
    if left = BitVec.intMin w ∧
      right = -1 then .error (.divideOverflow, "SBF signed division overflow")
    else .ok (if op = .sDiv then left.sdiv right else left.srem right)
  else .ok (if op = .uDiv then left / right else left % right)

def byteswap (bytes : Nat) (value : Word) : Word :=
  (List.range bytes).foldl
    (fun swapped k => swapped ||| (((value >>> (8 * k)) &&& 0xff) <<< (8 * (bytes - 1 - k)))) 0

/-- The conversion of a little-endian host. -/
def convertEndian (op : Operation) (immediate : BitVec 32) (value : Word) : Faulting Word :=
  let narrow (bytes : Nat) : Word := value &&& BitVec.ofNat 64 (2 ^ (8 * bytes) - 1)
  let convert (bytes : Nat) : Word := if op = .endianBE then byteswap bytes (narrow bytes)
    else narrow bytes
  if immediate = 16 then .ok (convert 2)
  else if immediate = 32 then .ok (convert 4)
  else if immediate = 64 then .ok (convert 8)
  else .error (.invalidInstruction, "invalid SBF endian-conversion width")

def sourceOperand (v : Version) (info : OpcodeInfo) (i : RawInstruction) (registers : Registers) :
    Word :=
  let traits := semanticTraits info v
  if traits.source = .sourceRegister then registers i.src
  else normalizeImmediate (i.immediate.setWidth 64) traits.immediate

/-- Registers and memory after an instruction, or nothing where the instruction moves control. -/
def operate (v : Version) (info : OpcodeInfo) (i : RawInstruction) (registers : Registers)
    (memory : List MemoryRegion) : Option (Faulting (Registers × List MemoryRegion)) :=
  let traits := semanticTraits info v
  let source := sourceOperand v info i registers
  let offset : Word := i.offset.signExtend 64
  let write (value : Word) : Registers × List MemoryRegion :=
    (Function.update registers i.dst value, memory)
  match info.op with
  | .load => some ((load (registers i.src + offset) info.width memory).map write)
  | .store => some ((store (registers i.dst + offset) info.width source memory).map fun memory =>
      (registers, memory))
  | .mov =>
    some (.ok (write (if info.width = 32 then extendALU32Result (source.setWidth 32) traits.result
      else source)))
  | .uHighMul => some (.ok (write (unsignedHighMultiply64 (registers i.dst) source)))
  | .sHighMul => some (.ok (write (signedHighMultiply64 (registers i.dst) source)))
  | .uDiv | .uRem | .sDiv | .sRem =>
    if info.width = 32 then
      some ((divide info.op ((registers i.dst).setWidth 32) (source.setWidth 32)).map fun value =>
        write (value.setWidth 64))
    else some ((divide info.op (registers i.dst) source).map write)
  | .endianLE | .endianBE => some ((convertEndian info.op i.immediate (registers i.dst)).map write)
  | .highOr => some (.ok (write (registers i.dst ||| (i.immediate.setWidth 64 <<< 32))))
  | .jump | .eq | .ne | .uGt | .uGe | .uLt | .uLe | .sGt | .sGe | .sLt | .sLe | .set | .call
  | .callX | .exit => none
  | _ =>
    match evaluateScalarALU info.op info.width (registers i.dst) source traits.swapOperands with
    | some value =>
      some (.ok (write (if info.width = 32 then extendALU32Result (value.setWidth 32) traits.result
        else value)))
    | none =>
        some (.error (.invalidInstruction, "unsupported operation in the raw SBF interpreter"))

structure Machine (σ : Type) where
  registers : Registers
  /-- The open calls, the innermost first. -/
  frames : List CallFrame
  memory : List MemoryRegion
  host : σ
  pc : Nat
  steps : Nat
  finalSlot : Nat
  maxCallDepth : Nat
  trace : List InterpreterTraceEntry
  syscalls : List SyscallTraceEntry

inductive Progress (σ : Type)
  | running (m : Machine σ)
  | stopped (m : Machine σ) (status : ExecutionStatus) (fault : FaultCode) (message : String)

namespace Executable

variable {σ : Type} (p : Executable) (environment : ExecutionEnvironment σ)
    (options : InterpreterOptions)

def depthLimit : Nat := options.maxCallDepth.getD p.config.maxCallDepth

def fail (m : Machine σ) (fault : FaultCode) (message : String) : Progress σ :=
  .stopped { m with finalSlot := m.pc } .faulted fault message

def goTo (m : Machine σ) (slot : Nat) : Progress σ := .running { m with pc := slot }

/-- Open a call and go to its target. -/
def pushFrame (m : Machine σ) (target : Nat) : Progress σ :=
  if p.depthLimit options ≤ m.frames.length + 1 then
    fail m .callDepth "maximum SBF call depth exceeded"
  else
    let frame : CallFrame := {
      savedRegisters :=
        (List.range calleeSavedRegisterCount).map fun k =>
          m.registers (firstCalleeSavedRegister + k)
      framePointer := m.registers framePointerRegister
      returnSlot := m.pc + 1 }
    goTo { m with
      frames := frame :: m.frames
      maxCallDepth := max m.maxCallDepth (m.frames.length + 1)
      registers :=
        if versionHasFeature p.image.version .manualStackFrames then m.registers
        else Function.update m.registers framePointerRegister
          (m.registers framePointerRegister + p.config.automaticFrameStride p.image.version) }
          target

/-- Ask the host. The callback that knows the runtime features comes before the others. -/
def dispatchSyscall (m : Machine σ) (hash : BitVec 32) : SyscallOutcome × Machine σ :=
  let arguments :=
    (List.range argumentRegisterCount).map fun k => m.registers (firstArgumentRegister + k)
  let features := environment.runtimeFeatures.getD p.activeRuntimeFeatures
  let (outcome, host) :=
    match environment.featureAwareSyscall, environment.hostSyscall, environment.syscall with
    | some call, _, _ => call m.host ⟨hash, arguments, features⟩
    | none, some call, _ => call m.host hash arguments
    | none, none, some call =>
      let (value, host) := call m.host hash arguments
      (value.elim .unregistered .returned, host)
    | none, none, none => (.unregistered, m.host)
  let m := { m with host }
  match outcome with
  | .returned value =>
    (outcome, { m with
      registers := Function.update m.registers returnRegister value
      syscalls := m.syscalls ++ [⟨m.pc, hash, arguments, value⟩] })
  | _ => (outcome, m)

def hostSyscallFaultMessage : String := "SBF host syscall callback reported an execution fault"

def staticCall (m : Machine σ) (i : RawInstruction) : Progress σ :=
  if i.src = 0 then
    let (outcome, m) := p.dispatchSyscall environment m i.immediate
    match outcome with
    | .unregistered =>
        fail m .unknownSyscall "SBF syscall is not registered in the test environment"
    | .fault code => fail m (SyscallOutcome.faultCode code) hostSyscallFaultMessage
    | .returned _ => goTo m (m.pc + 1)
  else if i.src = 1 then
    let target : Int := m.pc + 1 + i.immediate.toInt
    if target < 0 ∨ (p.image.text.instructionCount : Int) ≤ target then
      fail m .invalidInstruction "unsupported static SBF immediate call"
    else p.pushFrame options m target.toNat
  else fail m .invalidInstruction "unsupported static SBF immediate call"

/-- A call by key asks the host first and then looks for a function, also when the host answered. -/
def legacyCall (m : Machine σ) (i : RawInstruction) : Progress σ :=
  let (outcome, m) := p.dispatchSyscall environment m i.immediate
  match outcome, p.image.findFunction i.immediate with
  | .fault code, function =>
    if outcome.representsUnregisteredSyscall then
      match function with
      | some function => p.pushFrame options m function.targetSlot
      | none => fail m .unknownSyscall "SBF immediate call target cannot be resolved"
    else fail m (SyscallOutcome.faultCode code) hostSyscallFaultMessage
  | _, some function => p.pushFrame options m function.targetSlot
  | .unregistered, none => fail m .unknownSyscall "SBF immediate call target cannot be resolved"
  | .returned _, none => goTo m (m.pc + 1)

/-- An indirect call opens its frame before the target is looked at. -/
def indirectCall (m : Machine σ) (register : Nat) : Progress σ :=
  let target :=
    ((m.registers register - p.image.textAddress) / BitVec.ofNat 64 instructionSize).toNat
  match p.pushFrame options m target with
  | .running m' =>
    if p.image.text.instructionCount ≤ target then
      fail { m' with pc := m.pc } .unknownIndirectCall
        "SBF indirect call target is outside program text"
    else .running m'
  | stopped => stopped

def exit (m : Machine σ) : Progress σ :=
  match m.frames with
  | [] => .stopped m .returned .none ""
  | frame :: frames =>
    let registers := Function.update m.registers framePointerRegister frame.framePointer
    let restored := (List.range calleeSavedRegisterCount).foldl (fun registers k =>
        Function.update registers (firstCalleeSavedRegister + k) (frame.savedRegisters.getD k 0))
          registers
    goTo { m with frames, registers := restored } frame.returnSlot

def execute (m : Machine σ) (i : RawInstruction) (info : OpcodeInfo)
    (validation : InstructionValidation) : Progress σ :=
  if info.id = .lddw then
    let value : Word := p.image.text.read32le (m.pc + 1) 4 ++ i.immediate
    goTo { m with registers := Function.update m.registers i.dst value } (m.pc + lddwSlotCount)
  else match operate p.image.version info i m.registers m.memory with
    | some (.ok (registers, memory)) => goTo { m with registers, memory } (m.pc + 1)
    | some (.error (code, message)) => fail m code message
    | none =>
      -- A branch that has passed its checks has a target.
      let target := validation.branchTarget.getD 0
      if info.op = .jump then goTo m target
      else if info.isConditionalBranch then
        let source := sourceOperand p.image.version info i m.registers
        if evaluateBranchCondition info.op info.width (m.registers i.dst) source then goTo m target
        else goTo m (m.pc + 1)
      else if info.op = .call then
        if versionHasFeature p.image.version .staticSyscalls then
          p.staticCall environment options m i
        else p.legacyCall environment options m i
      else if info.op = .callX then p.indirectCall options m (validation.callXRegister.getD 0)
      else if info.op = .exit then exit m
      else fail m .invalidInstruction "unsupported operation in the raw SBF interpreter"

def step (m : Machine σ) : Progress σ :=
  if p.image.text.instructionCount ≤ m.pc then
    fail m .executionOverrun "program counter is outside SBF text"
  else
    let i := decodeRaw p.image.text p.image.version m.pc
    let m := { m with
      trace :=
        if options.recordTrace then
          m.trace ++ [⟨m.pc, p.image.textAddress + BitVec.ofNat 64 (m.pc * instructionSize),
            i.rawOpcode, i.info.elim .unknown (·.id), m.frames.length⟩]
        else m.trace
      steps := m.steps + 1
      finalSlot := m.pc }
    let validation := validateInstruction p.image.text p.image.version i
    match i.info with
    | some info =>
      if validation.valid then p.execute environment options m i info validation
      else fail m validation.rule.executionFault validation.rule.message
    | none => fail m validation.rule.executionFault validation.rule.message

def finish (m : Machine σ) (status : ExecutionStatus) (fault : FaultCode) (error : String) :
    ExecutionResult where
  status := status
  fault := fault
  error := error
  finalSlot := m.finalSlot
  steps := m.steps
  maxCallDepth := m.maxCallDepth
  returnValue := m.registers returnRegister
  registers := m.registers
  memory := m.memory
  trace := m.trace
  syscalls := m.syscalls

def run : Nat → Machine σ → ExecutionResult
  | 0, m => finish { m with finalSlot := m.pc } .stepLimit .executionOverrun
    "SBF execution step limit exceeded"
  | left + 1, m =>
    match p.step environment options m with
    | .running m => run left m
    | .stopped m status fault message => finish m status fault message

def start : Machine σ where
  registers :=
    Function.update (Function.update
      (Function.update (fun _ => 0) firstArgumentRegister environment.input)
      instructionDataRegister environment.instructionData) framePointerRegister
      (p.config.initialFramePointer p.image.version)
  frames := []
  memory := p.appendProgramMemory environment.memory
  host := environment.host
  pc := p.image.entrySlot
  steps := 0
  finalSlot := 0
  maxCallDepth := 0
  trace := []
  syscalls := []

def executeRaw : Except String ExecutionResult := do
  p.validateProgram options
  p.validateMemory (p.appendProgramMemory environment.memory)
  .ok (p.run environment options options.maxSteps (p.start environment))

end Executable

end NeverD.Sbf
