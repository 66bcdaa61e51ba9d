import NeverD.Sbf.Semantics

namespace NeverD.Sbf

abbrev Text := List (BitVec 8)

def instructionSize : Nat := 8

def maxInstructions : Nat := 10485760 / instructionSize

def lddwSlotCount : Nat := 2

def registerCount : Nat := 11

def framePointerRegister : Nat := registerCount - 1

def dynamicStackFrameAlignment : Nat := 64

namespace Text

def byte (text : Text) (slot offset : Nat) : BitVec 8 :=
  text.getD (slot * instructionSize + offset) 0

def read16le (text : Text) (slot offset : Nat) : BitVec 16 :=
  text.byte slot (offset + 1) ++ text.byte slot offset

def read32le (text : Text) (slot offset : Nat) : BitVec 32 :=
  text.read16le slot (offset + 2) ++ text.read16le slot offset

def instructionCount (text : Text) : Nat := text.length / instructionSize

end Text

inductive FaultCode
  | none | invalidInstruction | invalidRegister | invalidBranch | divideByZero | divideOverflow
  | memoryAccess | callDepth | unknownSyscall | unknownIndirectCall | executionOverrun
deriving DecidableEq

inductive ValidationRule
  | none | unknownOpcode | missingLDDWContinuation | nonZeroLDDWContinuation
  | immediateDivisionByZero | immediateShiftOutOfRange | invalidEndianImmediate
  | misalignedFrameAdjustment | branchOutOfRange | branchToLDDWContinuation | invalidCallXRegister
  | invalidSourceRegister | framePointerWrite | invalidDestinationRegister
deriving DecidableEq

namespace ValidationRule

def fault : ValidationRule → FaultCode
  | none => .none
  | immediateDivisionByZero => .divideByZero
  | branchOutOfRange | branchToLDDWContinuation => .invalidBranch
  | invalidCallXRegister | invalidSourceRegister | framePointerWrite | invalidDestinationRegister =>
    .invalidRegister
  | _ => .invalidInstruction

def message : ValidationRule → String
  | none => "valid instruction"
  | unknownOpcode => "unknown or version-inactive opcode"
  | missingLDDWContinuation => "LDDW is missing its continuation slot"
  | nonZeroLDDWContinuation => "LDDW continuation has a non-zero opcode"
  | immediateDivisionByZero => "immediate division or remainder by zero"
  | immediateShiftOutOfRange => "immediate shift exceeds operand width"
  | invalidEndianImmediate => "endianness conversion width is invalid"
  | misalignedFrameAdjustment => "dynamic stack-frame adjustment is misaligned"
  | branchOutOfRange => "branch target is outside program text"
  | branchToLDDWContinuation => "branch targets an LDDW continuation"
  | invalidCallXRegister => "CALLX register is outside the callable register range"
  | invalidSourceRegister => "source register is outside the SBF register file"
  | framePointerWrite => "instruction cannot write the frame pointer"
  | invalidDestinationRegister => "destination register is outside the SBF register file"

def executionFault (rule : ValidationRule) : FaultCode :=
  if rule.fault = .none then .invalidInstruction else rule.fault

end ValidationRule

structure RawInstruction where
  slot : Nat
  rawOpcode : BitVec 8
  dst : Nat
  src : Nat
  offset : BitVec 16
  immediate : BitVec 32
  info : Option OpcodeInfo

def decodeRaw (text : Text) (v : Version) (slot : Nat) : RawInstruction where
  slot := slot
  rawOpcode := text.byte slot 0
  dst := (text.byte slot 1 &&& 0x0f).toNat
  src := (text.byte slot 1 >>> 4).toNat
  offset := text.read16le slot 2
  immediate := text.read32le slot 4
  info := getOpcodeInfo (text.byte slot 0) v

structure InstructionValidation where
  rule : ValidationRule := .none
  diagnosticSlot : Nat
  hasLDDWContinuation : Bool := false
  branchTarget : Option Nat := none
  callXRegister : Option Nat := none

namespace InstructionValidation

def valid (r : InstructionValidation) : Bool := r.rule = .none

end InstructionValidation

def validateWideLoad (text : Text) (i : RawInstruction) (info : OpcodeInfo) : ValidationRule :=
  if info.id = .lddw then
    if text.instructionCount ≤ i.slot + 1 then .missingLDDWContinuation
    else if text.byte (i.slot + 1) 0 ≠ 0 then .nonZeroLDDWContinuation
    else .none
  else .none

def validateImmediate (v : Version) (i : RawInstruction) (info : OpcodeInfo) : ValidationRule :=
  if info.form = .dstImm ∧ hasFaultPolicy (semanticTraits info v).faults .divideByZero ∧
    i.immediate = 0 then .immediateDivisionByZero
  else if (info.op = .lSh ∨ info.op = .rSh ∨ info.op = .aRSh) ∧ info.form = .dstImm ∧
      (i.immediate.toInt < 0 ∨ (info.width : Int) ≤ i.immediate.toInt) then
      .immediateShiftOutOfRange
  else if (info.op = .endianLE ∨ info.op = .endianBE) ∧ i.immediate ≠ 16 ∧ i.immediate ≠ 32 ∧
      i.immediate ≠ 64 then .invalidEndianImmediate
  else if info.id = .add64Imm ∧ versionHasFeature v .manualStackFrames ∧
      i.dst = framePointerRegister ∧
      i.immediate.toInt.tmod dynamicStackFrameAlignment ≠ 0 then .misalignedFrameAdjustment
  else .none

def branchSlot (i : RawInstruction) : Int := i.slot + 1 + i.offset.toInt

def validateBranch (text : Text) (i : RawInstruction) (info : OpcodeInfo) : ValidationRule :=
  if info.isBranch then
    if branchSlot i < 0 ∨ (text.instructionCount : Int) ≤ branchSlot i then .branchOutOfRange
    else if text.byte (branchSlot i).toNat 0 = 0 then .branchToLDDWContinuation
    else .none
  else .none

def validateCallX (v : Version) (i : RawInstruction) (info : OpcodeInfo) : ValidationRule :=
  if info.id = .callReg then
    let register := callxRegisterIndex v i.dst i.src i.immediate
    if register < 0 ∨ (framePointerRegister : Int) ≤ register then .invalidCallXRegister else .none
  else .none

def validateRegisters (v : Version) (i : RawInstruction) (info : OpcodeInfo) : ValidationRule :=
  if registerCount ≤ i.src then .invalidSourceRegister
  else if registerCount ≤ i.dst then .invalidDestinationRegister
  else if i.dst = framePointerRegister ∧ ¬info.writesMemory ∧
      ¬(info.id = .add64Imm ∧ versionHasFeature v .manualStackFrames) then .framePointerWrite
  else .none

def validateInstruction (text : Text) (v : Version) (i : RawInstruction) : InstructionValidation :=
  match i.info with
  | none => { rule := .unknownOpcode, diagnosticSlot := i.slot }
  | some info =>
    if validateWideLoad text i info ≠ .none then
      { rule := validateWideLoad text i info, diagnosticSlot := i.slot }
    else
      let wide : Bool := info.id = .lddw
      if validateImmediate v i info ≠ .none then
        { rule := validateImmediate v i info, diagnosticSlot := i.slot,
          hasLDDWContinuation := wide }
      else if validateBranch text i info ≠ .none then
        { rule := validateBranch text i info, diagnosticSlot := i.slot,
          hasLDDWContinuation := wide }
      else
        let branchTarget := if info.isBranch then some (branchSlot i).toNat else none
        if validateCallX v i info ≠ .none then
          { rule := validateCallX v i info, diagnosticSlot := i.slot, hasLDDWContinuation := wide,
            branchTarget }
        else
          { rule := validateRegisters v i info
            diagnosticSlot := if wide then i.slot + 1 else i.slot
            hasLDDWContinuation := wide
            branchTarget
            callXRegister :=
              if info.id = .callReg then some (callxRegisterIndex v i.dst i.src i.immediate).toNat
                else none }

variable {i : RawInstruction}

variable {text : Text}

lemma validateWideLoad_none {info : OpcodeInfo} (h : validateWideLoad text i info = .none)
    (hid : info.id = .lddw) :
    i.slot + 1 < text.instructionCount ∧ text.byte (i.slot + 1) 0 = 0 := by
  unfold validateWideLoad at h
  rw [if_pos hid] at h
  split at h
  · cases h
  · split at h
    · cases h
    · constructor
      · omega
      · simp_all

lemma validateBranch_none {info : OpcodeInfo} (h : validateBranch text i info = .none)
    (hb : info.isBranch = true) :
    (branchSlot i).toNat < text.instructionCount ∧ text.byte (branchSlot i).toNat 0 ≠ 0 := by
  unfold validateBranch at h
  rw [if_pos hb] at h
  split at h
  · cases h
  · split at h
    · cases h
    · constructor
      · omega
      · assumption

theorem validateInstruction_wide {v : Version}
    (h : (validateInstruction text v i).hasLDDWContinuation = true) :
    ∃ info, i.info = some info ∧ info.id = .lddw ∧ i.slot + 1 < text.instructionCount ∧
      text.byte (i.slot + 1) 0 = 0 := by
  unfold validateInstruction at h
  cases hinfo : i.info with
  | none => simp [hinfo] at h
  | some info =>
    simp only [hinfo] at h
    by_cases hw : validateWideLoad text i info ≠ .none
    · rw [if_pos hw] at h
      cases h
    · have hid : info.id = .lddw := by
        rw [if_neg hw] at h
        repeat' split at h
        all_goals simpa using h
      have hslots := validateWideLoad_none (not_not.mp hw) hid
      exact ⟨info, rfl, hid, hslots.1, hslots.2⟩

theorem validateInstruction_valid {v : Version} (h : (validateInstruction text v i).valid = true) :
    ∃ info, i.info = some info ∧ (validateInstruction text v i).hasLDDWContinuation =
      decide (info.id = .lddw) ∧
      (validateInstruction text v i).branchTarget = (if info.isBranch then some (branchSlot i).toNat
      else none) ∧ (info.isBranch = true →
        (branchSlot i).toNat < text.instructionCount ∧ text.byte (branchSlot i).toNat 0 ≠ 0) := by
  unfold InstructionValidation.valid at h
  unfold validateInstruction at h ⊢
  cases hinfo : i.info with
  | none => simp [hinfo] at h
  | some info =>
    simp only [hinfo] at h ⊢
    by_cases hw : validateWideLoad text i info ≠ .none
    · simp [if_pos hw] at h
      exact absurd h hw
    by_cases hi : validateImmediate v i info ≠ .none
    · simp [if_neg hw, if_pos hi] at h
      exact absurd h hi
    by_cases hb : validateBranch text i info ≠ .none
    · simp [if_neg hw, if_neg hi, if_pos hb] at h
      exact absurd h hb
    by_cases hc : validateCallX v i info ≠ .none
    · simp [if_neg hw, if_neg hi, if_neg hb, if_pos hc] at h
      exact absurd h hc
    · simp only [if_neg hw, if_neg hi, if_neg hb, if_neg hc]
      exact ⟨info, rfl, rfl, rfl, validateBranch_none (not_not.mp hb)⟩

end NeverD.Sbf
