import Mathlib.Data.List.Sort
import Mathlib.Data.List.Dedup
import NeverD.Ir.MedExecution

namespace NeverD.Ir

abbrev ValueId := Int × Int

instance : LawfulBEq ValueId := inferInstance

namespace MedVar

def valueId (v : MedVar) : ValueId := (v.id, v.ssaVer)

def regOff (v : MedVar) : Nat := v.constVal.toNat

def isNumberedReg (v : MedVar) : Bool := v.kind = .reg ∧ 0 ≤ v.id

def writesReg (v : MedVar) (reg : Nat) : Bool := v.kind = .reg ∧ v.size ≠ 0 ∧ v.regOff = reg

end MedVar

/-- What dead code elimination asks of the registers of a target. -/
structure DceRegisters where
  isParamReg : Nat → Bool
  isVectorReg : Nat → Bool
  isCalleeSaveReg : Nat → Bool
  isStackPointer : Nat → Bool
  isFramePointer : Nat → Bool
  isLinkRegister : Nat → Bool
  isX87ReturnReg : Nat → Bool
  isFlag : Nat → Nat → Bool
  /-- The carry, zero, sign and overflow flags, and parity and direction where the target has
  them. -/
  flagRegs : List Nat
  intReturnReg : Nat
  intReturnReg2 : Nat
  fpReturnReg : Nat
  fpReturnRegs : List Nat
  intReturnRegs : List Nat
  stackPointer : Nat
  indirectResultReg : Nat

namespace DceRegisters

def hasFPReturnReg (t : DceRegisters) : Bool := t.fpReturnReg ≠ 0

def isReturnReg (t : DceRegisters) (reg : Nat) : Bool :=
  reg = t.intReturnReg ∨ (t.intReturnReg2 ≠ 0 ∧ reg = t.intReturnReg2) ∨
    (t.fpReturnReg ≠ 0 ∧ reg = t.fpReturnReg)

end DceRegisters

/-- The registers of the target, and what is known of the image, the callees and the intrinsics. -/
structure DceContext where
  registers : DceRegisters
  alternateArgumentRegisters : List Nat
  nonstandardArgumentRegisters : List Nat
  isImport : BitVec 64 → Bool
  /-- The registers that a callee reads at its entry, where there is a summary. -/
  callEntryReads : BitVec 64 → Option (Nat → Bool)
  /-- What the nonlocal exits of exception handlers restore. -/
  parentExits : List MedVar
  /-- The intrinsic is a bounded leaf of a valid shape. -/
  isBoundedLeaf : MedOp → Bool
  /-- The intrinsic may overwrite the setup of a call. -/
  endsSetupAt : MedOp → Bool

namespace MedFunc

def registerIds (f : MedFunc) : List (Nat × Int) :=
  (f.blocks.flatMap fun b => b.ops.flatMap fun op => op.output :: op.operands).filterMap regId ++
    (f.callClobbers.flatMap fun c => c.value :: if 0 < c.preservedPrefixSize then [c.preservedInput]
      else []).filterMap regId
where
  regId (v : MedVar) : Option (Nat × Int) := if v.isNumberedReg then some (v.regOff, v.id) else none

def marks (f : MedFunc) (v : MedVar) : List ValueId :=
  if v.id < 0 then []
  else v.valueId ::
    if v.kind = .reg then (f.registerIds.filter fun e => e.1 = v.regOff).map fun e =>
    (e.2, v.ssaVer) else []

def knownRegisters (f : MedFunc) (marked : List MedVar) : List Nat :=
  (f.registerIds.map (·.1) ++ (marked.filter (·.isNumberedReg)).map (·.regOff)).dedup.insertionSort
    (· ≤ ·)

end MedFunc

def widest : List MedVar → Option MedVar := List.foldl (fun w v => match w with
  | none => some v
  | some x => if x.size < v.size then some v else some x) none

def newestAndWidest (isTarget : Nat → Bool) (ops : List MedOp) : List MedVar :=
  let writes := ops.reverse.filterMap fun op =>
    if op.output.kind = .reg ∧ op.output.size ≠ 0 ∧ isTarget op.output.regOff then some op.output
      else none
  writes.head?.toList ++ (widest writes).toList

namespace DceContext

variable (ctx : DceContext)

def returnRegs : List Nat :=
  let t := ctx.registers
  [t.intReturnReg] ++ (if t.intReturnReg2 ≠ 0 then [t.intReturnReg2] else []) ++
    (if t.hasFPReturnReg then [t.fpReturnReg] else []) ++ t.fpReturnRegs ++ t.intReturnRegs

def returnSeeds (f : MedFunc) (block : MedBlock) : List MedVar :=
  if block.ops.all fun op => op.opcode ≠ .ret then []
  else
    let phis := block.phis.filter fun phi =>
      phi.output.kind = .reg ∧ ctx.registers.isReturnReg phi.output.regOff ∧ 0 < phi.output.size
    (phis.flatMap fun phi => phi.output :: phi.args.map (·.2)) ++ (block.ops.zipIdx.flatMap fun e =>
        if e.1.opcode = .ret then ctx.returnRegs.flatMap fun reg =>
          newestAndWidest (· = reg) (block.ops.take e.2)
        else []) ++
      block.preds.flatMap fun pred =>
        if pred < 0 then []
        else match f.blocks[pred.toNat]? with
          | none => []
          | some b => newestAndWidest ctx.registers.isReturnReg b.ops

def isFlagVar (v : MedVar) : Bool :=
  v.kind = .flag ∨ (v.kind = .reg ∧
    (ctx.registers.isFlag v.regOff (if v.size = 0 then 1 else v.size) ∨
    v.regOff ∈ ctx.registers.flagRegs))

def phiSeeds (block : MedBlock) : List MedVar :=
  let t := ctx.registers
  (block.phis.filter fun phi => ¬ ctx.isFlagVar phi.output ∧ phi.output.kind = .reg ∧
    (t.isParamReg phi.output.regOff ∨ t.isReturnReg phi.output.regOff ∨
      t.isCalleeSaveReg phi.output.regOff ∨
      t.isStackPointer phi.output.regOff ∨ t.isFramePointer phi.output.regOff ∨
        t.isLinkRegister phi.output.regOff ∨
      t.isVectorReg phi.output.regOff)).flatMap fun phi => phi.output :: phi.args.map (·.2)

end DceContext

namespace MedFunc

def maxStackPtrTraceDepth : Nat := 24

variable (f : MedFunc)

def valueDef (v : ValueId) : Option MedOp :=
  (f.blocks.flatMap (·.ops)).find? fun op => 0 ≤ op.output.id ∧ op.output.valueId = v ∧
    ¬ (op.opcode = .copy ∧ op.numInputs = 1 ∧ op.operands.map (·.valueId) = [op.output.valueId])

def valuePhi (v : ValueId) : Option PhiNode :=
  (f.blocks.flatMap (·.phis)).find? fun phi => 0 ≤ phi.output.id ∧ phi.output.valueId = v

def defOf (v : MedVar) : Option MedOp := if v.id < 0 then none else f.valueDef v.valueId

def isTransparent : NdOp → Bool
  | .copy | .subbytes | .intZext | .intSext | .intAnd | .intAdd | .intSub => true
  | _ => false

def stackPointerBehind (isStackPointer : Nat → Bool) : Nat → List (MedVar × Nat) →
    List ValueId → Bool
  | 0, _, _ => false
  | _ + 1, [], _ => false
  | fuel + 1, (v, depth) :: pending, visited =>
    if v.isConst ∨ v.id < 0 ∨ maxStackPtrTraceDepth < depth ∨ v.valueId ∈ visited then
      stackPointerBehind isStackPointer fuel pending visited
    else if v.kind = .reg ∧ isStackPointer v.regOff then true
    else match f.valuePhi v.valueId with
      | some phi => stackPointerBehind isStackPointer fuel
        ((phi.args.map fun e => (e.2, depth + 1)).reverse ++ pending) (v.valueId :: visited)
      | none => match f.defOf v with
        | none => stackPointerBehind isStackPointer fuel pending (v.valueId :: visited)
        | some op => stackPointerBehind isStackPointer fuel
          ((if isTransparent op.opcode then (op.operands.take 1).map fun a => (a, depth + 1)
            else []) ++ pending)
          (v.valueId :: visited)

/-- Every value is expanded once. -/
def stackPointerFuel : Nat :=
  (f.blocks.flatMap (·.phis)).foldl (fun n phi => n + phi.args.length)
    (f.blocks.flatMap (·.ops)).length + 2

def isStackPointerDerived (isStackPointer : Nat → Bool) (v : MedVar) : Bool :=
  f.stackPointerBehind isStackPointer f.stackPointerFuel [(v, 0)] []

/-- The write is a copy of a stack pointer less a size that is not constant. -/
def commitsRuntimeAllocation (isStackPointer : Nat → Bool) : Nat → MedOp → Bool
  | 0, _ => false
  | depth + 1, op =>
    match op.opcode, op.operands with
    | .intSub, [a, b] =>
      !b.isConst && f.isStackPointerDerived isStackPointer a &&
        !f.isStackPointerDerived isStackPointer b
    | .subbytes, [a, b] =>
      if b.isConst ∧ b.constVal = 0 then
        (f.defOf a).any (commitsRuntimeAllocation isStackPointer depth)
      else false
    | .copy, a :: _ => (f.defOf a).any (commitsRuntimeAllocation isStackPointer depth)
    | .intZext, a :: _ => (f.defOf a).any (commitsRuntimeAllocation isStackPointer depth)
    | _, _ => false

def allocationSeeds (isStackPointer : Nat → Bool) : List MedVar :=
  ((f.blocks.flatMap (·.ops)).filter fun op => op.output.kind = .reg ∧ 0 < op.output.size ∧
    isStackPointer op.output.regOff ∧
      f.commitsRuntimeAllocation isStackPointer (maxStackPtrTraceDepth + 1) op).map (·.output)

end MedFunc

end NeverD.Ir
