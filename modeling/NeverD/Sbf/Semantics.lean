import NeverD.Sbf.Opcodes

namespace NeverD.Sbf

abbrev Word := BitVec 64

inductive ResultExtension
  | none | zero32 | sign32
deriving DecidableEq

inductive ImmediateExtension
  | sign32 | zero32 | full64
deriving DecidableEq

inductive OperandSourceKind
  | none | immediate | sourceRegister | versionedCallRegister
deriving DecidableEq

inductive FaultPolicy
  | divideByZero | divideOverflow | memoryAccess | call
deriving DecidableEq

inductive TerminatorKind
  | none | jump | conditionalJump | call | ret
deriving DecidableEq

structure SemanticTraits where
  immediate : ImmediateExtension
  result : ResultExtension
  source : OperandSourceKind
  faults : List FaultPolicy
  terminator : TerminatorKind
  memoryWidth : Nat
  writesDestination : Bool
  swapOperands : Bool

def hasFaultPolicy (set : List FaultPolicy) (policy : FaultPolicy) : Bool := set.contains policy

def semanticTraits (info : OpcodeInfo) (v : Version) : SemanticTraits where
  immediate :=
    if info.id = .lddw then .full64
    else if versionHasFeature v .pqr ∧
        (info.op = .uHighMul ∨ info.op = .uDiv ∨ info.op = .uRem ∨ info.op = .highOr) then .zero32
    else .sign32
  result :=
    if info.width = 32 ∧ info.writesDestinationRegister then
      if (info.id = .mov32Reg ∧ versionHasFeature v .explicitSignExtension) ∨
          ((info.op = .add ∨ info.op = .sub ∨ info.op = .mul) ∧
            ¬versionHasFeature v .explicitSignExtension) then .sign32
      else .zero32
    else .none
  source :=
    match info.form with
    | .dstSrc | .load | .branchReg | .storeReg => .sourceRegister
    | .callReg => .versionedCallRegister
    | .none | .dst | .branch => .none
    | _ => .immediate
  faults :=
    if info.op = .uDiv ∨ info.op = .uRem then [.divideByZero]
    else if info.op = .sDiv ∨ info.op = .sRem then [.divideByZero, .divideOverflow]
    else if info.op = .load ∨ info.op = .store then [.memoryAccess]
    else if info.isCall then [.call]
    else []
  terminator :=
    if info.op = .jump then .jump
    else if info.isConditionalBranch then .conditionalJump
    else if info.isCall then .call
    else if info.isExit then .ret
    else .none
  memoryWidth := if info.op = .load ∨ info.op = .store then info.width else 0
  writesDestination := info.writesDestinationRegister
  swapOperands := info.op = .sub ∧ info.form = .dstImm ∧ versionHasFeature v .swapSubImmediate

def normalizeImmediate (immediate : Word) : ImmediateExtension → Word
  | .zero32 => (immediate.setWidth 32).setWidth 64
  | .full64 => immediate
  | .sign32 => (immediate.setWidth 32).signExtend 64

def extendALU32Result (value : BitVec 32) (extension : ResultExtension) : Word :=
  if extension = .sign32 then value.signExtend 64 else value.setWidth 64

/-- The scalar operations at one width. Shift amounts are taken modulo the width. -/
def evaluateScalarALUImpl {w : Nat} (op : Operation) (left right : BitVec w) (swapOperands : Bool) :
    Option (BitVec w) :=
  match op with
  | .add => some (left + right)
  | .sub => some (if swapOperands then right - left else left - right)
  | .mul => some (left * right)
  | .or => some (left ||| right)
  | .and => some (left &&& right)
  | .xor => some (left ^^^ right)
  | .lSh => some (left <<< (right.toNat % w))
  | .rSh => some (left >>> (right.toNat % w))
  | .aRSh => some (left.sshiftRight (right.toNat % w))
  | .neg => some (0 - left)
  | _ => none

def evaluateScalarALU (op : Operation) (width : Nat) (left right : Word) (swapOperands : Bool) :
    Option Word :=
  if width = 32 then
    (evaluateScalarALUImpl op (left.setWidth 32) (right.setWidth 32) swapOperands).map
      (·.setWidth 64)
  else if width = 64 then evaluateScalarALUImpl op left right swapOperands
  else none

def evaluateBranchConditionImpl {w : Nat} (op : Operation) (left right : BitVec w) : Bool :=
  match op with
  | .eq => left = right
  | .ne => left ≠ right
  | .uGt => right.ult left
  | .uGe => right.ule left
  | .uLt => left.ult right
  | .uLe => left.ule right
  | .sGt => right.slt left
  | .sGe => right.sle left
  | .sLt => left.slt right
  | .sLe => left.sle right
  | .set => left &&& right ≠ 0
  | _ => false -- unreachable: the caller passes a conditional operation

def evaluateBranchCondition (op : Operation) (width : Nat) (left right : Word) : Bool :=
  if width = 32 then evaluateBranchConditionImpl op (left.setWidth 32) (right.setWidth 32)
  else evaluateBranchConditionImpl op left right

def callxRegisterIndex (v : Version) (dst src : Nat) (immediate : BitVec 32) : Int :=
  if versionHasFeature v .callXSource then src
  else if versionHasFeature v .callXDestination then dst
  else immediate.toInt

end NeverD.Sbf
