import Mathlib.Data.BitVec

namespace NeverD.Ir

inductive NdOp
  | copy | load | store | atomicXchg | atomicAdd | atomicCmpxchg
  | intAdd | intSub | intAnd | intOr | intXor | intLeft | intRight | intAshr | intMult | intDiv
  | intSdiv | intRem | intSrem | intEqual | intNotequal | intLess | intSless | intLessequal
  | intSlessequal | intZext | intSext | intNegate | intNot | intCarry | intSovf | intSbor
  | boolAnd | boolOr | boolXor | boolNot
  | floatAdd | floatSub | floatMult | floatDiv | floatNeg | floatAbs | floatSqrt | floatEqual
  | floatNotequal | floatLess | floatInt2float | floatFloat2int | floatTrunc | floatCeil
  | floatFloor | concat | subbytes | branch | condBr | indirBr | call | indirCall | ret | intNeg2
  | popcount | select | nop | intrinsic | floatLessequal | floatIsnan | floatFloat2float
  | floatRound | lzcount | insert | extract | cast | floatUint2float | floatFloat2uint | floatFma
  | floatRoundeven | floatMin | floatMax | floatMinnum | floatMaxnum
deriving DecidableEq

inductive NdMemoryOrdering
  | none | relaxed | acquire | release | acquireRelease | sequentiallyConsistent
deriving DecidableEq

inductive NdMemoryAddressSpace
  | default | x86FS | x86GS
deriving DecidableEq

/-- What an immediate means where it stands. -/
inductive ConstantAddressProvenance
  | unknown | scalar | addressFragment | address | dataAddress | codeAddress
deriving DecidableEq

inductive VarKind
  | reg | stack | temp | param | retVal | flag | const | ehException | ehSelector | sehExceptionCode
  | unspecified
deriving DecidableEq

namespace VarKind

def rank : VarKind → Nat
  | reg => 0
  | stack => 1
  | temp => 2
  | param => 3
  | retVal => 4
  | flag => 5
  | const => 6
  | ehException => 7
  | ehSelector => 8
  | sehExceptionCode => 9
  | unspecified => 10

end VarKind

def invalidVA : BitVec 64 := BitVec.allOnes 64

inductive Arch
  | x64 | aarch64 | x86 | arm | evm | sbf | unknown
deriving DecidableEq

structure MedVar where
  kind : VarKind := .temp
  id : Int := 0
  ssaVer : Int := 0
  size : Nat := 0
  provenance : ConstantAddressProvenance := .unknown
  addressOwnerVA : BitVec 64 := invalidVA
  constVal : BitVec 64 := 0
  theArch : Arch := .unknown
deriving DecidableEq

namespace MedVar

def isConst (v : MedVar) : Bool := v.kind = .const

def same (a b : MedVar) : Bool :=
  if a.kind ≠ b.kind then false
  else if a.kind = .const then
    a.constVal = b.constVal ∧ a.size = b.size ∧ a.provenance = b.provenance ∧
      a.addressOwnerVA = b.addressOwnerVA
  else a.id = b.id ∧ a.ssaVer = b.ssaVer

def makeConst (value : BitVec 64) (size : Nat) (provenance : ConstantAddressProvenance) : MedVar :=
  { kind := .const, id := -1, size := size, constVal := value, provenance := provenance }

end MedVar

structure PhiNode where
  output : MedVar
  args : List (Int × MedVar)
  exceptionalEntry : Option MedVar := none

inductive RegistrationRootKind
  | none | establishedFramePointer | callbackStackPointer | restoredStackPointer
  | realignedFramePointer | realignedRestoredStackPointer | displacedFramePointer
  | restoredCallbackStackPointer
deriving DecidableEq

structure MedOp where
  opcode : NdOp := .nop
  memoryOrdering : NdMemoryOrdering := .none
  memoryAddressSpace : NdMemoryAddressSpace := .default
  output : MedVar := {}
  intrinsicOutputs : List MedVar := []
  /-- The storage of the inputs, of which the first `numInputs` count. -/
  inputs : List MedVar := []
  numInputs : Nat := 0
  addr : BitVec 64 := 0
  registrationRoot : RegistrationRootKind := .none
  callSiteId : Nat := 0
  /-- The operation carries a hint about the call it comes from. -/
  sourceCallHint : Bool := false
  dead : Bool := false

structure ExceptionalEdge where
  blockId : Int
  targetVA : BitVec 64
deriving DecidableEq

structure MedBlock where
  id : Int := -1
  startAddr : BitVec 64 := 0
  endAddr : BitVec 64 := 0
  phis : List PhiNode := []
  ops : List MedOp := []
  succs : List Int := []
  preds : List Int := []
  exceptionalSuccs : List ExceptionalEdge := []
  exceptionalPreds : List ExceptionalEdge := []

/-- A variable that a call defines because its register is not kept. -/
structure MedCallClobber where
  value : MedVar
  callSiteId : Nat
  /-- The value before the call that a preserved prefix comes from. -/
  preservedInput : MedVar := {}
  preservedPrefixSize : Nat := 0

structure MedFunc where
  blocks : List MedBlock
  callClobbers : List MedCallClobber := []

structure Key where
  kind : VarKind
  id : Int
  ssaVer : Int
deriving DecidableEq

namespace Key

def le (a b : Key) : Bool :=
  a.kind.rank < b.kind.rank ∨
    (a.kind.rank = b.kind.rank ∧ (a.id < b.id ∨ (a.id = b.id ∧ a.ssaVer ≤ b.ssaVer)))

end Key

def MedVar.key (v : MedVar) : Key := ⟨v.kind, v.id, v.ssaVer⟩

end NeverD.Ir
