import Mathlib.Algebra.GroupWithZero.Nat
import Mathlib.Data.List.Basic

namespace NeverD.Sbf

inductive Operation
  | loadImm | load | store
  | add | sub | mul | uHighMul | sHighMul | uDiv | uRem | sDiv | sRem
  | or | and | xor | lSh | rSh | aRSh | neg | mov | endianLE | endianBE | highOr
  | jump | eq | ne | uGt | uGe | uLt | uLe | sGt | sGe | sLt | sLe | set
  | call | callX | exit | invalid
deriving DecidableEq

def isConditional : Operation → Bool
  | .eq | .ne | .uGt | .uGe | .uLt | .uLe | .sGt | .sGe | .sLt | .sLe | .set => true
  | _ => false

inductive CallKind
  | none | syscall | internal | indirect | unsupported | unresolved
deriving DecidableEq

inductive EdgeKind
  | fallthrough | branchTaken | branch | call | indirectCall | ret | fault | invalid
deriving DecidableEq

structure CFGEdge where
  source : Nat
  target : Option Nat
  kind : EdgeKind

structure BasicBlock where
  id : Nat
  startSlot : Nat
  endSlot : Nat
  successors : List Nat
  reachable : Bool

structure LowIR where
  entrySlot : Nat
  /-- The number of instruction slots. -/
  slots : Nat
  blocks : List BasicBlock
  edges : List CFGEdge

structure MedInstruction where
  slot : Nat
  op : Operation
  call : CallKind := .none

inductive RegionKind
  | ifRegion | loop | irreducible
deriving DecidableEq

structure Region where
  kind : RegionKind
  functionIndex : Option Nat := none
  headerBlock : Nat
  exitBlock : Option Nat := none
  parentRegion : Option Nat := none
  loopPreorder : Nat := 0
  loopSubtreeEnd : Nat := 0
  blockCount : Nat := 0
  latchOffset : Nat := 0
  latchCount : Nat := 0
  blocks : List Nat := []

structure HighIR where
  /-- The number of functions. -/
  functions : Nat
  regions : List Region
  loopLatches : List Nat
  /-- The innermost loop of each block. -/
  blockLoops : List (Option Nat)

namespace HighIR

def latches (high : HighIR) (loop : Region) : List Nat :=
  if loop.kind ≠ .loop ∨ high.loopLatches.length < loop.latchOffset ∨
      high.loopLatches.length - loop.latchOffset < loop.latchCount then []
  else (high.loopLatches.drop loop.latchOffset).take loop.latchCount

def loopContains (high : HighIR) (loop : Region) (block : Nat) : Bool :=
  if loop.kind ≠ .loop ∨ loop.functionIndex.isNone ∨ loop.loopSubtreeEnd ≤ loop.loopPreorder then
    false
  else match (high.blockLoops[block]?.join).bind (high.regions[·]?) with
    | none => false
    | some innermost =>
      innermost.kind = .loop ∧ innermost.functionIndex = loop.functionIndex ∧
        loop.loopPreorder ≤ innermost.loopPreorder ∧ innermost.loopPreorder < loop.loopSubtreeEnd

end HighIR

structure SBFProgram where
  low : LowIR
  med : List MedInstruction
  high : HighIR

namespace SBFProgram

def entryBlock (p : SBFProgram) : Option BasicBlock :=
  p.low.blocks.find? fun b => b.startSlot ≤ p.low.entrySlot ∧ p.low.entrySlot < b.endSlot

def bySlot (p : SBFProgram) (slot : Nat) : Option MedInstruction := p.med.find? (·.slot = slot)

def terminator (p : SBFProgram) (block : Nat) : Option MedInstruction :=
  p.low.blocks[block]?.bind fun b =>
    (List.range' b.startSlot (b.endSlot - b.startSlot)).reverse.findSome? p.bySlot

def target (p : SBFProgram) (block : Nat) (kind : EdgeKind) : Option Nat :=
  (p.low.edges.filter fun e => e.source = block ∧ e.kind = kind).findSome? fun e =>
    e.target.filter (· < p.low.blocks.length)

/-- The taken or the fall-through edge of a conditional branch, the only successor of any other
block. -/
def follow (p : SBFProgram) (block : Nat) (outcome : Bool) : Option Nat :=
  match p.terminator block with
  | none => none
  | some t =>
    if isConditional t.op then p.target block (if outcome then .branchTaken else .fallthrough)
    else if t.op = .exit then none
    else match p.low.blocks[block]?.map BasicBlock.successors with
      | some [d] => some d
      | _ => none

def branches (p : SBFProgram) (block : Nat) : Bool :=
  (p.terminator block).any fun t => isConditional t.op

/-- The first `n` blocks that are visited from a block on. -/
def walk (p : SBFProgram) : Nat → Nat → (Nat → Bool) → List Nat
  | 0, _, _ => []
  | n + 1, block, outcomes =>
    block :: match p.follow block (outcomes 0) with
      | none => []
      | some d => p.walk n d (if p.branches block then fun k => outcomes (k + 1) else outcomes)

end SBFProgram

end NeverD.Sbf
