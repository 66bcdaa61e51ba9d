import NeverD.Ir.MedDceWalks

namespace NeverD.Ir

namespace MedOp

def isEssential (op : MedOp) : Bool :=
  op.opcode = .store ∨ op.opcode = .atomicXchg ∨ op.opcode = .atomicAdd ∨
    op.opcode = .atomicCmpxchg ∨
    op.opcode = .call ∨ op.opcode = .indirCall ∨ op.opcode = .intrinsic ∨ op.opcode = .ret ∨
      op.opcode = .branch ∨
    op.opcode = .condBr ∨ op.opcode = .indirBr ∨ op.memoryOrdering ≠ .none ∨
      op.memoryAddressSpace ≠ .default

end MedOp

def x86BoundedLeafFlagOperand : Nat := 5

def x86ArithmeticFlagsBytes : Nat := 2

namespace DceContext

variable (ctx : DceContext)

def flagResult (op : MedOp) : Option MedVar :=
  if op.opcode = .intrinsic ∧ (op.operands.head?.any fun a => a.isConst) ∧ ctx.isBoundedLeaf op then
    op.intrinsicOutputs.getLast?
  else none

def hasDeadFlags (live : List ValueId) (op : MedOp) : Bool :=
  (ctx.flagResult op).any fun v => v.valueId ∉ live

def liveInputs (live : List ValueId) (op : MedOp) : List ValueId :=
  (op.operands.zipIdx.filter fun e =>
    0 ≤ e.1.id ∧ ¬ (e.2 = x86BoundedLeafFlagOperand ∧ ctx.hasDeadFlags live op)).map fun e =>
      e.1.valueId

def insertLive : List ValueId → List ValueId × List ValueId → List ValueId × List ValueId
  | [], s => s
  | k :: ks, (live, work) =>
      insertLive ks (if k ∈ live then (live, work) else (k :: live, k :: work))

def definesValue (k : ValueId) (op : MedOp) : Bool :=
  (0 ≤ op.output.id ∧ op.output.valueId = k) ∨ (ctx.flagResult op).any fun v => v.valueId = k

def phiInputs (f : MedFunc) (k : ValueId) : List ValueId :=
  ((f.blocks.flatMap (·.phis)).filter fun phi => 0 ≤ phi.output.id ∧
    phi.output.valueId = k).flatMap fun phi =>
    (phi.args.filter fun e => 0 ≤ e.2.id).map fun e => e.2.valueId

def markDefinitions (k : ValueId) : List MedOp → List ValueId × List ValueId →
    List ValueId × List ValueId
  | [], s => s
  | op :: rest, s =>
    markDefinitions k rest (if ctx.definesValue k op then insertLive (ctx.liveInputs s.1 op) s
      else s)

def markEssential : List MedOp → List ValueId × List ValueId → List ValueId × List ValueId
  | [], s => s
  | op :: rest, s => markEssential rest (if op.isEssential then insertLive (ctx.liveInputs s.1 op) s
      else s)

def propagate (f : MedFunc) : Nat → List ValueId × List ValueId → List ValueId
  | 0, s => s.1
  | _ + 1, (live, []) => live
  | fuel + 1, (live, k :: work) =>
    propagate f fuel (ctx.markDefinitions k (f.blocks.flatMap (·.ops))
      (insertLive (phiInputs f k) (live, work)))

def propagateFuel (f : MedFunc) : Nat :=
  ((f.blocks.flatMap (·.ops)).map fun op => op.operands.length).sum +
    ((f.blocks.flatMap (·.phis)).map fun phi => phi.args.length).sum

def liveDefs (f : MedFunc) (marked : List MedVar) : List ValueId :=
  let live := (marked.flatMap f.marks).dedup
  let s := ctx.markEssential (f.blocks.flatMap (·.ops)) (live, live)
  ctx.propagate f (s.2.length + propagateFuel f) s

/-- A bounded leaf whose flags nothing reads takes none. -/
def clearFlags (live : List ValueId) (op : MedOp) : MedOp :=
  if ctx.hasDeadFlags live op then
    { op with
        inputs :=
          op.inputs.set x86BoundedLeafFlagOperand (.makeConst 0 x86ArithmeticFlagsBytes .scalar) }
  else op

def isOutputLive (live : List ValueId) (op : MedOp) : Bool :=
  0 ≤ op.output.id ∧ op.output.valueId ∈ live

/-- A copy at the entry declares a register that is live there. -/
def isIncomingLive (live : List ValueId) (entryCopies : Bool) (op : MedOp) : Bool :=
  match op.operands with
  | [a] => entryCopies ∧ op.output.kind = .reg ∧ op.output.size ≠ 0 ∧ a.kind = .reg ∧ a.ssaVer = 0 ∧
      op.output.id = a.id ∧ op.output.regOff = a.regOff ∧ op.output.size = a.size ∧
      op.output.theArch = a.theArch ∧ a.valueId ∈ live
  | _ => false

def isKept (live : List ValueId) (entryCopies : Bool) (op : MedOp) : Bool :=
  if op.isEssential ∨ isOutputLive live op ∨ isIncomingLive live entryCopies op then true
  else if 0 ≤ op.output.id then false
  else !op.dead

def sweepOps (live : List ValueId) : Bool → List MedOp → List MedOp
  | _, [] => []
  | entryCopies, op :: rest =>
    let entryCopies := entryCopies && op.opcode = .copy
    if isKept live entryCopies op then { ctx.clearFlags live op with dead := false } ::
      sweepOps live entryCopies rest
    else sweepOps live entryCopies rest

def isPhiKept (live : List ValueId) (phi : PhiNode) : Bool :=
  phi.output.id < 0 ∨ phi.output.valueId ∈ live

def sweepBlock (live : List ValueId) (isFront : Bool) (b : MedBlock) : MedBlock :=
  { b with ops := ctx.sweepOps live isFront b.ops, phis := b.phis.filter (isPhiKept live) }

def sweep (f : MedFunc) (live : List ValueId) : MedFunc :=
  { f with blocks := f.blocks.zipIdx.map fun e => ctx.sweepBlock live (e.2 = 0) e.1 }

def runDce (f : MedFunc) : MedFunc :=
  ctx.sweep f (ctx.liveDefs f (ctx.seeds f.hasUniqueBlockIds true f).marked)

end DceContext

end NeverD.Ir
