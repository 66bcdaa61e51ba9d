import NeverD.Ir.MedDce

namespace NeverD.Ir

/-- What is marked, and what the walks have passed: operations by position, and ends of blocks. -/
structure DceState where
  marked : List MedVar := []
  paramWritesWalked : List (Nat × Nat) := []
  directParamWritesWalked : List (Nat × Nat) := []
  reachedEnds : List ((Nat × Bool) × Nat) := []
  reachingWalks : List ((Nat × Bool) × Nat × Nat) := []

namespace DceState

def markLive (st : DceState) (v : MedVar) : DceState := { st with marked := v :: st.marked }

end DceState

def MedFunc.hasUniqueBlockIds (f : MedFunc) : Bool := (f.blocks.map (·.id)).Nodup

def MedFunc.blockIndex (f : MedFunc) (id : Int) : Option Nat := f.blocks.findIdx? fun b => b.id = id

namespace DceContext

variable (ctx : DceContext)

def endsSetup (op : MedOp) : Bool :=
  if op.opcode = .call ∨ op.opcode = .indirCall then true
  else if op.opcode ≠ .intrinsic then false
  else ctx.endsSetupAt op

def isParamWrite (direct : Bool) (v : MedVar) : Bool :=
  v.kind = .reg ∧ 0 < v.size ∧
    (ctx.registers.isParamReg v.regOff ∨ ctx.registers.isVectorReg v.regOff ∨
    (direct ∧ (v.regOff ∈ ctx.alternateArgumentRegisters ∨
      v.regOff ∈ ctx.nonstandardArgumentRegisters)))

/-- Keep the writes of parameters before a point, back to the end of an earlier setup or to what was
passed before. -/
def seedParamWrites (setup : Bool) (block : MedBlock) (bi : Nat) (direct : Bool) :
    Nat → DceState → DceState
  | 0, st => st
  | j + 1, st => match block.ops[j]? with
    | none => st
    | some op =>
      let walked := if direct then st.directParamWritesWalked else st.paramWritesWalked
      if (setup ∧ (bi, j) ∈ walked) ∨ ctx.endsSetup op then st
      else
        let st := { st with
          paramWritesWalked := (bi, j) :: st.paramWritesWalked
          directParamWritesWalked := if direct then (bi, j) :: st.directParamWritesWalked
            else st.directParamWritesWalked }
        seedParamWrites setup block bi direct j
          (if ctx.isParamWrite direct op.output then st.markLive op.output else st)

/-- Look for the newest write of a register before a point of a block. -/
def scanWrites (share : Bool) (key : Nat × Bool) (block : MedBlock) (bi : Nat) :
    Nat → DceState → Bool × DceState
  | 0, st => (false, st)
  | j + 1, st => match block.ops[j]? with
    | none => (true, st)
    | some op =>
      if share ∧ (key, bi, j) ∈ st.reachingWalks then (true, st)
      else
        let st := if share then { st with reachingWalks := (key, bi, j) :: st.reachingWalks }
          else st
        let next := if op.output.writesReg key.1 then st.markLive op.output else st
        if key.2 ∧ ctx.endsSetup op then (true, next)
        else if op.output.writesReg key.1 then (true, next)
        else scanWrites share key block bi j st

def matchingPhis (reg : Nat) (block : MedBlock) : List MedVar :=
  (block.phis.map (·.output)).filter (·.writesReg reg)

def predecessorEnds (f : MedFunc) (block : MedBlock) : List (Nat × Nat) :=
  (block.preds.filterMap fun pred => match f.blockIndex pred with
    | none => none
    | some bi => some (bi, (f.blocks.getD bi {}).ops.length)).reverse

def reachingLoop (share : Bool) (f : MedFunc) (key : Nat × Bool) :
    Nat → List (Nat × Nat) → List (Int × Nat) → DceState → DceState
  | 0, _, _, st => st
  | _ + 1, [], _, st => st
  | fuel + 1, (bi, before) :: work, visited, st =>
    let block := f.blocks.getD bi {}
    let passed := if share then before = block.ops.length ∧ (key, bi) ∈ st.reachedEnds
      else (block.id, before) ∈ visited
    if passed then reachingLoop share f key fuel work visited st
    else
      let st := if share ∧ before = block.ops.length then
        { st with reachedEnds := (key, bi) :: st.reachedEnds } else st
      let visited := if share then visited else (block.id, before) :: visited
      let found := ctx.scanWrites share key block bi before st
      if found.1 then reachingLoop share f key fuel work visited found.2
      else if matchingPhis key.1 block ≠ [] then
        reachingLoop share f key fuel work visited
          ((matchingPhis key.1 block).foldl DceState.markLive found.2)
      else reachingLoop share f key fuel (predecessorEnds f block ++ work) visited found.2

/-- Every end of a block is expanded once, and the start. -/
def reachingFuel (f : MedFunc) : Nat := 2 * (f.blocks.map (·.preds.length)).sum + 2

/-- Keep the definitions of a register that reach a point: the newest write, else the join, else
what reaches the end of each predecessor. -/
def seedReachingDef (share : Bool) (f : MedFunc) (bi before reg : Nat) (argument : Bool)
    (st : DceState) : DceState :=
  ctx.reachingLoop share f (reg, argument) (reachingFuel f) [(bi, before)] [] st

def isDirectCall (op : MedOp) : Bool :=
  match op.opcode, op.operands with
  | .call, target :: _ => target.isConst && !ctx.isImport target.constVal
  | _, _ => false

def isCall (op : MedOp) : Bool := op.opcode = .call ∨ op.opcode = .indirCall ∨
    op.opcode = .intrinsic

def isTail (block : MedBlock) (op : MedOp) : Bool := op.opcode = .indirBr ∧ block.succs = []

def entryReads (op : MedOp) : Option (Nat → Bool) :=
  op.operands.head?.bind fun target => ctx.callEntryReads target.constVal

def argumentRegisters (f : MedFunc) (direct : Bool) (st : DceState) : List Nat :=
  (f.knownRegisters st.marked).filter fun reg =>
    ctx.registers.isParamReg reg ∨ ctx.registers.isVectorReg reg ∨
      (direct ∧ reg ∈ ctx.alternateArgumentRegisters)

/-- The registers that a call reads without naming them: the stack pointer, the address of a result,
and what the summary says. -/
def seedImplicitInputs (share : Bool) (f : MedFunc) (block : MedBlock) (bi i : Nat) (op : MedOp)
    (st : DceState) : DceState :=
  let transfers := op.opcode = .call ∨ op.opcode = .indirCall ∨ isTail block op
  let st := ctx.seedReachingDef share f bi i ctx.registers.stackPointer false st
  let st := if ctx.registers.indirectResultReg ≠ 0 ∧ transfers then
    ctx.seedReachingDef share f bi i ctx.registers.indirectResultReg false st else st
  if ctx.isDirectCall op then match ctx.entryReads op with
    | none => st
    | some reads => ctx.nonstandardArgumentRegisters.foldl (fun st reg =>
        if reads (reg / 8) then ctx.seedReachingDef share f bi i reg false st else st) st
  else st

/-- Setup may stand before the branches that lead to a call. -/
def seedArguments (share : Bool) (f : MedFunc) (bi i : Nat) (direct : Bool) (st : DceState) :
    DceState :=
  (ctx.argumentRegisters f direct st).foldl
    (fun st reg => ctx.seedReachingDef share f bi i reg true st) st

def seedPredecessors (setup : Bool) (f : MedFunc) (block : MedBlock) (direct : Bool)
    (st : DceState) : DceState :=
  block.preds.foldl (fun st pred => match f.blockIndex pred with
    | none => st
    | some pi => ctx.seedParamWrites setup (f.blocks.getD pi {}) pi direct
        (f.blocks.getD pi {}).ops.length st) st

def seedCall (share setup : Bool) (f : MedFunc) (block : MedBlock) (bi i : Nat) (op : MedOp)
    (hasCall : Bool) (st : DceState) : DceState :=
  let direct := ctx.isDirectCall op
  let st := ctx.seedImplicitInputs share f block bi i op st
  let st := ctx.seedParamWrites setup block bi direct i st
  let st := if op.opcode = .call ∨ op.opcode = .indirCall ∨ isTail block op then
    ctx.seedArguments share f bi i direct st else st
  if hasCall then st else ctx.seedPredecessors setup f block direct st

/-- The calls of a block, in order. Only the first asks the predecessors for its setup. -/
def seedCalls (share setup : Bool) (f : MedFunc) (block : MedBlock) (bi : Nat) :
    List (MedOp × Nat) → Bool → DceState → DceState
  | [], _, st => st
  | (op, i) :: rest, hasCall, st =>
    if isCall op ∨ isTail block op then
      seedCalls share setup f block bi rest (hasCall || isCall op)
        (ctx.seedCall share setup f block bi i op hasCall st)
    else seedCalls share setup f block bi rest hasCall st

/-- Some direct call has no summary, so that every write of a nonstandard register is kept. -/
def keepsUnresolvedSetup (f : MedFunc) : Bool :=
  ctx.nonstandardArgumentRegisters ≠ [] && f.blocks.any fun b => b.ops.any fun op =>
    ctx.isDirectCall op && (ctx.entryReads op).isNone

def unresolvedSeeds (f : MedFunc) : List MedVar :=
  if ctx.keepsUnresolvedSetup f then
    ((f.blocks.flatMap (·.ops)).map (·.output)).filter fun v =>
      v.kind = .reg ∧ v.size ≠ 0 ∧ v.regOff ∈ ctx.nonstandardArgumentRegisters
  else []

def seedReturns (share : Bool) (f : MedFunc) (slots : List Nat) (bi : Nat) : List (MedOp × Nat) →
    DceState → DceState
  | [], st => st
  | (op, i) :: rest, st =>
    if op.opcode = .ret then
      let st := ctx.seedReachingDef share f bi i ctx.registers.stackPointer false st
      seedReturns share f slots bi rest
        (slots.foldl (fun st slot => ctx.seedReachingDef share f bi i slot false st) st)
    else seedReturns share f slots bi rest st

def seedAllCalls (share setup : Bool) (f : MedFunc) (st : DceState) : DceState :=
  f.blocks.zipIdx.foldl (fun st e => ctx.seedCalls share setup f e.1 e.2 e.1.ops.zipIdx false st) st

def seedAllReturns (share : Bool) (f : MedFunc) (slots : List Nat) (st : DceState) : DceState :=
  f.blocks.zipIdx.foldl (fun st e => ctx.seedReturns share f slots e.2 e.1.ops.zipIdx st) st

def x87ReturnSlots (f : MedFunc) (st : DceState) : List Nat :=
  (f.knownRegisters st.marked).filter ctx.registers.isX87ReturnReg

def seeds (share setup : Bool) (f : MedFunc) : DceState :=
  let st : DceState := { marked := ctx.parentExits ++ f.blocks.flatMap (ctx.returnSeeds f) }
  let st := ctx.seedAllCalls share setup f st
  let st := { st with marked := ctx.unresolvedSeeds f ++ st.marked }
  let st := ctx.seedAllReturns share f (ctx.x87ReturnSlots f st) st
  { st with
      marked := f.allocationSeeds ctx.registers.isStackPointer ++ f.blocks.flatMap ctx.phiSeeds ++
      ((f.callClobbers.filter fun c => 0 < c.preservedPrefixSize).map (·.preservedInput)) ++
        st.marked }

end DceContext

end NeverD.Ir
