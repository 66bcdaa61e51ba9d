import NeverD.Ir.MedIR

namespace NeverD.Ir

inductive Knowledge
  | pending | constant | varying
deriving DecidableEq

structure Known where
  state : Knowledge
  value : MedVar

structure ConstantNode where
  output : MedVar
  inputs : List MedVar := []
  /-- What is known before any input is looked at. -/
  start : Knowledge := .pending
  view : NdOp := .copy
  viewOffset : BitVec 64 := 0

def viewOfConstant (view : NdOp) (viewOffset : BitVec 64) (input : MedVar) (size : Nat) :
    Option MedVar :=
  if input.provenance ≠ .unknown ∧ input.provenance ≠ .scalar then none
  else
    let inBits := input.size * 8
    let bits := if inBits < 64 then input.constVal &&& ((1 : BitVec 64) <<< inBits - 1)
      else input.constVal
    let bits :=
      if view = .subbytes then if viewOffset.toNat < 8 then bits >>> (viewOffset.toNat * 8) else 0
      else if view = .intSext ∧ inBits ≠ 0 ∧ inBits < 64 ∧ bits.getLsbD (inBits - 1) then
        bits ||| (BitVec.allOnes 64 <<< inBits)
      else bits
    let bits := if size < 8 then bits &&& ((1 : BitVec 64) <<< (size * 8) - 1) else bits
    some (.makeConst bits size input.provenance)

/-- A literal target of an indirect call stands for the storage of a pointer, so none is put
there. -/
def canPropagateConstantToOperand (opcode : NdOp) (index : Nat) : Bool :=
  opcode ≠ .indirCall ∨ index ≠ 0

def isNumericConstantOperand (opcode : NdOp) (index : Nat) : Bool :=
  match opcode with
  | .intAdd | .intSub | .intAnd | .intOr | .intXor | .intLeft | .intRight | .intAshr | .intMult
  | .intDiv | .intSdiv | .intRem | .intSrem | .intEqual | .intNotequal | .intLess | .intSless
  | .intLessequal | .intSlessequal | .intZext | .intSext | .intNegate | .intNot | .intCarry
  | .intSovf | .intSbor | .boolAnd | .boolOr | .boolXor | .boolNot
  | .floatAdd | .floatSub | .floatMult | .floatDiv | .floatNeg | .floatAbs | .floatSqrt
  | .floatEqual | .floatNotequal | .floatLess | .floatInt2float | .floatFloat2int | .floatTrunc
  | .floatCeil | .floatFloor | .intNeg2 | .popcount | .floatLessequal | .floatIsnan
  | .floatFloat2float | .floatRound | .lzcount | .floatUint2float | .floatFloat2uint | .floatFma
  | .floatRoundeven | .floatMin | .floatMax | .floatMinnum | .floatMaxnum => true
  | .subbytes => index = 1
  | _ => false

namespace MedOp

/-- Nothing but the opcode says what the operation does. -/
def isPlain (op : MedOp) : Bool :=
  op.registrationRoot = .none ∧ op.dead = false ∧ op.sourceCallHint = false ∧
    op.memoryOrdering = .none ∧ op.memoryAddressSpace = .default

def input (op : MedOp) (i : Nat) : MedVar := op.inputs.getD i {}

def isCopy (op : MedOp) : Bool := op.isPlain ∧ op.opcode = .copy ∧ op.numInputs = 1

def isExtend (op : MedOp) : Bool :=
  op.isPlain ∧ (op.opcode = .intZext ∨ op.opcode = .intSext) ∧ op.numInputs = 1 ∧
    (op.input 0).size ≠ 0 ∧ (op.input 0).size < op.output.size ∧ op.output.size ≤ 8

def isSlice (op : MedOp) : Bool :=
  op.isPlain ∧ op.opcode = .subbytes ∧ op.numInputs = 2 ∧ (op.input 1).isConst ∧
    (op.input 0).size ≤ 8 ∧
    ((op.input 1).constVal + BitVec.ofNat 64 op.output.size).toNat ≤ (op.input 0).size

def keepsViews (op : MedOp) : Bool :=
  op.opcode = .call ∨ op.opcode = .indirCall ∨ op.opcode = .copy ∨ op.opcode = .intZext ∨
    op.opcode = .intSext ∨
    op.opcode = .subbytes ∨ op.opcode = .intLeft ∨ op.opcode = .intRight ∨ op.opcode = .intAshr ∨
      op.opcode = .intMult

end MedOp

/-- The output is a variable that a definition can be found for. -/
def MedVar.isDefined (v : MedVar) : Bool := v.isConst = false ∧ 0 ≤ v.id ∧ v.size ≠ 0

structure Site where
  output : MedVar
  inputs : List MedVar
  valid : Bool
  view : NdOp := .copy
  viewOffset : BitVec 64 := 0

def MedFunc.incoming (f : MedFunc) (id : Int) : List Int :=
  ((f.blocks.filter fun b => id ∈ b.succs).map (·.id)).insertionSort (· ≤ ·)

def hasCompleteOrdinaryPredecessors (block : MedBlock) (incoming : List Int) : Bool :=
  block.preds ≠ [] ∧ block.preds.insertionSort (· ≤ ·) = incoming

def hasCompleteOrdinaryPhiArguments (phi : PhiNode) (incoming : List Int) : Bool :=
  phi.exceptionalEntry = none ∧ phi.output.size ≠ 0 ∧
    (∀ arg ∈ phi.args, arg.2.size = phi.output.size) ∧
    (phi.args.map (·.1)).insertionSort (· ≤ ·) = incoming

def phiSite (f : MedFunc) (block : MedBlock) (phi : PhiNode) : Site where
  output := phi.output
  inputs := phi.args.map (·.2)
  valid := hasCompleteOrdinaryPredecessors block (f.incoming block.id) ∧
    hasCompleteOrdinaryPhiArguments phi (f.incoming block.id)

def opSite (op : MedOp) : Site where
  output := op.output
  inputs := if op.isCopy ∨ op.isExtend ∨ op.isSlice then [op.input 0] else []
  valid := op.isCopy ∨ op.isExtend ∨ op.isSlice
  view := if op.isExtend ∨ op.isSlice then op.opcode else .copy
  viewOffset := if op.isSlice then (op.input 1).constVal else 0

def MedFunc.sites (f : MedFunc) : List Site :=
  f.blocks.flatMap fun b => b.phis.map (phiSite f b) ++ b.ops.map opSite

/-- A second definition of a variable makes it opaque. -/
def addSite (nodes : List ConstantNode) (site : Site) : List ConstantNode :=
  if site.output.isDefined then
    match nodes.findIdx? fun n => n.output.key = site.output.key with
    | none =>
      nodes ++ [{ output := site.output
                  inputs := site.inputs
                  start := if site.valid = false ∨ 8 < site.output.size ∨
                    site.inputs = [] then .varying else .pending
                  view := site.view
                  viewOffset := site.viewOffset }]
    | some i =>
      nodes.modify i fun n =>
        { n with
          inputs := []
          start := .varying
          view := if site.view = .copy then n.view else site.view
          viewOffset := if site.view = .copy then n.viewOffset else site.viewOffset }
  else if site.view ≠ .copy ∧ site.output.isConst = false ∧ 0 ≤ site.output.id then
    -- The view is noted even where the empty output adds no definition.
    match nodes.findIdx? fun n => n.output.key = site.output.key with
    | none => nodes
    | some i => nodes.modify i fun n => { n with view := site.view, viewOffset := site.viewOffset }
  else nodes

namespace MedFunc

def nodes (f : MedFunc) : List ConstantNode := f.sites.foldl addSite []

end MedFunc

section

variable (nodes : List ConstantNode)

def node (n : Nat) : ConstantNode := nodes.getD n { output := {} }

def definition (v : MedVar) : Option Nat := nodes.findIdx? fun n => n.output.key = v.key

def ordered : List Nat :=
  (List.range nodes.length).insertionSort fun a b =>
    (node nodes a).output.key.le (node nodes b).output.key

def users (n : Nat) : List Nat :=
  (ordered nodes).flatMap fun m =>
    ((node nodes m).inputs.filter fun v => v.isConst = false ∧
      definition nodes v = some n).map fun _ => m

structure Propagation where
  states : List Known
  work : List Nat
  budget : Nat

def known (states : List Known) (n : Nat) : Known := states.getD n ⟨.varying, {}⟩

def seen (states : List Known) (v : MedVar) : Known :=
  if v.isConst then ⟨.constant, v⟩
  else
    match definition nodes v with
    | none => ⟨.varying, {}⟩
    | some n => if (node nodes n).output.size ≠ v.size then ⟨.varying, {}⟩ else known states n

def viewed (n : ConstantNode) (constant : MedVar) : Option MedVar :=
  if n.view = .copy then some constant
    else viewOfConstant n.view n.viewOffset constant n.output.size

def meetInputs (states : List Known) (n : ConstantNode) : List MedVar → Known → Nat × Known
  | [], found => (0, found)
  | v :: rest, found =>
    if n.view = .copy ∧ v.size ≠ n.output.size then (1, { found with state := .varying })
    else
      match (seen nodes states v).state with
      | .varying => (1, { found with state := .varying })
      | .pending =>
        let met := meetInputs states n rest found
        (met.1 + 1, met.2)
      | .constant =>
        match viewed n (seen nodes states v).value with
        | none => (1, { found with state := .varying })
        | some value =>
          if found.state = .constant ∧ found.value.same value = false then
            (1, { found with state := .varying })
          else
            let met := meetInputs states n rest ⟨.constant, value⟩
            (met.1 + 1, met.2)

def spend (budget cost : Nat) : Option Nat := if cost ≤ budget then some (budget - cost) else none

def enqueue (work : List Nat) (n : Nat) : List Nat := if n ∈ work then work else work ++ [n]

def meetNode (states : List Known) (n : Nat) : Nat × Known :=
  let met := meetInputs nodes states (node nodes n) (node nodes n).inputs ⟨.pending, {}⟩
  if (known states n).state = .constant ∧ met.2.state = .constant ∧
    (known states n).value.same met.2.value = false then
    (met.1, { met.2 with state := .varying })
  else met

def visitNode (p : Propagation) (n : Nat) (rest : List Nat) : Option Propagation := do
  let budget ← spend p.budget 1
  if (known p.states n).state = .varying then some { p with work := rest, budget := budget }
  else
    let met := meetNode nodes p.states n
    let budget ← spend budget met.1
    if met.2.state = (known p.states n).state then some { p with work := rest, budget := budget }
    else
      some { states := p.states.set n met.2, work := (users nodes n).foldl enqueue rest,
             budget := budget }

def drain : Nat → Propagation → Option Propagation
  | 0, p => if p.work = [] then some p else none
  | fuel + 1, p =>
    match p.work with
    | [] => some p
    | n :: rest => (visitNode nodes p n rest).bind (drain fuel)

/-- A node that no constant ever reached is opaque. -/
def closePending (p : Propagation) (n : Nat) : Propagation :=
  if (known p.states n).state = .pending then
    { p with
      states := p.states.set n ⟨.varying, (known p.states n).value⟩
      work := (users nodes n).foldl enqueue p.work }
  else p

def markViews : Nat → List Nat → List Nat → Nat → Option (List Nat)
  | 0, marked, work, _ => if work = [] then some marked else none
  | _ + 1, marked, [], _ => some marked
  | fuel + 1, marked, n :: rest, budget => do
    let budget ← spend budget (1 + (users nodes n).length)
    let fresh := (users nodes n).foldl (fun fresh m => if m ∈ marked ∨ m ∈ fresh then fresh
      else fresh ++ [m]) []
    markViews fuel (marked ++ fresh) (rest ++ fresh) budget

def startStates : List Known := nodes.map fun n => ⟨n.start, {}⟩

def solve (budget : Nat) : Option Propagation := do
  let budget ← spend budget ((nodes.map fun n => n.inputs.length).sum)
  let first ← drain nodes budget { states := startStates nodes, work := ordered nodes,
                                   budget := budget }
  let closed := (ordered nodes).foldl (closePending nodes) first
  drain nodes closed.budget closed

end

def maxDefinitions : Nat := 65536

def propagateInvariantConstantsBudget : Nat := 1000000

structure Solution where
  nodes : List ConstantNode
  states : List Known
  fromView : List Nat

namespace MedFunc

def definitionCount (f : MedFunc) : Nat := (f.blocks.map fun b => b.ops.length + b.phis.length).sum

/-- The blocks have names of their own and ordinary edges to blocks only. -/
def hasOrdinaryEdges (f : MedFunc) : Bool :=
  (∀ b ∈ f.blocks, 0 ≤ b.id) ∧ (f.blocks.map (·.id)).Nodup ∧
    (∀ b ∈ f.blocks, b.exceptionalPreds = [] ∧ b.exceptionalSuccs = []) ∧
    ∀ b ∈ f.blocks, ∀ s ∈ b.succs, s ∈ f.blocks.map (·.id)

def isAnalyzable (f : MedFunc) : Bool :=
  f.blocks.length ≤ maxDefinitions ∧ f.definitionCount ≤ maxDefinitions ∧ f.hasOrdinaryEdges ∧
    ∀ b ∈ f.blocks, ∀ op ∈ b.ops, op.numInputs ≤ op.inputs.length

def scanCost (f : MedFunc) : Nat :=
  (f.blocks.map fun b => b.succs.length).sum +
    (f.blocks.map fun b => (b.phis.map fun phi => phi.args.length).sum).sum

def analyze (f : MedFunc) (budget : Nat) : Option Solution :=
  if f.isAnalyzable then do
    let budget ← spend budget f.scanCost
    let p ← solve f.nodes budget
    let viewNodes := (ordered f.nodes).filter fun n => (node f.nodes n).view ≠ .copy
    let fromView ← markViews f.nodes p.budget viewNodes viewNodes p.budget
    some { nodes := f.nodes, states := p.states, fromView := fromView }
  else none

end MedFunc

namespace Solution

def replacement (s : Solution) (v : MedVar) (numeric keepsViews : Bool) : Option MedVar :=
  if v.isConst then none
  else
    match definition s.nodes v with
    | none => none
    | some n =>
      if (known s.states n).state ≠ .constant ∨ (node s.nodes n).output.size ≠ v.size ∨
        (keepsViews ∧ n ∈ s.fromView) then
        none
      else
        let value := (known s.states n).value
        some (if numeric ∧ value.provenance = .unknown then { value with provenance := .scalar }
          else value)

def phiReplacements (s : Solution) (phi : PhiNode) : List (Option MedVar) :=
  phi.args.map fun arg => s.replacement arg.2 false false

def opReplacements (s : Solution) (op : MedOp) : List (Option MedVar) :=
  op.inputs.mapIdx fun i v =>
    if i < op.numInputs ∧ canPropagateConstantToOperand op.opcode i then
      s.replacement v (isNumericConstantOperand op.opcode i) op.keepsViews
    else none

def rewritePhi (s : Solution) (phi : PhiNode) : PhiNode :=
  { phi with
      args := List.zipWith (fun arg r => (arg.1, r.getD arg.2)) phi.args (s.phiReplacements phi) }

def rewriteOp (s : Solution) (op : MedOp) : MedOp :=
  { op with inputs := List.zipWith (fun v r => r.getD v) op.inputs (s.opReplacements op) }

def rewriteBlock (s : Solution) (block : MedBlock) : MedBlock :=
  { block with phis := block.phis.map s.rewritePhi, ops := block.ops.map s.rewriteOp }

def changes (s : Solution) (block : MedBlock) : Bool :=
  block.phis.any (fun phi => (s.phiReplacements phi).any (·.isSome)) ||
    block.ops.any fun op => (s.opReplacements op).any (·.isSome)

end Solution

def propagateInvariantConstants (f : MedFunc) : MedFunc × Bool :=
  match f.analyze propagateInvariantConstantsBudget with
  | none => (f, false)
  | some s => ({ f with blocks := f.blocks.map s.rewriteBlock }, f.blocks.any s.changes)

end NeverD.Ir
