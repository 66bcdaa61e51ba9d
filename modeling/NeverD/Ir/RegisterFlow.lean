import NeverD.Ir.MedIR
import NeverD.Lib.Worklist

namespace NeverD.Ir
open List

open NeverD.Lib

inductive VnodeSpace
  | reg | temp | const | ram | stack
deriving DecidableEq

structure NdVar where
  space : VnodeSpace := .const
  offset : BitVec 64 := 0
  size : Nat := 0
deriving DecidableEq

def NdVar.isReg (v : NdVar) : Bool := v.space = .reg

def NdVar.isConst (v : NdVar) : Bool := v.space = .const

structure LowOp where
  opcode : NdOp
  output : NdVar := {}
  inputs : List NdVar := []
  addr : BitVec 64

structure LowBlock where
  id : Int
  startAddr : BitVec 64
  ops : List LowOp
  succs : List Int
  exceptionalPreds : List Int := []

structure LowFunc where
  entry : BitVec 64
  blocks : List LowBlock
  moduleAnalysisRoots : List (BitVec 64) := []
  ordinaryModuleAnalysisRoots : List (BitVec 64) := []
  decodedInstructionCount : Nat := 0
  liftedInstructionCount : Nat := 0
  decodeFailureAddresses : List (BitVec 64) := []
  unsupportedInstructionAddresses : List (BitVec 64) := []

def LowFunc.hasCompleteInstructionLift (f : LowFunc) : Bool :=
  f.decodedInstructionCount = f.liftedInstructionCount && f.decodeFailureAddresses.isEmpty &&
    f.unsupportedInstructionAddresses.isEmpty

structure TargetRegInfo where
  writeZeroExtends : BitVec 64 → Nat → Bool
  findWideReg : BitVec 64 → Nat → BitVec 64 × Nat

namespace RegisterFlow

abbrev Bytes := BitVec 64

structure Node where
  pc : BitVec 64
  ops : List LowOp := []
  next : List Nat := []
  previous : List Nat := []
  root : Bool := false
  boundary : Bool := false

instance : Inhabited Node := ⟨{ pc := 0 }⟩

def covers (v r : NdVar) (b : Nat) : Bool :=
  let at_ := r.offset + BitVec.ofNat 64 b
  v.isReg && decide (v.offset ≤ at_) && decide ((at_ - v.offset).toNat < v.size)

def overlap (v r : NdVar) : Bytes :=
  (List.range r.size).foldl (fun mask b => if covers v r b then mask ||| (1 : Bytes) <<< b
    else mask) 0

def isSameRegisterLowSlice (outputOffset : BitVec 64) (outputSize : Nat) (inputOffset : BitVec 64)
    (inputSize : Nat) (sliceOffset : BitVec 64) : Bool :=
  outputOffset = inputOffset && decide (outputSize ≤ inputSize) && sliceOffset = 0

def zeroExtends (tri : TargetRegInfo) (o : LowOp) : Bool :=
  if !o.output.isReg || !tri.writeZeroExtends o.output.offset o.output.size then false
  else
    match o.opcode, o.inputs with
    | .subbytes, [whole, slice] =>
      !(whole.isReg && slice.isConst &&
        isSameRegisterLowSlice o.output.offset o.output.size whole.offset whole.size slice.offset)
    | _, _ => true

def writesOp (tri : TargetRegInfo) (r : NdVar) (o : LowOp) : Bytes :=
  let wide := tri.findWideReg o.output.offset o.output.size
  overlap o.output r ||| if zeroExtends tri o then overlap ⟨.reg, wide.1, wide.2⟩ r else 0

def writes (tri : TargetRegInfo) (r : NdVar) (ops : List LowOp) : Bytes :=
  ops.foldl (fun mask o => mask ||| writesOp tri r o) 0

def countLimit : Nat := 200000

def nodesLimit : Nat := 20000

def blocksLimit : Nat := 4096

def seenLimit : Nat := 50000

def sitesLimit : Nat := 512

structure Graph where
  nodes : List Node := []
  blockNodes : Int → List Nat := fun _ => []
  count : Nat := 0

def isBoundaryOp (o : LowOp) : Bool :=
  o.opcode = .call || o.opcode = .indirCall || o.opcode = .intrinsic

/-- The operation joins the instruction with its address, which is the last of its block or a new
one. -/
def addOp (id : Int) (g : Graph) (o : LowOp) : Except String Graph :=
  if countLimit < g.count + 1 then .error "Register-flow operation budget exceeded"
  else
    let join (n : Node) : Node :=
      { n with ops := n.ops ++ [o], boundary := n.boundary || isBoundaryOp o }
    match (g.blockNodes id).getLast? with
    | some last =>
      if (g.nodes.getD last default).pc = o.addr then
        .ok { g with nodes := g.nodes.modify last join, count := g.count + 1 }
      else if g.nodes.any (·.pc = o.addr) then .error "Ambiguous instruction occurrence"
      else
        .ok { nodes := g.nodes ++ [join { pc := o.addr }]
              blockNodes := fun k => if k = id then g.blockNodes id ++ [g.nodes.length]
              else g.blockNodes k
              count := g.count + 1 }
    | none =>
      if g.nodes.any (·.pc = o.addr) then .error "Ambiguous instruction occurrence"
      else
        .ok { nodes := g.nodes ++ [join { pc := o.addr }]
              blockNodes := fun k => if k = id then g.blockNodes id ++ [g.nodes.length]
              else g.blockNodes k
              count := g.count + 1 }

def addBlock (g : Graph) (b : LowBlock) : Except String Graph := b.ops.foldlM (addOp b.id) g

def blockOf (blocks : List LowBlock) (id : Int) : Option LowBlock :=
  blocks.reverse.find? (·.id = id)

def succsOf (blocks : List LowBlock) (id : Int) : List Int :=
  ((blockOf blocks id).map (·.succs)).getD []

lemma blockOf_mem {blocks : List LowBlock} {id : Int} (h : (blockOf blocks id).isSome) :
    id ∈ blocks.map (·.id) := by
  obtain ⟨b, hb⟩ := Option.isSome_iff_exists.mp h
  have hid : b.id = id := by simpa using find?_some hb
  have hmem : b ∈ blocks := mem_reverse.mp (mem_of_find?_eq_some hb)
  exact mem_map.mpr ⟨b, hmem, hid⟩

/-- The first instructions from a block on, through blocks without instructions. -/
def firstFrom (blocks : List LowBlock) (blockNodes : Int → List Nat) (work seen : List Int) :
    List Nat :=
  match work with
  | [] => []
  | id :: work =>
    if id ∈ seen then firstFrom blocks blockNodes work seen
    else if (blockOf blocks id).isNone then firstFrom blocks blockNodes work (id :: seen)
    else
      match blockNodes id with
      | n :: _ => n :: firstFrom blocks blockNodes work (id :: seen)
      | [] => firstFrom blocks blockNodes ((succsOf blocks id).reverse ++ work) (id :: seen)
termination_by work.length + Worklist.pending (succsOf blocks) (blocks.map (·.id)) seen
decreasing_by
  · rw [length_cons]
    omega
  · have := Worklist.pending_cons_le (succsOf blocks) id (blocks.map (·.id)) seen
    rw [length_cons]
    omega
  · have := Worklist.pending_cons_le (succsOf blocks) id (blocks.map (·.id)) seen
    rw [length_cons]
    omega
  · rename_i hseen hnone
    have hmem : id ∈ blocks.map (·.id) := by
      apply blockOf_mem
      cases h : blockOf blocks id with
      | none => exact absurd (by rw [h]; rfl) hnone
      | some b => rfl
    have hless : (succsOf blocks id).length + Worklist.pending (succsOf blocks) (blocks.map (·.id))
        (id :: seen) ≤
        Worklist.pending (succsOf blocks) (blocks.map (·.id)) seen :=
          Worklist.pending_cons hmem hseen
    rw [length_append, length_reverse, length_cons]
    omega

def first (f : LowFunc) (g : Graph) (id : Int) : List Nat := firstFrom f.blocks g.blockNodes [id] []

def isRootBlock (f : LowFunc) (b : LowBlock) : Bool :=
  b.startAddr = f.entry || f.moduleAnalysisRoots.contains b.startAddr ||
    f.ordinaryModuleAnalysisRoots.contains b.startAddr || !b.exceptionalPreds.isEmpty

/-- The instructions after the last one of a block. -/
def blockExits (f : LowFunc) (g : Graph) (b : LowBlock) : Except String (List Nat) :=
  if b.succs.all fun s => (blockOf f.blocks s).isSome then .ok (b.succs.flatMap (first f g))
  else .error "Incomplete register-flow CFG"

/-- Marks the roots that a block stands for, and links its instructions. -/
def linkBlock (f : LowFunc) (g : Graph) (b : LowBlock) : Except String Graph :=
  let ids := g.blockNodes b.id
  let roots := if isRootBlock f b then first f g b.id else []
  let marked :=
    roots.foldl (fun nodes n => nodes.modify n fun node => { node with root := true }) g.nodes
  let inner := (ids.zip ids.tail).foldl
    (fun nodes p => nodes.modify p.1 fun node => { node with next := node.next ++ [p.2] }) marked
  match ids.getLast? with
  | none => .ok { g with nodes := marked }
  | some last =>
    match blockExits f g b with
    | .error e => .error e
    | .ok targets =>
        .ok { g with
            nodes := inner.modify last fun node => { node with next := node.next ++ targets } }

def addPrevious (nodes : List Node) (i : Nat) : List Node :=
  ((nodes.getD i default).next).foldl
    (fun nodes n => nodes.modify n fun node => { node with previous := node.previous ++ [i] }) nodes

def buildNodes (f : LowFunc) (pc : BitVec 64) : Except String (List Node) :=
  match f.blocks.foldlM addBlock {} with
  | .error e => .error e
  | .ok g =>
    if nodesLimit < g.nodes.length ∨ g.nodes.all (·.pc ≠ pc) then
      .error "Select a retained instruction within the register-flow budget"
    else
      match f.blocks.foldlM (linkBlock f) g with
      | .error e => .error e
      | .ok g => .ok ((List.range g.nodes.length).foldl addPrevious g.nodes)

inductive Kind
  | definitions | uses
deriving DecidableEq

inductive SiteKind
  | definition | use | boundary
deriving DecidableEq

structure Site where
  address : BitVec 64
  kind : SiteKind
  reason : String
deriving DecidableEq

structure Result where
  sites : List Site := []
  unknown : Bool := false
deriving DecidableEq

def Result.site (out : Result) (at_ : BitVec 64) (kind : SiteKind) (why : String) : Result :=
  { sites := if out.sites.any fun s => s.address = at_ && s.kind = kind then out.sites
      else out.sites ++ [⟨at_, kind, why⟩]
    unknown := out.unknown || kind = .boundary }

section

variable (tri : TargetRegInfo) (r : NdVar) (kind : Kind)

def visitOp (pc : BitVec 64) (p : Result × Bytes) (o : LowOp) : Result × Bytes :=
  (if o.inputs.any fun v => overlap v r &&& p.2 ≠ 0 then
      p.1.site pc .use "Reads bytes of the selected register value"
    else p.1,
   p.2 &&& ~~~(writesOp tri r o))

def isEntry (n : Node) : Bool := n.root || n.previous.isEmpty

/-- What an instruction adds to the sites, and the bytes it leaves for the instructions beyond
it. -/
def visit (n : Node) (live : Bytes) (out : Result) : Result × Bytes :=
  if n.boundary then
    (out.site n.pc .boundary "Call or opaque instruction has unproven implicit register effects", 0)
  else
    let p := if kind = .uses then n.ops.foldl (visitOp tri r n.pc) (out, live) else (out, live)
    let written := writes tri r n.ops &&& p.2
    let out := if written ≠ 0 ∧ kind = .definitions then
        p.1.site n.pc .definition "Reaching physical register definition" else p.1
    let live := p.2 &&& ~~~written
    (if live ≠ 0 ∧ kind = .definitions ∧ isEntry n then
        out.site n.pc .boundary "Entry or exceptional register value is unknown" else out, live)

def beyond (n : Node) : List Nat :=
  match kind with
  | .definitions => n.previous
  | .uses => n.next

def walk (nodes : List Node) (work seen : List (Nat × Bytes)) (out : Result) :
    Except String Result :=
  match work with
  | [] => .ok out
  | (i, live) :: work =>
    if _h : seenLimit < seen.length ∨ sitesLimit < out.sites.length then
      .error "Register-flow traversal budget exceeded"
    else if live = 0 ∨ (i, live) ∈ seen then walk nodes work seen out
    else
      let n := nodes.getD i default
      let v := visit tri r kind n live out
      walk nodes (if n.boundary then work else (beyond kind n).reverse.map (·, v.2) ++ work)
        ((i, live) :: seen) v.1
termination_by (seenLimit + 1 - seen.length, work.length)
decreasing_by
  · exact Prod.Lex.right _ (Nat.lt_succ_self _)
  · apply Prod.Lex.left
    rw [length_cons]
    omega

end

def allBytes (r : NdVar) : Bytes :=
  if r.size = 64 then BitVec.allOnes 64 else (1 : BitVec 64) <<< r.size - 1

def queryRegisterFlow (f : LowFunc) (tri : TargetRegInfo) (pc : BitVec 64) (r : NdVar)
    (kind : Kind) : Except String Result :=
  if r.isReg = false ∨ r.size = 0 ∨ 64 < r.size ∨ blocksLimit < f.blocks.length ∨
      (f.decodedInstructionCount ≠ 0 ∧ f.hasCompleteInstructionLift = false) then
    .error "Register flow needs a bounded complete native function and physical register"
  else
    match buildNodes f pc with
    | .error e => .error e
    | .ok nodes =>
      let selected := nodes.getD (nodes.findIdx (·.pc = pc)) default
      match kind with
      | .uses =>
        if selected.boundary then
          .ok (({} : Result).site pc .boundary
            "The selected call or opaque instruction has unproven implicit register effects")
        else walk tri r .uses nodes (selected.next.reverse.map (·, allBytes r)) [] {}
      | .definitions =>
        walk tri r .definitions nodes (selected.previous.reverse.map (·, allBytes r)) []
          (if isEntry selected then
            ({} : Result).site pc .boundary "Entry or exceptional register value is unknown"
              else {})

end RegisterFlow

end NeverD.Ir
