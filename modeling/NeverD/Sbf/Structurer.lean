import NeverD.Sbf.Ir

namespace NeverD.Sbf

inductive StructuredNodeKind
  | block | ifNode | loop
deriving DecidableEq

structure StructuredNode where
  kind : StructuredNodeKind
  block : Nat
  conditionTrueEntersBody : Bool := true
  next : Option Nat := none
  body : Option Nat := none
  alternative : Option Nat := none

structure StructuredControlFlow where
  entry : Option Nat := none
  nodes : List StructuredNode := []
  maximumDepth : Nat := 0

inductive SequenceLink
  | entry
  | next (owner : Nat)
  | body (owner : Nat)
  | alternative (owner : Nat)
deriving DecidableEq

namespace StructuredControlFlow

def read (r : StructuredControlFlow) : SequenceLink → Option Nat
  | .entry => r.entry
  | .next owner => r.nodes[owner]?.bind StructuredNode.next
  | .body owner => r.nodes[owner]?.bind StructuredNode.body
  | .alternative owner => r.nodes[owner]?.bind StructuredNode.alternative

def write (r : StructuredControlFlow) (first : Nat) : SequenceLink → StructuredControlFlow
  | .entry => { r with entry := some first }
  | .next owner =>
      { r with nodes := r.nodes.modify owner fun node => { node with next := some first } }
  | .body owner =>
      { r with nodes := r.nodes.modify owner fun node => { node with body := some first } }
  | .alternative owner =>
      { r with nodes := r.nodes.modify owner fun node => { node with alternative := some first } }

end StructuredControlFlow

def SequenceLink.owner : SequenceLink → Option Nat
  | .entry => none
  | .next owner | .body owner | .alternative owner => some owner

/-- An index that is recorded at most once. -/
inductive Index
  | noIndex
  | ambiguous
  | unique (value : Nat)
deriving DecidableEq

def recordUnique : Index → Nat → Index
  | .noIndex, value => .unique value
  | _, _ => .ambiguous

namespace SBFProgram

def successorIndex (p : SBFProgram) (block : Nat) (kind : EdgeKind) : Index :=
  ((p.low.edges.filter fun e => e.source = block ∧ e.kind = kind).filterMap CFGEdge.target).foldl
    recordUnique .noIndex

def successor (p : SBFProgram) (block : Nat) (kind : EdgeKind) : Option Nat :=
  match p.successorIndex block kind with
  | .unique d => if d < p.low.blocks.length then some d else none
  | _ => none

def regionIndex (p : SBFProgram) (header : Nat) (kind : RegionKind) : Index :=
  (((List.range p.high.regions.length).filter fun i =>
    p.high.regions[i]?.any fun r => r.kind = kind ∧ r.headerBlock = header)).foldl
      recordUnique .noIndex

def region (p : SBFProgram) (header : Nat) (kind : RegionKind) : Option (Nat × Region) :=
  match p.regionIndex header kind with
  | .unique i => p.high.regions[i]?.map fun r => (i, r)
  | _ => none

def parentOk (p : SBFProgram) (r : Region) : Bool :=
  match r.parentRegion with
  | none => true
  | some i => match p.high.regions[i]? with
    | none => false
    | some parent =>
      parent.kind = .loop ∧ parent.functionIndex = r.functionIndex ∧
        parent.loopPreorder < r.loopPreorder ∧
        r.loopSubtreeEnd ≤ parent.loopSubtreeEnd ∧ r.blockCount ≤ parent.blockCount

def regionOk (p : SBFProgram) (r : Region) : Bool :=
  r.headerBlock < p.low.blocks.length && match r.kind with
    | .ifRegion => r.blocks.isEmpty
    | .loop =>
      (r.blocks.isEmpty ∧ (∃ f ∈ r.functionIndex, f < p.high.functions) ∧ r.blockCount ≠ 0 ∧
        r.loopPreorder < r.loopSubtreeEnd ∧ r.latchCount ≠ 0 ∧
        r.latchOffset ≤ p.high.loopLatches.length ∧
        r.latchCount ≤ p.high.loopLatches.length - r.latchOffset ∧
        p.high.loopContains r r.headerBlock) &&
      p.parentOk r && (p.high.latches r).all (p.high.loopContains r)
    | .irreducible => true

/-- The blocks, instructions and regions refer to each other as their indices say. -/
def indicesValid (p : SBFProgram) : Bool :=
  p.med.all (·.slot < p.low.slots) && (p.med.map MedInstruction.slot).Nodup &&
    (p.low.blocks.zipIdx.all fun e => e.1.id = e.2 ∧ e.1.startSlot ≤ e.1.endSlot ∧
      e.1.endSlot ≤ p.low.slots) &&
    p.high.regions.all p.regionOk

end SBFProgram

inductive BuildTask
  | sequence (current : Nat) (stop : Option Nat) (allowed : Option Region) (link : SequenceLink)
    (depth : Nat)
  | validateLoop (loopRegion : Nat)

structure Structurer where
  result : StructuredControlFlow := {}
  emitted : List Nat := []
  directLoopBlocks : Nat → Nat := fun _ => 0
  nestedLoopBlocks : Nat → Nat := fun _ => 0
  validatedLoops : List Nat := []

namespace Structurer

variable (p : SBFProgram)

def markEmitted (s : Structurer) (block : Nat) : Option Structurer :=
  if p.low.blocks.length ≤ block ∨ block ∈ s.emitted then none
  else match p.high.blockLoops[block]?.join with
    | none => some { s with emitted := block :: s.emitted }
    | some loopRegion => match p.high.regions[loopRegion]? with
      | none => none
      | some r =>
        if r.kind ≠ .loop then none
        else some { s with
          emitted := block :: s.emitted
          directLoopBlocks :=
            Function.update s.directLoopBlocks loopRegion (s.directLoopBlocks loopRegion + 1) }

def attach (r : StructuredControlFlow) (link : SequenceLink) (first : Nat) :
    Option StructuredControlFlow :=
  if (link.owner.any fun owner => r.nodes.length ≤ owner) ∨ (r.read link).isSome then none
  else some (r.write first link)

def append (s : Structurer) (link : SequenceLink) (depth : Nat) (tail : Option Nat)
    (node : StructuredNode) : Option (Structurer × Nat) :=
  let index := s.result.nodes.length
  let result := { s.result with
    nodes := s.result.nodes ++ [node]
    maximumDepth := max s.result.maximumDepth depth }
  (attach result (tail.elim link .next) index).map fun result =>
    ({ s with result := result }, index)

def validateLoop (s : Structurer) (loopRegion : Nat) : Option Structurer :=
  match p.high.regions[loopRegion]? with
  | none => none
  | some loop =>
    if loopRegion ∈ s.validatedLoops ∨ loop.kind ≠ .loop ∨ ¬ loop.blocks.isEmpty ∨
        ¬ p.high.loopContains loop loop.headerBlock ∨
        loop.blockCount < s.directLoopBlocks loopRegion ∨
        loop.blockCount - s.directLoopBlocks loopRegion < s.nestedLoopBlocks loopRegion then none
    else
      let emittedCount := s.directLoopBlocks loopRegion + s.nestedLoopBlocks loopRegion
      if emittedCount ≠ loop.blockCount then none
      else
        let s := { s with validatedLoops := loopRegion :: s.validatedLoops }
        match loop.parentRegion with
        | none => some s
        | some parentRegion => match p.high.regions[parentRegion]? with
          | none => none
          | some parent =>
            if parent.blockCount < emittedCount ∨
                parent.blockCount - emittedCount < s.nestedLoopBlocks parentRegion then none
            else some { s with
              nestedLoopBlocks := Function.update s.nestedLoopBlocks parentRegion
                (s.nestedLoopBlocks parentRegion + emittedCount) }

def allows (allowed : Option Region) (block : Nat) : Bool :=
  allowed.all fun loop => p.high.loopContains loop block

def buildLoop (s : Structurer) (header : Nat) (stop : Option Nat) (allowed : Option Region)
    (link : SequenceLink)
    (depth : Nat) (tail : Option Nat) (loopRegion : Nat) (loop : Region) :
    Option (Structurer × List BuildTask) :=
  match p.terminator header, p.successor header .branchTaken, p.successor header .fallthrough with
  | some terminator, some taken, some fallthrough =>
    if ¬ isConditional terminator.op ∨ ¬ p.high.loopContains loop header then none
    else
      let takenInside := p.high.loopContains loop taken
      if takenInside = p.high.loopContains loop fallthrough then none
      else
        let bodyEntry := if takenInside then taken else fallthrough
        let exit := if takenInside then fallthrough else taken
        if ¬ allows p allowed exit then none
        else do
          let s ← s.markEmitted p header
          let (s, index) ← s.append link depth tail
            { kind := .loop, block := header, conditionTrueEntersBody := takenInside }
          some (s, [.sequence bodyEntry (some header) (some loop) (.body index) (depth + 1),
            .validateLoop loopRegion, .sequence exit stop allowed (.next index) depth])
  | _, _, _ => none

def buildIf (s : Structurer) (header : Nat) (stop : Option Nat) (allowed : Option Region)
    (link : SequenceLink)
    (depth : Nat) (tail : Option Nat) (region : Region) : Option (Structurer × List BuildTask) :=
  match p.terminator header, p.successor header .branchTaken, p.successor header .fallthrough with
  | some terminator, some taken, some fallthrough =>
    if ¬ region.blocks.isEmpty ∨ ¬ isConditional terminator.op then none
    else if region.exitBlock.any fun exit => exit ≠ header ∧ ¬ allows p allowed exit then none
    else do
      let s ← s.markEmitted p header
      let (s, index) ← s.append link depth tail { kind := .ifNode, block := header }
      some (s, [.sequence taken region.exitBlock allowed (.body index) (depth + 1),
          .sequence fallthrough region.exitBlock allowed (.alternative index) (depth + 1)] ++
        region.exitBlock.toList.map fun exit => .sequence exit stop allowed (.next index) depth)
  | _, _, _ => none

def emitBlock (s : Structurer) (block : Nat) (link : SequenceLink) (depth : Nat)
    (tail : Option Nat) : Option (Structurer × Nat) := do
  let s ← s.markEmitted p block
  s.append link depth tail { kind := .block, block := block }

/-- Follow the blocks of one sequence. There is no answer when the fuel is used up, and none inside
when the sequence is refused. -/
def buildSequence (stop : Option Nat) (allowed : Option Region) (link : SequenceLink)
    (depth : Nat) :
    Nat → Nat → Option Nat → Structurer → Option (Option (Structurer × List BuildTask))
  | 0, _, _, _ => none
  | fuel + 1, current, tail, s =>
    if stop = some current then some (some (s, []))
    else match p.low.blocks[current]? with
      | none => some none
      | some block =>
        if ¬ block.reachable ∨ ¬ allows p allowed current then some none
        else match p.region current .loop with
          | some (loopRegion, loop) =>
              some (buildLoop p s current stop allowed link depth tail loopRegion loop)
          | none => match p.terminator current with
            | none => some none
            | some terminator =>
              if isConditional terminator.op then
                match p.region current .ifRegion with
                | none => some none
                | some (_, region) =>
                    some (buildIf p s current stop allowed link depth tail region)
              else match s.emitBlock p current link depth tail with
                | none => some none
                | some (s, index) =>
                  if terminator.op = .exit then
                    some (if block.successors.isEmpty then some (s, []) else none)
                  else match block.successors with
                    | [d] => buildSequence stop allowed link depth fuel d (some index) s
                    | _ => some none

/-- Work off the stack, with the same two kinds of failure. -/
def run : Nat → Structurer → List BuildTask → Option (Option Structurer)
  | _, s, [] => some (some s)
  | 0, _, _ :: _ => none
  | fuel + 1, s, .validateLoop loopRegion :: work => match s.validateLoop p loopRegion with
    | none => some none
    | some s => run fuel s work
  | fuel + 1, s, .sequence current stop allowed link depth :: work =>
    match buildSequence p stop allowed link depth (p.low.blocks.length + 1) current none s with
    | none => none
    | some none => some none
    | some (some e) => run fuel e.1 (e.2 ++ work)

end Structurer

/-- Calls into the program, indirect calls and invalid instructions need a dispatcher. -/
def MedInstruction.dispatched (i : MedInstruction) : Bool :=
  i.op = .invalid ∨ i.op = .callX ∨ (i.op = .call ∧ i.call ≠ .syscall)

def buildStructuredControlFlow (p : SBFProgram) : Option StructuredControlFlow :=
  if ¬ p.indicesValid ∨ p.low.blocks.isEmpty then none
  else if p.med.any MedInstruction.dispatched then none
  else match p.entryBlock with
    | none => none
    | some entry =>
      match Structurer.run p (3 * p.low.blocks.length + 2) {}
        [.sequence entry.id none none .entry 0] with
      | some (some s) =>
        if p.low.blocks.any fun b => b.reachable ∧ b.id ∉ s.emitted then none
        else if (List.range p.high.regions.length).any fun i =>
            (p.high.regions[i]?.any fun r => r.kind = .loop) ∧ i ∉ s.validatedLoops then none
        else some s.result
      | _ => none

end NeverD.Sbf
