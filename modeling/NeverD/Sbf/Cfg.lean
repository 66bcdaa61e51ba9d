import NeverD.Lib.Cuts
import NeverD.Lib.Worklist
import NeverD.Sbf.Slots

namespace NeverD.Sbf

open NeverD.Lib

namespace LowInstruction

def nextInstructionSlot (i : LowInstruction) : Nat := i.slot + i.slotWidth

/-- The instruction goes on elsewhere than with the slot behind it, or may do so. -/
def transfersControl (i : LowInstruction) : Bool :=
  i.info.any fun info => info.isBranch || info.isCall || info.isExit

end LowInstruction

namespace Listing

def size (low : Listing) : Nat := low.instructions.length

def continuationAt (low : Listing) (slot : Nat) : Bool :=
  (low.instructions[slot]?).any (·.isContinuation)

def within (low : Listing) (slot : Nat) : List Nat := if slot < low.size then [slot] else []

def callLeaders (low : Listing) (i : LowInstruction) : List Nat :=
  match i.callTarget with
  | none => []
  | some target =>
    low.within target ++ if low.continuationAt target then low.within (target + 1) else []

def instructionLeaders (low : Listing) (i : LowInstruction) : List Nat :=
  if i.isContinuation then []
  else if i.isInvalid then low.within i.nextInstructionSlot
  else if i.info.isNone then []
  else (i.branchTarget.elim [] low.within) ++ low.callLeaders i ++
    if i.transfersControl then low.within i.nextInstructionSlot else []

/-- The continuation that a call of the instruction lands on. -/
def instructionContinuationLeaders (low : Listing) (i : LowInstruction) : List Nat :=
  if i.isContinuation ∨ i.isInvalid ∨ i.info.isNone then []
  else i.callTarget.elim [] fun target => if low.continuationAt target then [target] else []

def entryLeaders (low : Listing) : List Nat :=
  low.within low.entrySlot ++ if low.continuationAt low.entrySlot then
    low.within (low.entrySlot + 1) else []

def leaders (low : Listing) (functionEntrySlots : List Bool) : List Nat :=
  [0] ++ low.entryLeaders ++
    (List.range functionEntrySlots.length).filter (fun slot => functionEntrySlots[slot]? =
      some true ∧ slot < low.size) ++
    low.instructions.flatMap low.instructionLeaders

def continuationLeaders (low : Listing) : List Nat :=
  (if low.continuationAt low.entrySlot then [low.entrySlot] else []) ++
    low.instructions.flatMap low.instructionContinuationLeaders

def ordered (low : Listing) (functionEntrySlots : List Bool) : List Nat :=
  (List.range low.size).filter fun slot =>
    slot ∈ low.leaders functionEntrySlots ∧
      (¬low.continuationAt slot ∨ slot ∈ low.continuationLeaders)

def cutBlocks (low : Listing) (functionEntrySlots : List Bool) : List BasicBlock :=
  let ordered := low.ordered functionEntrySlots
  ordered.mapIdx fun k start =>
    { id := k, startSlot := start, endSlot := Cuts.upper ordered low.size k, successors := [],
      reachable := false }

def slotToBlock (blocks : List BasicBlock) (slot : Nat) : Option Nat :=
  (blocks.find? fun b => b.startSlot ≤ slot ∧ slot < b.endSlot).map (·.id)

def lastInstruction (low : Listing) (b : BasicBlock) : Option LowInstruction :=
  ((List.range' b.startSlot (b.endSlot - b.startSlot)).filterMap fun slot =>
    (low.instructions[slot]?).filter fun i => ¬i.isContinuation).getLast?

def blockEdges (low : Listing) (blocks : List BasicBlock) (b : BasicBlock) :
    List (Option Nat × EdgeKind) :=
  match low.lastInstruction b with
  | none => [(none, .fault)]
  | some last =>
    if last.isInvalid then [(none, .invalid)]
    else match last.info with
      | none => [(none, .invalid)]
      | some info =>
        let fallthrough :=
          ((slotToBlock blocks last.nextInstructionSlot).map fun d =>
            (some d, EdgeKind.fallthrough)).toList
        if info.op = .jump then [(last.branchTarget.bind (slotToBlock blocks), .branch)]
        else if info.isConditionalBranch then
          (last.branchTarget.bind (slotToBlock blocks), .branchTaken) :: fallthrough
        else if info.isCall then
          if last.call = .unsupported then [(none, .fault)]
          else if last.call = .internal then (last.callTarget.bind (slotToBlock blocks), .call) ::
            fallthrough
          else if last.call = .indirect then (none, .indirectCall) :: fallthrough
          else fallthrough
        else if info.isExit then [(none, .ret)]
        else fallthrough

/-- A target is a successor once, however many edges lead to it. -/
def addSuccessor (successors : List Nat) : Option Nat → List Nat
  | none => successors
  | some d => if d ∈ successors then successors else successors ++ [d]

def linkedBlocks (low : Listing) (functionEntrySlots : List Bool) : List BasicBlock :=
  let blocks := low.cutBlocks functionEntrySlots
  blocks.map fun b =>
    { b with
      successors := (low.blockEdges blocks b).foldl
        (fun successors e => addSuccessor successors e.1) [] }

def successorsOf (blocks : List BasicBlock) (id : Nat) : List Nat :=
  (blocks[id]?).elim [] (·.successors)

def reachableBlocks (low : Listing) (functionEntrySlots : List Bool) : List Nat :=
  let blocks := low.linkedBlocks functionEntrySlots
  let successors := successorsOf blocks
  Worklist.mark successors (1 + Worklist.pending successors (List.range blocks.length) [])
    (slotToBlock blocks low.entrySlot).toList []

def buildCFG (low : Listing) (functionEntrySlots : List Bool) : LowIR where
  entrySlot := low.entrySlot
  slots := low.size
  blocks :=
    if low.size = 0 then []
    else (low.linkedBlocks functionEntrySlots).map fun b =>
      { b with reachable := b.id ∈ low.reachableBlocks functionEntrySlots }
  edges :=
    if low.size = 0 then []
    else
      let blocks := low.cutBlocks functionEntrySlots
      blocks.flatMap fun b => (low.blockEdges blocks b).map fun e => ⟨b.id, e.1, e.2⟩

end Listing

end NeverD.Sbf
