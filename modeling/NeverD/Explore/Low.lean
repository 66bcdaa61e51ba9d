import Mathlib.Data.Finset.Card
import NeverD.Lib.APInt

namespace NeverD.Explore

open NeverD.Lib (APInt)

inductive InstructionMode
  | default | arm | thumb | mixedArmThumb
  deriving DecidableEq, Repr

inductive LowInstructionTargetMode
  | preserve | arm | thumb | fromTargetBit0
  deriving DecidableEq, Repr

/-- The operations the walk tells apart; every other one is known by its number only. -/
inductive NdOp
  | branch | condBr | indirBr | call | indirCall | ret
  | other (code : Nat)
  deriving DecidableEq, Repr

inductive VnodeSpace
  | const | reg | temp | ram
  deriving DecidableEq, Repr

structure NdVar where
  space : VnodeSpace
  offset : Nat
  size : Nat
  deriving DecidableEq, Repr

structure LowOp where
  opcode : NdOp
  output : NdVar
  inputs : List NdVar
  addr : Nat
  seq : Int
  deriving DecidableEq, Repr

structure LowInstructionBoundary where
  address : Nat
  size : Nat
  firstOp : Nat
  opCount : Nat
  mode : InstructionMode
  controlFlags : Nat
  targetMode : LowInstructionTargetMode
  deriving DecidableEq, Repr

structure LowBlock where
  startAddr : Nat
  endAddr : Nat
  ops : List LowOp
  instructionBoundaries : List LowInstructionBoundary
  succs : List Int
  deriving DecidableEq, Repr

structure LowFunc where
  blocks : List LowBlock
  deriving DecidableEq, Repr

def noReturnFlag : Nat := 1 <<< 5

def instructionGuardFlag : Nat := 1 <<< 8

def hasLowInstructionControlFlag (set flag : Nat) : Bool := set &&& flag != 0

def invalidVA : Nat := 2 ^ 64 - 1

structure LowControlTarget where
  address : Nat
  mode : InstructionMode
  deriving DecidableEq, Repr

def isAArch32 (mode : InstructionMode) : Bool := mode = .arm || mode = .thumb

def alignment : InstructionMode → Nat
  | .arm => 4
  | .thumb => 2
  | _ => 1

/-- Resolve a raw control target. Every error of the source is `none` here, since the walk drops its
text. -/
def canonicalizeLowControlTarget (rawTarget : Nat) (sourceMode : InstructionMode)
    (targetMode : LowInstructionTargetMode) : Option LowControlTarget :=
  if sourceMode = .mixedArmThumb then none
  else if rawTarget = invalidVA then none
  else if isAArch32 sourceMode && decide (2 ^ 32 - 1 < rawTarget) then none
  else
    let aligned (t : LowControlTarget) : Option LowControlTarget :=
      if t.address % alignment t.mode ≠ 0 then none else some t
    match targetMode with
    | .preserve => aligned ⟨rawTarget, sourceMode⟩
    | .arm => if isAArch32 sourceMode then aligned ⟨rawTarget, .arm⟩ else none
    | .thumb => if isAArch32 sourceMode then aligned ⟨rawTarget, .thumb⟩ else none
    | .fromTargetBit0 =>
      if isAArch32 sourceMode then
        aligned ⟨rawTarget - rawTarget % 2, if rawTarget % 2 ≠ 0 then .thumb else .arm⟩
      else none

/-- The last boundary at or before the operation, when its slice lies inside the block and covers
the operation. -/
def instructionBoundaryForOp (block : LowBlock) (opIndex : Nat) : Option LowInstructionBoundary :=
  match (block.instructionBoundaries.takeWhile fun b => !decide (opIndex < b.firstOp)).getLast? with
  | none => none
  | some b =>
    if b.firstOp > block.ops.length ∨ b.opCount > block.ops.length - b.firstOp then none
    else if b.firstOp ≤ opIndex ∧ opIndex < b.firstOp + b.opCount then some b
    else none

def changesControlFlow : NdOp → Bool
  | .branch | .indirBr | .call | .indirCall | .ret => true
  | _ => false

/-- The operation after a predicate guard, when both are parts of one decoded instruction. -/
def predicatedInstructionContinuation (block : LowBlock) (guardIndex : Nat) : Option Nat :=
  match block.ops[guardIndex]? with
  | none => none
  | some op =>
    if op.opcode ≠ .condBr then none
    else if !block.instructionBoundaries.isEmpty then
      match instructionBoundaryForOp block guardIndex with
      | none => none
      | some b =>
        if !isAArch32 b.mode then none
        else if !hasLowInstructionControlFlag b.controlFlags instructionGuardFlag then none
        else if guardIndex + 1 < b.firstOp + b.opCount then some (guardIndex + 1) else none
    else if op.addr = 0 then none
    else
      -- the operations that follow the guard at its own address
      let same := (block.ops.drop (guardIndex + 1)).takeWhile fun o => o.addr = op.addr
      if same.isEmpty then none
      else if same.any fun o => changesControlFlow o.opcode then some (guardIndex + 1) else none

theorem predicatedInstructionContinuation_eq {block : LowBlock} {g k : Nat}
    (h : predicatedInstructionContinuation block g = some k) :
    k = g + 1 ∧ g < block.ops.length := by
  unfold predicatedInstructionContinuation at h
  cases hop : block.ops[g]? with
  | none => simp [hop] at h
  | some op =>
    have hg : g < block.ops.length := (List.getElem?_eq_some_iff.mp hop).1
    refine ⟨?_, hg⟩
    simp only [hop] at h
    split at h
    · cases h
    · split at h
      · split at h
        · cases h
        · split at h
          · cases h
          · split at h
            · cases h
            · split at h
              · exact (Option.some.inj h).symm
              · cases h
      · split at h
        · cases h
        · split at h
          · cases h
          · split at h
            · exact (Option.some.inj h).symm
            · cases h

namespace LowFunc

variable (func : LowFunc)

def block (id : Int) : Option LowBlock :=
  if 0 ≤ id then func.blocks[id.toNat]? else none

def blockIndex (id : Int) : Option Nat :=
  if 0 ≤ id ∧ id.toNat < func.blocks.length then some id.toNat else none

def byAddress (addr : Nat) : Option Int :=
  match (List.range func.blocks.length).filter fun i =>
      (func.blocks[i]?.map LowBlock.startAddr) = some addr with
  | [] => none
  | [i] => some i
  | _ => some (-1)

def containsAddress (addr : Nat) : Bool := (func.byAddress addr).isSome

/-- `BlockIndex::at`, with `-1` for an address the function has no block at. -/
def blockAt (addr : Nat) (destinationMode : Option InstructionMode) : Int :=
  match func.byAddress addr with
  | none => -1
  | some id =>
    if id < 0 then -1
    else
      match destinationMode with
      | none => id
      | some mode =>
        match func.block id with
        | none => id
        | some candidate =>
          match candidate.instructionBoundaries.head? with
          | none => id
          | some entry =>
            if entry.address ≠ candidate.startAddr ∨ entry.mode ≠ mode then -1 else id

def sourceMode (id : Int) : Option InstructionMode :=
  match func.block id with
  | none => none
  | some b => b.instructionBoundaries.head?.map LowInstructionBoundary.mode

def modeMatches (id : Int) : Option InstructionMode → Bool
  | none => true
  | some mode =>
    match func.block id with
    | none => false
    | some b =>
      match b.instructionBoundaries.head? with
      | none => true
      | some entry => entry.mode = mode

def isJoin (id : Int) : Bool :=
  match func.blockIndex id with
  | none => false
  | some i => 1 < (func.blocks.flatMap fun b => b.succs.filter fun s => func.blockIndex s =
      some i).length

lemma blockIndex_eq_some {id : Int} {i : Nat} :
    func.blockIndex id = some i ↔ 0 ≤ id ∧ id.toNat = i ∧ i < func.blocks.length := by
  unfold blockIndex
  split
  next h =>
    constructor
    · intro hi
      have hi' := Option.some.inj hi
      exact ⟨h.1, hi', hi' ▸ h.2⟩
    · rintro ⟨-, hi, -⟩
      rw [hi]
  next h =>
    constructor
    · intro hi
      cases hi
    · rintro ⟨h0, hi, hlt⟩
      exact absurd ⟨h0, by omega⟩ h

lemma block_eq_some {id : Int} {b : LowBlock} (h : func.block id = some b) :
    ∃ i, func.blockIndex id = some i ∧ func.blocks[i]? = some b := by
  unfold block at h
  split at h
  next h0 =>
    have hlt := (List.getElem?_eq_some_iff.mp h).1
    exact ⟨id.toNat, (func.blockIndex_eq_some).2 ⟨h0, rfl, hlt⟩, h⟩
  · cases h

end LowFunc

/-- The first successor that is not the taken one. -/
def fallthroughOf (b : LowBlock) (taken : Int) : Int :=
  (b.succs.find? fun s => s ≠ taken).getD (-1)

lemma fallthroughOf_mem (b : LowBlock) (taken : Int) (h : 0 ≤ fallthroughOf b taken) :
    fallthroughOf b taken ∈ b.succs := by
  unfold fallthroughOf at h ⊢
  cases hf : b.succs.find? fun s => s ≠ taken with
  | none =>
    rw [hf] at h
    exact absurd h (by decide)
  | some s => exact List.mem_of_find?_eq_some hf

structure ControlTargetResolution where
  /-- The constant that takes the target expression's place, where one does. -/
  canonical : Option APInt := none
  blockId : Int := -1
  isConcrete : Bool := false
  invalid : Bool := false
  invalidMetadata : Bool := false
  sourceMode : Option InstructionMode := none
  destinationMode : Option InstructionMode := none

/-- On the constant its target expression folded to: `none` for a symbolic or an absent target
alike. -/
def resolveControlTarget (func : LowFunc) (block : LowBlock) (opIndex : Nat)
    (target : Option APInt) (targetModeOverride : Option LowInstructionTargetMode) :
    ControlTargetResolution :=
  match instructionBoundaryForOp block opIndex with
  | none =>
    if !block.instructionBoundaries.isEmpty then { invalid := true, invalidMetadata := true }
    else
      match target with
      | none => {}
      | some address =>
        if address.toNat < 2 ^ 64 then
          { isConcrete := true, blockId := func.blockAt address.toNat none }
        else {}
  | some boundary =>
    let targetMode := targetModeOverride.getD boundary.targetMode
    match target with
    | some address =>
      if 2 ^ 64 ≤ address.toNat then
        { isConcrete := true, invalid := true, sourceMode := some boundary.mode }
      else
        match canonicalizeLowControlTarget address.toNat boundary.mode targetMode with
        | none =>
          let probe := if targetMode = .fromTargetBit0 then address.toNat % 2 else 0
          match canonicalizeLowControlTarget probe boundary.mode targetMode with
          | some t =>
            { isConcrete := true, invalid := true, sourceMode := some boundary.mode,
              destinationMode := some t.mode }
          | none =>
            { isConcrete := true, invalid := true, invalidMetadata := true,
              sourceMode := some boundary.mode }
        | some canonical =>
          let id := func.blockAt canonical.address (some canonical.mode)
          { canonical := some (APInt.ofNat address.width canonical.address), isConcrete := true,
            sourceMode := some boundary.mode, destinationMode := some canonical.mode,
            blockId := id,
            invalid := decide (id < 0) && func.containsAddress canonical.address }
    | none =>
      match canonicalizeLowControlTarget 0 boundary.mode targetMode with
      | none => { invalid := true, invalidMetadata := true, sourceMode := some boundary.mode }
      | some t =>
        if targetMode ≠ .fromTargetBit0 then
          { sourceMode := some boundary.mode, destinationMode := some t.mode }
        else { sourceMode := some boundary.mode }

end NeverD.Explore
