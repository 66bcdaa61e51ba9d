import Mathlib.Order.Basic
import NeverD.Lib.APInt

namespace NeverD.Sym
open Lib

inductive SymOp
  | const
  | var
  | add
  | mul
  | and
  | or
  | xor
  | not
  | shl
  | lshr
  | ashr
  | udiv
  | sdiv
  | urem
  | srem
  | rol
  | ror
  | extract
  | concat
  | zext
  | sext
  | ite
  | eq
  | ult
  | ule
  | slt
  | sle
deriving DecidableEq, Repr

/-- The index of a node. The invalid reference is `none` where one is possible. -/
abbrev SymRef := Nat

/-- Operands live in the context's shared operand pool. -/
structure SymNode where
  op : SymOp
  width : Nat
  firstOperand : Nat
  numOperands : Nat
  aux : Nat
deriving DecidableEq, Repr

inductive SymInputKind
  | register
  | temporary
  | absoluteMemory
deriving DecidableEq, Repr

structure SymInputOrigin where
  kind : SymInputKind
  offset : Nat
  bytes : Nat
  epoch : Nat
deriving DecidableEq, Repr

structure SymVarInfo where
  name : String
  width : Nat
  fresh : Bool := false
  inputOrigin : Option SymInputOrigin := none
deriving DecidableEq, Repr

structure InputVariableKey where
  name : String
  width : Nat
  origin : SymInputOrigin
deriving DecidableEq, Repr

/-- Both halves of a 64-bit hash. -/
abbrev InternKey := UInt32 × UInt32

/-- The hash of a block of operands, `llvm::xxh3_64bits` over their indices. -/
class BlockHash where
  xxh3 : List SymRef → UInt64

structure SymContext where
  nodes : List SymNode := []
  operandPool : List SymRef := []
  vars : List SymVarInfo := []
  /-- Literals wider than 64 bits, by the `aux` of their node. -/
  wideConsts : List APInt := []
  internTable : InternKey → Option SymRef := fun _ => none
  /-- The heads of the two keys that the table reserves. -/
  reservedInternHeads : Option SymRef × Option SymRef := (none, none)
  /-- One link per node; `none` ends a collision chain. -/
  internNext : List (Option SymRef) := []
  varByNameAndWidth : String × Nat → Option SymRef := fun _ => none
  inputVarByIdentity : InputVariableKey → Option Nat := fun _ => none
  /-- The sole variable of a name, `some none` once there are several. -/
  varByName : String → Option (Option Nat) := fun _ => none
  wideConstByKey : String → Option Nat := fun _ => none
  freshCounter : Nat := 0

def mixHash (h v : UInt64) : UInt64 :=
  h ^^^ (v + 0x9e3779b97f4a7c15 + (h <<< (6 : UInt64)) + (h >>> (2 : UInt64)))

/-- Equal literals share one pool slot under their width and raw words. -/
def wideConstKey (v : APInt) : String :=
  v.rawData.foldl (fun key w => key ++ ":" ++ toString w) (toString v.width)

def kSymExprBlockHashMinOperands : Nat := 8

namespace SymContext

def node (ctx : SymContext) (r : SymRef) : SymNode := ctx.nodes.getD r ⟨.const, 0, 0, 0, 0⟩

def op (ctx : SymContext) (r : SymRef) : SymOp := (ctx.node r).op

def width (ctx : SymContext) (r : SymRef) : Nat := (ctx.node r).width

def aux (ctx : SymContext) (r : SymRef) : Nat := (ctx.node r).aux

def operands (ctx : SymContext) (r : SymRef) : List SymRef :=
  (ctx.operandPool.drop (ctx.node r).firstOperand).take (ctx.node r).numOperands

def constValue (ctx : SymContext) (r : SymRef) : APInt :=
  if ctx.width r ≤ 64 then APInt.ofNat (ctx.width r) (ctx.aux r)
  else ctx.wideConsts.getD (ctx.aux r) (APInt.ofNat (ctx.width r) 0)

/-- The keys that mark empty and erased buckets of the table. -/
def emptyKey : InternKey := (0xFFFFFFFF, 0xFFFFFFFF)

def tombstoneKey : InternKey := (0xFFFFFFFE, 0xFFFFFFFE)

def internKey (h : UInt64) : InternKey := ((h >>> 32).toUInt32, h.toUInt32)

def internHead (ctx : SymContext) (key : InternKey) : Option SymRef :=
  if key = emptyKey then ctx.reservedInternHeads.1
  else if key = tombstoneKey then ctx.reservedInternHeads.2
  else ctx.internTable key

def setInternHead (ctx : SymContext) (key : InternKey) (r : SymRef) : SymContext :=
  if key = emptyKey then
    { ctx with reservedInternHeads := (some r, ctx.reservedInternHeads.2) }
  else if key = tombstoneKey then
    { ctx with reservedInternHeads := (ctx.reservedInternHeads.1, some r) }
  else { ctx with internTable := Function.update ctx.internTable key (some r) }

def sameIdentity (ctx : SymContext) (r : SymRef) (op : SymOp) (width : Nat) (ops : List SymRef)
    (aux : Nat) : Bool :=
  decide (ctx.op r = op) && decide (ctx.width r = width) && decide (ctx.aux r = aux) &&
    decide ((ctx.node r).numOperands = ops.length) && decide (ctx.operands r = ops)

def findInterned (ctx : SymContext) (op : SymOp) (width : Nat) (ops : List SymRef) (aux : Nat) :
    Nat → Option SymRef → Option SymRef
  | _, none => none
  | 0, some _ => none
  | fuel + 1, some cand =>
    if ctx.sameIdentity cand op width ops aux then some cand
    else ctx.findInterned op width ops aux fuel (ctx.internNext.getD cand none)

def appendInterned (ctx : SymContext) (op : SymOp) (width : Nat) (ops : List SymRef) (aux : Nat)
    (hash : UInt64) : SymRef × SymContext :=
  let n : SymNode := ⟨op, width, ctx.operandPool.length, ops.length, aux⟩
  let index := ctx.nodes.length
  let grown : SymContext := { ctx with
    operandPool := ctx.operandPool ++ ops
    nodes := ctx.nodes ++ [n]
    internNext := ctx.internNext ++ [ctx.internHead (internKey hash)] }
  (index, grown.setInternHead (internKey hash) index)

/-- The chains run downwards, so that they have at most as many links as there
are nodes. -/
def internHashed (ctx : SymContext) (op : SymOp) (width : Nat) (ops : List SymRef) (aux : Nat)
    (hash : UInt64) : SymRef × SymContext :=
  match ctx.findInterned op width ops aux ctx.nodes.length (ctx.internHead (internKey hash)) with
  | some r => (r, ctx)
  | none => ctx.appendInterned op width ops aux hash

variable [BlockHash]

def internHash (op : SymOp) (width : Nat) (ops : List SymRef) (aux : Nat) : UInt64 :=
  let h := mixHash 0x1234567 (UInt64.ofNat op.ctorIdx)
  let h := mixHash h (UInt64.ofNat width)
  let h := mixHash h (UInt64.ofNat aux)
  if kSymExprBlockHashMinOperands ≤ ops.length then mixHash h (BlockHash.xxh3 ops)
  else ops.foldl (fun h r => mixHash h (UInt64.ofNat r)) h

def intern (ctx : SymContext) (op : SymOp) (width : Nat) (ops : List SymRef) (aux : Nat) :
    SymRef × SymContext :=
  ctx.internHashed op width ops aux (internHash op width ops aux)

/-- The slot of a wide literal, which is appended to the pool if it is new. -/
def wideSlot (ctx : SymContext) (v : APInt) : Nat × SymContext :=
  match ctx.wideConstByKey (wideConstKey v) with
  | some slot => (slot, ctx)
  | none =>
    (ctx.wideConsts.length, { ctx with
      wideConsts := ctx.wideConsts ++ [v]
      wideConstByKey :=
        Function.update ctx.wideConstByKey (wideConstKey v) (some ctx.wideConsts.length) })

def mkConst (ctx : SymContext) (v : APInt) : SymRef × SymContext :=
  if v.width ≤ 64 then ctx.intern .const v.width [] v.toNat
  else
    let (slot, ctx) := ctx.wideSlot v
    ctx.intern .const v.width [] slot

/-- `mkConst(Width, Val)`, which takes the machine word modulo the width. -/
def mkConstWord (ctx : SymContext) (width : Nat) (val : UInt64) : SymRef × SymContext :=
  if width ≠ 0 ∧ width ≤ 64 then
    ctx.intern .const width []
      (val &&& ((0xFFFFFFFFFFFFFFFF : UInt64) >>> UInt64.ofNat (64 - width))).toNat
  else ctx.mkConst (APInt.ofNat width val.toNat)

def recordVariableName (ctx : SymContext) (name : String) (id : Nat) : SymContext :=
  match ctx.varByName name with
  | none => { ctx with varByName := Function.update ctx.varByName name (some (some id)) }
  | some old =>
    if old ≠ some id then { ctx with varByName := Function.update ctx.varByName name (some none) }
    else ctx

def pushVar (ctx : SymContext) (v : SymVarInfo) : SymContext :=
  recordVariableName { ctx with vars := ctx.vars ++ [v] } v.name ctx.vars.length

def mkVar (ctx : SymContext) (name : String) (width : Nat) : SymRef × SymContext :=
  match ctx.varByNameAndWidth (name, width) with
  | some r => (r, ctx)
  | none =>
    let id := ctx.vars.length
    let (result, ctx) := (ctx.pushVar { name := name, width := width }).intern .var width [] id
    (result, { ctx with
      varByNameAndWidth := Function.update ctx.varByNameAndWidth (name, width) (some result) })

/-- The variable of a machine input, declared at its first request. -/
def declareInput (ctx : SymContext) (name : String) (width : Nat) (origin : SymInputOrigin) :
    SymRef × SymContext :=
  match ctx.inputVarByIdentity ⟨name, width, origin⟩ with
  | some id => ctx.intern .var width [] id
  | none =>
    let id := ctx.vars.length
    let ctx := ctx.pushVar { name := name, width := width, inputOrigin := some origin }
    intern { ctx with
      inputVarByIdentity := Function.update ctx.inputVarByIdentity ⟨name, width, origin⟩ (some id) }
      .var width [] id

def varRef (ctx : SymContext) (id : Nat) : Option (SymRef × SymContext) :=
  (ctx.vars[id]?).map fun v => ctx.intern .var v.width [] id

/-- The first unused generated name from a counter on, within `fuel` attempts. -/
def freshName (ctx : SymContext) (stem : String) : Nat → Nat → String × Nat
  | 0, counter => (stem ++ toString counter, counter + 1)
  | fuel + 1, counter =>
    if (ctx.varByName (stem ++ toString counter)).isSome then ctx.freshName stem fuel (counter + 1)
    else (stem ++ toString counter, counter + 1)

/-- Every used name belongs to a variable, so that one of as many attempts as
there are variables, and one more, succeeds. -/
def mkFreshVar (ctx : SymContext) (width : Nat) (stem : String) : SymRef × SymContext :=
  let (name, counter) := ctx.freshName stem ctx.vars.length ctx.freshCounter
  let (result, ctx) := { ctx with freshCounter := counter }.mkVar name width
  (result, { ctx with
    vars := ctx.vars.modify (ctx.aux result) fun v => { v with fresh := true } })

end SymContext

end NeverD.Sym
