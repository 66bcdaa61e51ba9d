import NeverD.Sym.Context

namespace NeverD.Sym
open Lib

def foldArgs (f : APInt → APInt → APInt) (identity : APInt) : List APInt → APInt
  | [] => identity
  | a :: args => args.foldl f a

def mulArgs (product : APInt) : List APInt → APInt
  | [] => product
  | a :: args => if product.isZero then product else mulArgs (product.mul a) args

def concatArgs (w : Nat) (acc : APInt) (shift : Nat) : List APInt → APInt
  | [] => acc
  | a :: args =>
    concatArgs w (acc.or ((a.zextOrTrunc w).shl (shift - a.width))) (shift - a.width) args

namespace SymContext

def evalNodeAP (ctx : SymContext) (r : SymRef) (args : List APInt) : APInt :=
  let w := ctx.width r
  let arg := fun i => args.getD i (APInt.zero w)
  match ctx.op r with
  | .const => ctx.constValue r
  | .var => APInt.zero w
  | .add => foldArgs APInt.add (APInt.zero w) args
  | .mul =>
    match args with
    | [] => APInt.ofNat w 1
    | a :: args => mulArgs a args
  | .and => foldArgs APInt.and (APInt.allOnes w) args
  | .or => foldArgs APInt.or (APInt.zero w) args
  | .xor => foldArgs APInt.xor (APInt.zero w) args
  | .not => (arg 0).not
  | .shl => if w ≤ (arg 1).toNat then APInt.zero w else (arg 0).shl (arg 1).toNat
  | .lshr => if w ≤ (arg 1).toNat then APInt.zero w else (arg 0).lshr (arg 1).toNat
  | .ashr =>
    if w ≤ (arg 1).toNat then (if (arg 0).isNegative then APInt.allOnes w else APInt.zero w)
    else (arg 0).ashr (arg 1).toNat
  | .udiv => if (arg 1).isZero then APInt.allOnes w else (arg 0).udiv (arg 1)
  | .sdiv =>
    if (arg 1).isZero then (if (arg 0).isNegative then APInt.ofNat w 1 else APInt.allOnes w)
    else if (arg 0).isMinSignedValue && (arg 1).isAllOnes then arg 0
    else (arg 0).sdiv (arg 1)
  | .urem => if (arg 1).isZero then arg 0 else (arg 0).urem (arg 1)
  | .srem =>
    if (arg 1).isZero then arg 0
    else if (arg 0).isMinSignedValue && (arg 1).isAllOnes then APInt.zero w
    else (arg 0).srem (arg 1)
  | .rol => (arg 0).rotl ((arg 1).toNat % w)
  | .ror => (arg 0).rotr ((arg 1).toNat % w)
  | .extract => (arg 0).extractBits w (ctx.aux r)
  | .concat => concatArgs w (APInt.zero w) w args
  | .zext => (arg 0).zextOrTrunc w
  | .sext => (arg 0).sext w
  | .ite => if (arg 0).isZero then arg 2 else arg 1
  | .eq => APInt.ofBool (decide (arg 0 = arg 1))
  | .ult => APInt.ofBool ((arg 0).ult (arg 1))
  | .ule => APInt.ofBool ((arg 0).ule (arg 1))
  | .slt => APInt.ofBool ((arg 0).slt (arg 1))
  | .sle => APInt.ofBool ((arg 0).sle (arg 1))

/-- The value supplied for a variable, at the width of its node; zero if there is none. -/
def varValue (vals : List APInt) (id w : Nat) : APInt :=
  match vals[id]? with
  | none => APInt.zero w
  | some v => if v.width = w then v else v.zextOrTrunc w

end SymContext

/-- A plan under construction: `slot` marks a scheduled node by zero and a
completed one by its slot plus one. -/
structure PlanState where
  slot : SymRef → Option Nat := fun _ => none
  work : List (SymRef × Bool)
  postOrder : List SymRef := []

/-- A node with the slots of its operands; its own slot is its position. -/
structure PlanStep where
  node : SymRef
  args : List Nat
deriving DecidableEq, Repr

structure SymEvalPlan where
  steps : List PlanStep
  rootSlot : Nat

namespace SymEvalPlan

def visit (ctx : SymContext) (st : PlanState) : PlanState :=
  match st.work with
  | [] => st
  | (cur, true) :: work =>
    if st.slot cur = some 0 then
      { slot := Function.update st.slot cur (some (st.postOrder.length + 1))
        work := work
        postOrder := st.postOrder ++ [cur] }
    else { st with work := work }
  | (cur, false) :: work =>
    if (st.slot cur).isSome then { st with work := work }
    else { st with
      slot := Function.update st.slot cur (some 0)
      work := (ctx.operands cur).reverse.map (fun c => (c, false)) ++ (cur, true) :: work }

def traverse (ctx : SymContext) : Nat → PlanState → PlanState
  | 0, st => st
  | fuel + 1, st => if st.work.isEmpty then st else traverse ctx fuel (visit ctx st)

/-- Every node is scheduled once and pushes itself and its operands. -/
def traversalBound (ctx : SymContext) : Nat :=
  1 + ((List.range ctx.nodes.length).map fun r => 1 + (ctx.node r).numOperands).sum

def build (ctx : SymContext) (root : SymRef) : SymEvalPlan :=
  let st := traverse ctx (traversalBound ctx) { work := [(root, false)] }
  { steps := st.postOrder.map fun r =>
      ⟨r, (ctx.operands r).map fun c => (st.slot c).getD 0 - 1⟩
    rootSlot := (st.slot root).getD 0 - 1 }

def stepValue (ctx : SymContext) (vals : List APInt) (scratch : List APInt) (s : PlanStep) :
    APInt :=
  if ctx.op s.node = .var then SymContext.varValue vals (ctx.aux s.node) (ctx.width s.node)
  else ctx.evalNodeAP s.node (s.args.map fun k => scratch.getD k (APInt.zero 0))

def evalWith (ctx : SymContext) (plan : SymEvalPlan) (vals : List APInt) : APInt :=
  (plan.steps.foldl (fun scratch s => scratch ++ [stepValue ctx vals scratch s]) []).getD
    plan.rootSlot (APInt.zero 0)

end SymEvalPlan

def SymContext.eval (ctx : SymContext) (r : SymRef) (vals : List APInt) : APInt :=
  SymEvalPlan.evalWith ctx (SymEvalPlan.build ctx r) vals

end NeverD.Sym
