import Mathlib.Data.List.Sort
import NeverD.Sym.Build

namespace NeverD.Sym
open Lib
open Words

structure KnownBits where
  width : Nat
  zero : Nat
  one : Nat

namespace KnownBits

def unknown (w : Nat) : KnownBits := ⟨w, 0, 0⟩

def makeConstant (v : APInt) : KnownBits := ⟨v.width, v.not.toNat, v.toNat⟩

def isConstant (k : KnownBits) : Bool := k.zero + k.one = ones k.width

def isUnknown (k : KnownBits) : Bool := k.zero = 0 ∧ k.one = 0

def isNonZero (k : KnownBits) : Bool := k.one ≠ 0

def getMaxValue (k : KnownBits) : Nat := notOf k.width k.zero

def getMinValue (k : KnownBits) : Nat := k.one

def zext (k : KnownBits) (w : Nat) : KnownBits := ⟨w, k.zero ||| notOf w (ones k.width), k.one⟩

def sext (k : KnownBits) (w : Nat) : KnownBits :=
  ⟨w, sextOf k.width w k.zero, sextOf k.width w k.one⟩

def extractBits (k : KnownBits) (w low : Nat) : KnownBits :=
  ⟨w, slice low w k.zero, slice low w k.one⟩

def concat (hi lo : KnownBits) : KnownBits :=
  ⟨hi.width + lo.width, hi.zero * 2 ^ lo.width + lo.zero, hi.one * 2 ^ lo.width + lo.one⟩

def intersectWith (a b : KnownBits) : KnownBits := ⟨a.width, a.zero &&& b.zero, a.one &&& b.one⟩

def not (k : KnownBits) : KnownBits := ⟨k.width, k.one, k.zero⟩

def and (a b : KnownBits) : KnownBits := ⟨a.width, a.zero ||| b.zero, a.one &&& b.one⟩

def or (a b : KnownBits) : KnownBits := ⟨a.width, a.zero &&& b.zero, a.one ||| b.one⟩

def xor (a b : KnownBits) : KnownBits :=
  ⟨a.width, (a.zero &&& b.zero) ||| (a.one &&& b.one), (a.zero &&& b.one) ||| (a.one &&& b.zero)⟩

end KnownBits

class KnownTransfer where
  add : KnownBits → KnownBits → KnownBits
  mul : KnownBits → KnownBits → KnownBits
  udiv : KnownBits → KnownBits → KnownBits
  urem : KnownBits → KnownBits → KnownBits
  eq : KnownBits → KnownBits → Option Bool
  ult : KnownBits → KnownBits → Option Bool
  ule : KnownBits → KnownBits → Option Bool
  slt : KnownBits → KnownBits → Option Bool
  sle : KnownBits → KnownBits → Option Bool

def kSymKnownBitsMaxQueryWork : Nat := 256

def kSymKnownBitsMaxDepth : Nat := 32

def kSymKnownBitsMaxWidth : Nat := 128

def kSymKnownBitsMaxCachedFacts : Nat := 65536

structure KnownEntry where
  facts : KnownBits
  available : Nat
  depth : Nat
  complete : Bool

/-- The facts kept between queries, and those of the running query. -/
structure KnownState where
  cache : List (SymRef × KnownBits) := []
  facts : List (SymRef × KnownEntry) := []
  remaining : Nat := 0
  truncations : Nat := 0

def KnownM (α : Type) := KnownState → Option α × KnownState

namespace KnownM

variable {α β : Type}

instance : Monad KnownM where
  pure a := fun st => (some a, st)
  bind m f := fun st => match m st with
    | (some a, st) => f a st
    | (none, st) => (none, st)

lemma bind_apply (m : KnownM α) (f : α → KnownM β) (st : KnownState) :
    (m >>= f) st = match m st with
    | (some a, st) => f a st
    | (none, st) => (none, st) := rfl

def giveUp : KnownM α := fun st => (none, st)

def read : KnownM KnownState := fun st => (some st, st)

def truncate : KnownM Unit := fun st => (some (), { st with truncations := st.truncations + 1 })

def attempt (m : KnownM α) : KnownM (Option α) := fun st => (some (m st).1, (m st).2)

def spend (amount : Nat) : KnownM Unit := fun st =>
  if st.remaining < amount then (none, { st with remaining := 0 })
  else (some (), { st with remaining := st.remaining - amount })

def charge (amount : Nat) : KnownM Unit := fun st =>
  if st.remaining < amount then
    (none, { st with remaining := 0, truncations := st.truncations + 1 })
  else (some (), { st with remaining := st.remaining - amount })

/-- A used candidate matches nothing. -/
def unlessUsed (used : Bool) (m : KnownM Bool) : KnownM Bool := if used then pure false else m

def truncateIfSpent : KnownM Unit := fun st =>
  (some (),
    { st with truncations := if st.remaining = 0 then st.truncations + 1 else st.truncations })

/-- The first unused candidate that matches, which is then used. -/
def findUnused (same : β → KnownM Bool) : List (Bool × β) → KnownM (Option (List (Bool × β)))
  | [] => pure none
  | (used, b) :: rest => do
    spend 1
    let hit ← unlessUsed used (same b)
    if hit then pure (some ((true, b) :: rest))
    else do
      let found ← findUnused same rest
      pure (found.map ((used, b) :: ·))

def matchAll (same : α → β → KnownM Bool) : List α → List (Bool × β) → KnownM Bool
  | [], _ => pure true
  | a :: as, bs => do
    match ← findUnused (same a) bs with
    | none => pure false
    | some bs => matchAll same as bs

def each (f : α → KnownM β) : List α → KnownM (List β)
  | [] => pure []
  | x :: xs => do
    let y ← f x
    let ys ← each f xs
    pure (y :: ys)

end KnownM

structure KnownSteps where
  infer : SymRef → Nat → KnownM KnownBits
  sameLowBits : SymRef → SymRef → Nat → Nat → KnownM Bool

def words (w : Nat) : Nat := (w - 1) / 64 + 1

def SymContext.knownScale (ctx : SymContext) (w : Nat) (r : SymRef) : SymRef × APInt :=
  if ctx.op r = .mul ∧ ctx.numOperands r = 2 then
    if ctx.isConst (ctx.operand r 0) then (ctx.operand r 1, ctx.constValue (ctx.operand r 0))
    else if ctx.isConst (ctx.operand r 1) then (ctx.operand r 0, ctx.constValue (ctx.operand r 1))
    else (r, APInt.ofNat w 1)
  else (r, APInt.ofNat w 1)

namespace SymKnownBits

open KnownM

variable [KnownTransfer] (ctx : SymContext)

def lowBitSource (r : SymRef) (w : Nat) : SymRef :=
  if (ctx.op r = .zext ∨ ctx.op r = .sext) ∧ w ≤ ctx.width (ctx.operand r 0) then ctx.operand r 0
  else if ctx.op r = .extract ∧ ctx.aux r = 0 then ctx.operand r 0
  else r

/-- The literal of a list of factors, and the other factors. -/
def splitMask (w : Nat) (terms : List SymRef) : APInt × List SymRef :=
  match terms with
  | [] => (APInt.allOnes w, [])
  | t :: rest => if ctx.isConst t then (ctx.constValue t, rest) else (APInt.allOnes w, t :: rest)

def losslessMask (back source : SymRef) (facts : KnownBits) : KnownM Bool :=
  let w := ctx.width source
  if ctx.op back = .and then do
    let backTerms := ctx.operands back
    let sourceTerms := if ctx.op source = .and then ctx.operands source else [source]
    spend (backTerms.length + sourceTerms.length + words w)
    let kept := splitMask ctx w backTerms
    let whole := splitMask ctx w sourceTerms
    pure (kept.2 = whole.2 ∧ kept.1.toNat &&& whole.1.toNat = kept.1.toNat ∧
      facts.zero ||| kept.1.toNat = ones w)
  else pure false

/-- Shifting a scaled word back loses nothing when its high bits are copies of its sign. -/
def losslessShift (back source : SymRef) (facts : KnownBits) : KnownM Bool :=
  let w := ctx.width source
  if ctx.op back ≠ .ashr ∨ ¬ ctx.isConst (ctx.operand back 1) then pure false
  else do
    spend (3 + words w)
    let shift := min (ctx.constValue (ctx.operand back 1)).toNat (w - 1)
    let product := ctx.operand back 0
    if shift = 0 ∨ ctx.op product ≠ .mul ∨ ctx.numOperands product ≠ 2 then pure false
    else
      let restores := fun i => ctx.operand product (1 - i) = source ∧
        ctx.isConst (ctx.operand product i) ∧
        ctx.constValue (ctx.operand product i) = APInt.ofNat w (2 ^ shift)
      let high := notOf w (ones (w - (shift + 1)))
      if restores 0 ∨ restores 1 then
        pure (facts.zero &&& high = high ∨ facts.one &&& high = high)
      else pure false

def losslessProjection (back source : SymRef) (facts : KnownBits) : KnownM Bool := do
  let masked ← losslessMask ctx back source facts
  if masked then pure true else losslessShift ctx back source facts

variable (steps : KnownSteps)

/-- Add up the largest values of the terms, if their sum stays in the word. -/
def maximumOf (w : Nat) (depth : Nat) : List SymRef → Nat → KnownM (Option Nat)
  | [], maximum => pure (some maximum)
  | o :: rest, maximum => do
    let k ← steps.infer o depth
    if 2 ^ w ≤ maximum + k.getMaxValue then pure none
    else maximumOf w depth rest (maximum + k.getMaxValue)

def scaledAtLeast (sum term : SymRef) (depth : Nat) : KnownM (Option Bool) :=
  if ctx.op sum = .mul ∨ ctx.op term = .mul then do
    let w := ctx.width sum
    spend (4 + 2 * words w)
    let a := ctx.knownScale w sum
    let b := ctx.knownScale w term
    if a.1 = b.1 ∧ b.2.toNat ≤ a.2.toNat then do
      let k ← steps.infer a.1 depth
      pure (some (a.2.toNat * k.getMaxValue < 2 ^ w))
    else pure none
  else pure none

/-- A sum that cannot wrap is at least each of its parts. -/
def nonwrappingAtLeast (sum term : SymRef) (depth : Nat) : KnownM Bool := do
  match ← scaledAtLeast ctx steps sum term depth with
  | some answer => pure answer
  | none =>
    if ctx.op sum ≠ .add then pure false
    else do
      let terms := ctx.operands sum
      match ← maximumOf steps (ctx.width sum) depth terms 0 with
      | none => pure false
      | some _ =>
        if term ∈ terms then pure true
        else if ctx.op term ≠ .add then pure false
        else do
          spend terms.length
          matchAll (fun t o => pure (o = t)) (ctx.operands term) (terms.map fun o => (false, o))

def collectFactors (w : Nat) : Nat → List (SymRef × Nat) → APInt → List (SymRef × Nat) →
    KnownM (Option (APInt × List (SymRef × Nat)))
  | _, [], coefficient, leaves => pure (some (coefficient, leaves))
  | 0, _ :: _, _, _ => giveUp
  | fuel + 1, (r, d) :: pending, coefficient, leaves => do
    spend (1 + words w)
    if kSymKnownBitsMaxDepth ≤ d then do
      truncate
      pure none
    else
      let p := lowBitSource ctx r w
      if p ≠ r then collectFactors w fuel ((p, d + 1) :: pending) coefficient leaves
      else if ctx.isConst r then
        collectFactors w fuel pending (coefficient.mul ((ctx.constValue r).zextOrTrunc w)) leaves
      else if ctx.op r = .mul then do
        spend (ctx.numOperands r)
        collectFactors w fuel (((ctx.operands r).map fun o => (o, d + 1)).reverse ++ pending)
          coefficient leaves
      else collectFactors w fuel pending coefficient (leaves ++ [(r, d)])

def sameLowProduct (a b : SymRef) (w depth : Nat) : KnownM Bool := do
  match ← collectFactors ctx w (kSymKnownBitsMaxQueryWork + 1) [(a, depth)] (APInt.ofNat w 1)
    [] with
  | none => pure false
  | some (ca, la) =>
    match ← collectFactors ctx w (kSymKnownBitsMaxQueryWork + 1) [(b, depth)] (APInt.ofNat w 1)
      [] with
    | none => pure false
    | some (cb, lb) =>
      if ca ≠ cb then pure false
      else if ca.isZero then pure true
      else if la.length ≠ lb.length then pure false
      else do
        spend lb.length
        matchAll (fun x y => steps.sameLowBits x.1 y.1 w (max x.2 y.2 + 1)) la
          (lb.map fun y => (false, y))

def sameLowBits (a b : SymRef) (w depth : Nat) : KnownM Bool := do
  spend (1 + words w)
  if a = b then pure true
  else if kSymKnownBitsMaxDepth ≤ depth then do
    truncate
    pure false
  else
    let left := lowBitSource ctx a w
    let right := lowBitSource ctx b w
    if left ≠ a ∨ right ≠ b then steps.sameLowBits left right w (depth + 1)
    else if (ctx.op a = .zext ∨ ctx.op a = .sext) ∧ (ctx.op b = .zext ∨ ctx.op b = .sext) then
      let aInner := ctx.operand a 0
      let bInner := ctx.operand b 0
      let inner := ctx.width aInner
      if inner ≠ ctx.width bInner then pure false
      else do
        let same ← steps.sameLowBits aInner bInner inner (depth + 1)
        if ¬ same ∨ ctx.op a = ctx.op b then pure same
        else do
          let k ← steps.infer aInner (depth + 1)
          pure (msb k.width k.zero)
    else if ctx.isConst a ∧ ctx.isConst b then
      pure ((ctx.constValue a).toNat % 2 ^ w = (ctx.constValue b).toNat % 2 ^ w)
    else if ctx.op a = .mul ∨ ctx.op b = .mul then sameLowProduct ctx steps a b w depth
    else if ctx.op a ≠ ctx.op b then pure false
    else if ctx.op a ≠ .add ∧ ¬ isBitwise (ctx.op a) then pure false
    else
      let as := ctx.operands a
      let bs := ctx.operands b
      if as.length ≠ bs.length then pure false
      else do
        spend bs.length
        matchAll (fun x y => steps.sameLowBits x y w (depth + 1)) as (bs.map fun y => (false, y))

/-- The sum of the bounds of the terms, when the largest sum stays in the word. -/
def sumBounds (w depth : Nat) (coarse : Nat × Nat) : List SymRef → Nat → Nat → KnownM (Nat × Nat)
  | [], minimum, maximum => pure (minimum, maximum)
  | term :: rest, minimum, maximum => do
    spend (2 * words w)
    let k ← steps.infer term depth
    if 2 ^ w ≤ maximum + k.getMaxValue then pure coarse
    else sumBounds w depth coarse rest (minimum + k.getMinValue) (maximum + k.getMaxValue)

def bounds (r : SymRef) (k : KnownBits) (depth : Nat) : KnownM (Nat × Nat) :=
  let coarse := (k.getMinValue, k.getMaxValue)
  if ctx.op r ≠ .add then pure coarse
  else sumBounds steps (ctx.width r) depth coarse (ctx.operands r) 0 0

/-- A sign extension against the zero extension of the same word. -/
def signedAgainstUnsigned (signed unsigned : SymRef) (facts : KnownBits) : Option Bool :=
  if ctx.op signed ≠ .sext ∨ ctx.op unsigned ≠ .zext ∨
    ctx.operand signed 0 ≠ ctx.operand unsigned 0 then
    none
  else if msb facts.width facts.one then some false
  else if msb facts.width facts.zero then some true
  else none

/-- One side of an equality as the other one narrowed and widened again. -/
def projectedWidened (back source : SymRef) (facts : KnownBits) (depth : Nat) : KnownM Bool :=
  if ctx.op back ≠ .zext ∧ ctx.op back ≠ .sext then pure false
  else
    let slice := ctx.operand back 0
    let low := ctx.width slice - (if ctx.op back = .sext then 1 else 0)
    let mask := notOf (ctx.width source) (ones low)
    if facts.zero &&& mask = mask ∨ (ctx.op back = .sext ∧ facts.one &&& mask = mask) then
      steps.sameLowBits slice source (ctx.width slice) (depth + 1)
    else pure false

def projectedSide (back source : SymRef) (facts : KnownBits) (depth : Nat) : KnownM (Bool × Bool) :=
  do
  let lossless ← losslessProjection ctx back source facts
  if lossless then pure (true, true)
  else do
    let same ← projectedWidened ctx steps back source facts depth
    pure (same, false)

/-- The second side is tried even when the first one already agrees. -/
def projectedEither (a b : SymRef) (left right : KnownBits) (depth : Nat) : KnownM Bool := do
  let first ← projectedSide ctx steps a b right depth
  if first.2 then pure first.1
  else do
    let second ← projectedSide ctx steps b a left depth
    pure (first.1 || second.1)

def compareEqual (a b : SymRef) (left right : KnownBits) (depth : Nat) : KnownM (Option Bool) := do
  let projected ← projectedEither ctx steps a b left right depth
  if projected then pure (some true)
  else
    match signedAgainstUnsigned ctx a b left with
    | some answer => pure (some answer)
    | none =>
      match signedAgainstUnsigned ctx b a right with
      | some answer => pure (some answer)
      | none => do
        let same ← steps.sameLowBits a b (ctx.width a) (depth + 1)
        pure (if same then some true else none)

/-- The answer of the bounds of both sides. -/
def orderOfBounds (op : SymOp) (x y : Nat × Nat) : Option Bool :=
  if op = .ult then
    if x.2 < y.1 then some true else if y.2 ≤ x.1 then some false else none
  else
    if x.2 ≤ y.1 then some true else if y.2 < x.1 then some false else none

/-- The larger side is a sum that holds the smaller one. -/
def orderOfParts (op : SymOp) (a b : SymRef) (depth : Nat) : KnownM Bool :=
  if op = .ult then nonwrappingAtLeast ctx steps a b depth
    else nonwrappingAtLeast ctx steps b a depth

def compareOrder (op : SymOp) (a b : SymRef) (left right : KnownBits) (depth : Nat) :
    KnownM (Option Bool) := do
  let x ← attempt (bounds ctx steps a left (depth + 2))
  let y ← attempt (bounds ctx steps b right (depth + 2))
  match x, y with
  | some x, some y =>
    match orderOfBounds op x y with
    | some answer => pure (some answer)
    | none => do
      let contains ← orderOfParts ctx steps op a b (depth + 2)
      pure (if contains then some (op = .ule) else none)
  | _, _ => giveUp

def transferCompare (op : SymOp) (left right : KnownBits) : Option Bool :=
  match op with
  | .eq => KnownTransfer.eq left right
  | .ult => KnownTransfer.ult left right
  | .ule => KnownTransfer.ule left right
  | .slt => KnownTransfer.slt left right
  | _ => KnownTransfer.sle left right

def compareFurther (op : SymOp) (a b : SymRef) (left right : KnownBits) (depth : Nat) :
    KnownM (Option Bool) :=
  match transferCompare op left right with
  | some answer => pure (some answer)
  | none =>
    if op = .eq then compareEqual ctx steps a b left right depth
    else if op = .ult ∨ op = .ule then compareOrder ctx steps op a b left right depth
    else pure none

def compare (r : SymRef) (left right : KnownBits) (depth : Nat) : KnownM KnownBits := do
  let value ← compareFurther ctx steps (ctx.op r) (ctx.operand r 0) (ctx.operand r 1)
    left right depth
  pure (match value with
    | some answer => KnownBits.makeConstant (APInt.ofBool answer)
    | none => KnownBits.unknown 1)

/-- A literal term of a divisor that it cannot fall below. -/
def divisorNonzero (divisor : SymRef) (right : KnownBits) (depth : Nat) : KnownM Bool :=
  if right.isNonZero then pure true
  else if ctx.op divisor = .add then
    match (ctx.operands divisor).find? fun t => ctx.isConst t ∧ ¬ (ctx.constValue t).isZero with
    | some term => nonwrappingAtLeast ctx steps divisor term (depth + 1)
    | none => pure false
  else pure false

def computeURem (r : SymRef) (w depth : Nat) : KnownM KnownBits := do
  spend (words w)
  let divisor := ctx.operand r 1
  let right ← steps.infer divisor (depth + 1)
  let nonzero ← divisorNonzero ctx steps divisor right depth
  let left ← attempt (steps.infer (ctx.operand r 0) (depth + 1))
  let dividend := left.getD (KnownBits.unknown w)
  if left.isSome ∧ right.isConstant ∧ right.one ≠ 0 ∧ dividend.getMaxValue < right.one then
    pure dividend
  else
    let result := KnownTransfer.urem dividend right
    let result := if nonzero then result else result.intersectWith dividend
    if left.isNone ∧ result.isUnknown then giveUp else pure result

def shiftKnown (op : SymOp) (w : Nat) (k count : KnownBits) : KnownBits :=
  if ¬ count.isConstant then KnownBits.unknown w
  else
    let n := count.one
    if w ≤ n then
      if op ≠ .ashr then KnownBits.makeConstant (APInt.zero w)
      else (k.extractBits 1 (w - 1)).sext w
    else
      match op with
      | .shl => ⟨w, (k.zero * 2 ^ n % 2 ^ w) ||| ones n, k.one * 2 ^ n % 2 ^ w⟩
      | .lshr => ⟨w, (k.zero / 2 ^ n) ||| notOf w (ones (w - n)), k.one / 2 ^ n⟩
      | _ => ⟨w, ashrOf w k.zero n, ashrOf w k.one n⟩

def combineKnown (op : SymOp) (a b : KnownBits) : KnownBits :=
  match op with
  | .and => a.and b
  | .or => a.or b
  | .xor => a.xor b
  | .add => KnownTransfer.add a b
  | .mul => KnownTransfer.mul a b
  | _ => a.concat b

def computeIte (r : SymRef) (depth : Nat) : KnownM KnownBits := do
  let taken ← steps.infer (ctx.operand r 1) (depth + 1)
  let otherwise ← steps.infer (ctx.operand r 2) (depth + 1)
  let common := taken.intersectWith otherwise
  let condition ← attempt (steps.infer (ctx.operand r 0) (depth + 1))
  match condition with
  | some k =>
    if k.isConstant then pure (if k.one = 0 then otherwise else taken) else pure common
  | none => if common.isUnknown then giveUp else pure common

def inferOperands (op : SymOp) (depth : Nat) (ops : List SymRef) : KnownM (List KnownBits) :=
  KnownM.each (fun o =>
    if op = .concat then do
      let k ← attempt (steps.infer o (depth + 1))
      pure (k.getD (KnownBits.unknown (ctx.width o)))
    else steps.infer o (depth + 1)) ops

def combine (op : SymOp) (w : Nat) (children : List KnownBits) : KnownBits :=
  match children with
  | [] => KnownBits.unknown w
  | k :: ks => ks.foldl (combineKnown op) k

def spendEach (amount : Nat) : Nat → KnownM Unit
  | 0 => pure ()
  | n + 1 => do
    spend amount
    spendEach amount n

def compute (r : SymRef) (depth : Nat) : KnownM KnownBits :=
  let w := ctx.width r
  let ops := ctx.operands r
  match ctx.op r with
  | .const => pure (KnownBits.makeConstant (ctx.constValue r))
  | .var | .sdiv | .srem | .rol | .ror => pure (KnownBits.unknown w)
  | .zext => do
    let input ← attempt (steps.infer (ctx.operand r 0) (depth + 1))
    pure ((input.getD (KnownBits.unknown (ctx.width (ctx.operand r 0)))).zext w)
  | .ite => computeIte ctx steps r depth
  | .urem => computeURem ctx steps r w depth
  | .not => do
    let children ← inferOperands ctx steps .not depth ops
    pure (children.getD 0 (KnownBits.unknown w)).not
  | .extract => do
    let children ← inferOperands ctx steps .extract depth ops
    pure ((children.getD 0 (KnownBits.unknown w)).extractBits w (ctx.aux r))
  | .sext => do
    let children ← inferOperands ctx steps .sext depth ops
    pure ((children.getD 0 (KnownBits.unknown w)).sext w)
  | .shl | .lshr | .ashr => do
    let children ← inferOperands ctx steps .shl depth ops
    pure (shiftKnown (ctx.op r) w (children.getD 0 (KnownBits.unknown w))
      (children.getD 1 (KnownBits.unknown w)))
  | .udiv => do
    let children ← inferOperands ctx steps .udiv depth ops
    let a := children.getD 0 (KnownBits.unknown w)
    let b := children.getD 1 (KnownBits.unknown w)
    if children.length ≠ 2 ∨ ¬ b.isConstant ∨ b.one = 0 ∨ a.width ≠ b.width then
      pure (KnownBits.unknown w)
    else pure (KnownTransfer.udiv a b)
  | .eq | .ult | .ule | .slt | .sle => do
    let children ← inferOperands ctx steps .eq depth ops
    compare ctx steps r (children.getD 0 (KnownBits.unknown w))
      (children.getD 1 (KnownBits.unknown w)) depth
  | .and | .or | .xor | .add | .mul | .concat => do
    spendEach (words w) (ops.length - 1)
    let children ← inferOperands ctx steps (ctx.op r) depth ops
    pure (combine (ctx.op r) w children)

def mergeFacts (previous result : Option KnownBits) : Option KnownBits :=
  match previous, result with
  | none, result => result
  | some p, none => some p
  | some p, some k => some ⟨k.width, k.zero ||| p.zero, k.one ||| p.one⟩

def record (r : SymRef) (k : KnownBits) (offered depth : Nat) (complete : Bool) : KnownM Unit :=
  fun st => (some (), { st with
    cache := if complete ∧ ¬ k.isUnknown ∧ st.cache.length < kSymKnownBitsMaxCachedFacts ∧
        (st.cache.lookup r).isNone then (r, k) :: st.cache else st.cache
    facts := (r, ⟨k, offered, depth, complete⟩) :: st.facts })

def inferFresh (r : SymRef) (depth : Nat) (previous : Option KnownBits) : KnownM KnownBits := do
  let before ← read
  let result ← attempt (compute ctx steps r depth)
  truncateIfSpent
  let after ← read
  match mergeFacts previous result with
  | none => giveUp
  | some k => do
    record r k before.remaining depth (before.truncations = after.truncations || k.isConstant)
    pure k

def infer (r : SymRef) (depth : Nat) : KnownM KnownBits := do
  charge 1
  let w := ctx.width r
  if kSymKnownBitsMaxWidth < w then do
    truncate
    giveUp
  else do
    charge (words w)
    if kSymKnownBitsMaxDepth ≤ depth then do
      truncate
      pure (KnownBits.unknown w)
    else do
      let st ← read
      match st.cache.lookup r with
      | some k => pure k
      | none =>
        match st.facts.lookup r with
        | some e =>
          if e.complete then pure e.facts
          else if st.remaining ≤ e.available ∧ e.depth ≤ depth then do
            truncate
            pure e.facts
          else inferFresh ctx steps r depth (some e.facts)
        | none => inferFresh ctx steps r depth none

/-- Every recursive step goes one deeper, up to the depth limit. -/
def stepsWithin : Nat → KnownSteps
  | 0 => ⟨fun _ _ => giveUp, fun _ _ _ _ => giveUp⟩
  | n + 1 => ⟨infer ctx (stepsWithin n), sameLowBits ctx (stepsWithin n)⟩

/-- The facts about a word, the facts kept for the next query, and the work left. -/
def query (cache : List (SymRef × KnownBits)) (r : SymRef) (budget : Nat) :
    Option KnownBits × List (SymRef × KnownBits) × Nat :=
  if ctx.nodes.length ≤ r ∨ kSymKnownBitsMaxWidth < ctx.width r then (none, cache, budget)
  else
    let available := min budget kSymKnownBitsMaxQueryWork
    let (result, st) := infer ctx (stepsWithin ctx (kSymKnownBitsMaxDepth + 2)) r 0
      { cache := cache, remaining := available }
    (result, st.cache, budget - (available - st.remaining))

end SymKnownBits

end NeverD.Sym
