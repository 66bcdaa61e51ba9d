import NeverD.Lib.Grow
import NeverD.Sat.Interface

namespace NeverD.Cnf
open Lib NeverD.Sat

/-- Which half of a gate's definition a caller needs. -/
inductive GatePolarity
  | positive
  | negative
  | both
deriving DecidableEq, Repr

def GatePolarity.flip : GatePolarity → GatePolarity
  | .positive => .negative
  | .negative => .positive
  | .both => .both

inductive GateKind
  | and
  | xor
  | ite
  | majority
deriving DecidableEq, Repr

/-- A gate and the halves of its definition that were emitted. -/
structure Gate where
  kind : GateKind
  positiveEmitted : Bool := false
  negativeEmitted : Bool := false
  operands : List SatLit
  out : SatLit
deriving DecidableEq, Repr

/-- An index of zero marks an empty bucket; others are one more than a gate's. -/
structure GateBucket where
  hash : UInt32 := 0
  index : Nat := 0
deriving DecidableEq, Repr

structure CnfEncoder (R : Type) where
  solver : SatSolver R
  trueLit : SatLit
  gates : List Gate := []
  gateTable : List GateBucket := []

def withPolarity (l : SatLit) (positive : Bool) : SatLit := ⟨l.var, l.negated ^^ !positive⟩

def kCnfEncoderMaxXorFanIn : Nat := 3

def mixHash (h v : UInt64) : UInt64 :=
  h ^^^ (v + 0x9e3779b97f4a7c15 + (h <<< (6 : UInt64)) + (h >>> (2 : UInt64)))

def GateKind.code : GateKind → UInt64
  | .and => 0
  | .xor => 1
  | .ite => 2
  | .majority => 3

def gateHash (kind : GateKind) (ins : List SatLit) : UInt64 :=
  ins.foldl (fun h l => mixHash h (UInt64.ofNat (SatLit.index l))) (mixHash 0x51ed270b kind.code)

def gateFingerprint (hash : UInt64) : UInt32 :=
  let h := (hash ^^^ (hash >>> 32)) * 0x9e3779b97f4a7c15
  (h ^^^ (h >>> 32)).toUInt32

/-- Walk the buckets from `slot` to the first that is empty or passes `hit`. -/
def probe (table : List GateBucket) (hit : GateBucket → Bool) : Nat → Nat → Option Nat
  | 0, _ => none
  | k + 1, slot =>
    match table[slot]? with
    | none => none
    | some b =>
      if b.index = 0 || hit b then some slot
      else probe table hit k ((slot + 1) &&& (table.length - 1))

def probeFor (table : List GateBucket) (hit : GateBucket → Bool) (fingerprint : UInt32) :
    Option Nat :=
  probe table hit table.length (fingerprint.toNat &&& (table.length - 1))

def reinsert (next : List GateBucket) (b : GateBucket) : Option (List GateBucket) :=
  if b.index = 0 then some next
  else (probeFor next (fun _ => false) b.hash).map fun slot => next.set slot b

def growGateTable (table : List GateBucket) : Option (List GateBucket) :=
  table.foldlM reinsert (List.replicate (if table.isEmpty then 64 else table.length * 2)
    ({} : GateBucket))

def emitAnd (g : Gate) : Bool → List (List SatLit)
  | true => g.operands.map fun l => [g.out.neg, l]
  | false => [g.out :: g.operands.map Lit.neg]

def parity (n a : Nat) : Bool := (List.range n).foldl (fun p i => p ^^ a.testBit i) false

/-- One clause for each assignment `a` of the operands, ruling out the wrong output. -/
def emitXor (g : Gate) : List (List SatLit) :=
  (List.range (2 ^ g.operands.length)).map fun a =>
    (g.operands.zipIdx.map fun x => withPolarity x.1 (!a.testBit x.2)) ++
      [withPolarity g.out (parity g.operands.length a)]

def emitIte (g : Gate) (positive : Bool) : List (List SatLit) :=
  match g.operands with
  | [c, t, e] =>
    if positive then [[g.out.neg, c.neg, t], [g.out.neg, c, e], [g.out.neg, t, e]]
    else [[g.out, c.neg, t.neg], [g.out, c, e.neg], [g.out, t.neg, e.neg]]
  | _ => []

def emitMajority (g : Gate) (positive : Bool) : List (List SatLit) :=
  match g.operands with
  | [a, b, c] =>
    if positive then [[g.out.neg, a, b], [g.out.neg, a, c], [g.out.neg, b, c]]
    else [[g.out, a.neg, b.neg], [g.out, a.neg, c.neg], [g.out, b.neg, c.neg]]
  | _ => []

def halves (emit : Bool → List (List SatLit)) (positive negative : Bool) : List (List SatLit) :=
  (if positive then emit true else []) ++ (if negative then emit false else [])

def missingClauses (g : Gate) (positive negative : Bool) : List (List SatLit) :=
  match g.kind with
  | .and => halves (emitAnd g) positive negative
  | .xor => emitXor g
  | .ite => halves (emitIte g) positive negative
  | .majority => halves (emitMajority g) positive negative

def Gate.emitted (g : Gate) (positive negative : Bool) : Gate :=
  if g.kind = .xor then { g with positiveEmitted := true, negativeEmitted := true }
  else { g with
    positiveEmitted := g.positiveEmitted || positive
    negativeEmitted := g.negativeEmitted || negative }

namespace CnfEncoder

variable {R : Type} [FloatArith R]

abbrev Encode (R : Type) (α : Type) := Prog (CnfEncoder R) α

def falseLit (e : CnfEncoder R) : SatLit := e.trueLit.neg

def constant (e : CnfEncoder R) (value : Bool) : SatLit := withPolarity e.trueLit value

def isConstant (e : CnfEncoder R) (l : SatLit) : Bool :=
  decide (l.var = e.trueLit.var) || e.solver.rootValue l != .unknown

def isTrueLit (e : CnfEncoder R) (l : SatLit) : Bool :=
  if l.var = e.trueLit.var then decide (l = e.trueLit) else e.solver.rootValue l == .true

def isFalseLit (e : CnfEncoder R) (l : SatLit) : Bool :=
  if l.var = e.trueLit.var then decide (l = e.trueLit.neg) else e.solver.rootValue l == .false

def init (solver : SatSolver R) : Option (CnfEncoder R) :=
  match solver.newVar false with
  | (none, _) => none
  | (some v, solver) =>
    (solver.addClause [⟨v, false⟩]).map fun r => { solver := r.2, trueLit := ⟨v, false⟩ }

/-- The code asserts that a variable number is left. -/
def freshLit : Encode R SatLit := fun e =>
  match e.solver.newVar true with
  | (none, _) => none
  | (some v, solver) => some (⟨v, false⟩, { e with solver := solver })

def addClause (C : List SatLit) : Encode R Bool := fun e =>
  (e.solver.addClause C).map fun r => (r.1, { e with solver := r.2 })

def addClauses : List (List SatLit) → Encode R Unit
  | [] => pure ()
  | C :: Cs => do
    let _ ← addClause C
    addClauses Cs

def emit (index : Nat) (p : GatePolarity) : Encode R Unit := do
  let e ← get
  match e.gates[index]? with
  | none => failure
  | some g =>
    let positive := p != .negative && !g.positiveEmitted
    let negative := p != .positive && !g.negativeEmitted
    if !positive && !negative then pure ()
    else
      set { e with gates := e.gates.set index (g.emitted positive negative) }
      addClauses (missingClauses g positive negative)

def gateHit (e : CnfEncoder R) (kind : GateKind) (ins : List SatLit) (fingerprint : UInt32)
    (b : GateBucket) : Bool :=
  decide (b.hash = fingerprint) &&
    match e.gates[b.index - 1]? with
    | none => false
    | some g => decide (g.kind = kind) && decide (g.operands = ins)

/-- Append a gate whose bucket goes to `slot`. -/
def pushGate (table : List GateBucket) (slot : Nat) (fingerprint : UInt32) (kind : GateKind)
    (ins : List SatLit) (p : GatePolarity) : Encode R SatLit := do
  let out ← freshLit
  let e ← get
  let index := e.gates.length
  set { e with
    gates := e.gates ++ [({ kind := kind, operands := ins, out := out } : Gate)]
    gateTable := table.set slot ⟨fingerprint, index + 1⟩ }
  emit index p
  pure out

/-- The walk over the buckets has ended at `slot`: share the gate filed there, or
create one. -/
def gateAt (table : List GateBucket) (slot : Nat) (fingerprint : UInt32) (kind : GateKind)
    (ins : List SatLit) (p : GatePolarity) : Encode R SatLit := do
  let e ← get
  let index := (table.getD slot ({} : GateBucket)).index
  if index ≠ 0 then
    emit (index - 1) p
    match e.gates[index - 1]? with
    | none => failure
    | some g => pure g.out
  else if table.length - table.length / 4 ≤ e.gates.length then
    -- Rehash before the probe chains run out of empty buckets.
    match growGateTable table with
    | none => failure
    | some table =>
      match probeFor table (fun _ => false) fingerprint with
      | none => failure
      | some slot => pushGate table slot fingerprint kind ins p
  else pushGate table slot fingerprint kind ins p

def gate (kind : GateKind) (ins : List SatLit) (p : GatePolarity) : Encode R SatLit := do
  let fingerprint := gateFingerprint (gateHash kind ins)
  let e ← get
  match if e.gateTable.isEmpty then growGateTable e.gateTable else some e.gateTable with
  | none => failure
  | some table =>
    match probeFor table (e.gateHit kind ins fingerprint) fingerprint with
    | none => failure
    | some slot => gateAt table slot fingerprint kind ins p

/-- Drop true and repeated operands; `none` where the conjunction is false. -/
def andTerms (e : CnfEncoder R) : List SatLit → Option SatLit → List SatLit → Option (List SatLit)
  | [], _, kept => some kept
  | l :: ls, prev, kept =>
    if e.isTrueLit l then andTerms e ls prev kept
    else if e.isFalseLit l then none
    else if prev = some l then andTerms e ls prev kept
    else if prev = some l.neg then none
    else andTerms e ls (some l) (kept ++ [l])

def mkAnd (ins : List SatLit) (p : GatePolarity) : Encode R SatLit := do
  let e ← get
  match e.andTerms (SatEngine.sortLits ins) none [] with
  | none => pure e.falseLit
  | some [] => pure e.trueLit
  | some [l] => pure l
  | some terms => gate .and terms p

def mkOr (ins : List SatLit) (p : GatePolarity) : Encode R SatLit := do
  let l ← mkAnd (ins.map Lit.neg) p.flip
  pure l.neg

/-- The value of a literal that is the encoder's constant or fixed at the root. -/
def xorRootValue (e : CnfEncoder R) (l : SatLit) : SatValue :=
  if l.var = e.trueLit.var then (if l = e.trueLit then .true else .false)
  else e.solver.rootValue l

def mkXor2 (a b : SatLit) : Encode R SatLit := do
  let e ← get
  if a = b then pure e.falseLit
  else if a = b.neg then pure e.trueLit
  else
    let av := e.xorRootValue a
    let bv := e.xorRootValue b
    if av ≠ .unknown then
      if bv ≠ .unknown then pure (e.constant (av != bv))
      else pure (withPolarity b (av == .false))
    else if bv ≠ .unknown then pure (withPolarity a (bv == .false))
    else
      let x : SatLit := ⟨a.var, false⟩
      let y : SatLit := ⟨b.var, false⟩
      let terms := if SatLit.index y < SatLit.index x then [y, x] else [x, y]
      let l ← gate .xor terms .both
      pure (withPolarity l (a.negated == b.negated))

/-- Count constants and complements into the parity and strip them. -/
def xorTerms (e : CnfEncoder R) : List SatLit → Bool → List SatLit → Bool × List SatLit
  | [], complement, terms => (complement, terms)
  | l :: ls, complement, terms =>
    if e.isConstant l then xorTerms e ls (complement ^^ e.isTrueLit l) terms
    else if l.negated then xorTerms e ls (!complement) (terms ++ [l.neg])
    else xorTerms e ls complement (terms ++ [l])

/-- A term appearing twice contributes nothing to a parity. -/
def cancelPairs : List SatLit → List SatLit
  | [] => []
  | [l] => [l]
  | a :: b :: rest => if a = b then cancelPairs rest else a :: cancelPairs (b :: rest)

def mkXor (ins : List SatLit) : Encode R SatLit := do
  match ins with
  | [a, b] => mkXor2 a b
  | _ =>
    let e ← get
    let (complement, terms) := e.xorTerms ins false []
    match cancelPairs (SatEngine.sortLits terms) with
    | [] => pure (e.constant complement)
    | [l] => pure (withPolarity l (!complement))
    | t :: ts =>
      if kCnfEncoderMaxXorFanIn < (t :: ts).length then
        let acc ← ts.foldlM mkXor2 t
        pure (withPolarity acc (!complement))
      else
        let l ← gate .xor (t :: ts) .both
        pure (withPolarity l (!complement))

def mkEquiv (a b : SatLit) : Encode R SatLit := do
  let l ← mkXor2 a b
  pure l.neg

def mkIte (c t e : SatLit) : Encode R SatLit := do
  let s ← get
  if s.isTrueLit c then pure t
  else if s.isFalseLit c then pure e
  else if t = e then pure t
  else if t = e.neg then mkXor2 c e
  else if s.isTrueLit t then mkOr [c, e] .both
  else if s.isFalseLit t then mkAnd [c.neg, e] .both
  else if s.isTrueLit e then mkOr [c.neg, t] .both
  else if s.isFalseLit e then mkAnd [c, t] .both
  else if t = c then mkOr [c, e] .both
  else if t = c.neg then mkAnd [c.neg, e] .both
  else if e = c then mkAnd [c, t] .both
  else if e = c.neg then mkOr [c.neg, t] .both
  else
    -- A positive condition and a positive true-arm are the normal form.
    let (c, t, e) := if c.negated then (c.neg, e, t) else (c, t, e)
    if t.negated then
      let l ← gate .ite [c, t.neg, e.neg] .both
      pure l.neg
    else gate .ite [c, t, e] .both

def mkMajority (a b c : SatLit) : Encode R SatLit := do
  let e ← get
  if e.isConstant a then (if e.isTrueLit a then mkOr [b, c] .both else mkAnd [b, c] .both)
  else if e.isConstant b then (if e.isTrueLit b then mkOr [a, c] .both else mkAnd [a, c] .both)
  else if e.isConstant c then (if e.isTrueLit c then mkOr [a, b] .both else mkAnd [a, b] .both)
  else if a = b then pure a
  else if a = c then pure a
  else if b = c then pure b
  else if a = b.neg then pure c
  else if a = c.neg then pure b
  else if b = c.neg then pure a
  else gate .majority (SatEngine.sortLits [a, b, c]) .both

def mkFullAdder (a b carryIn : SatLit) : Encode R (SatLit × SatLit) := do
  let sum ← mkXor [a, b, carryIn]
  let carryOut ← mkMajority a b carryIn
  pure (sum, carryOut)

end CnfEncoder

end NeverD.Cnf
