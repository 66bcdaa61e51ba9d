import NeverD.Ir.ConstantPropagation

namespace NeverD.Ir

def MedVar.number (v : MedVar) : Nat := v.constVal.toNat % 2 ^ (8 * v.size)

abbrev Env := Key → Option (Nat × Nat)

inductive Reads (env : Env) (v : MedVar) : Nat → Prop
  | const : v.isConst = true → Reads env v v.number
  | assigned {x : Nat} : v.isConst = false → env v.key = some (v.size, x) → Reads env v x
  | unknown {x : Nat} : v.isConst = false → (∀ y, env v.key ≠ some (v.size, y)) →
      x < 2 ^ (8 * v.size) → Reads env v x

namespace MedOp

def operands (op : MedOp) : List MedVar := op.inputs.take op.numInputs

def evaluate (op : MedOp) (values : List Nat) : Option Nat :=
  match op.opcode, op.operands, values with
  | .copy, [a], [x] => if a.size = op.output.size then some x else none
  | .intZext, [a], [x] => if a.size < op.output.size then some x else none
  | .intSext, [a], [x] =>
    if a.size < op.output.size then
      some ((BitVec.ofNat (8 * a.size) x).signExtend (8 * op.output.size)).toNat else none
  | .subbytes, [_, offset], [x, _] =>
    if offset.isConst then some (x / 2 ^ (8 * offset.constVal.toNat) % 2 ^ (8 * op.output.size))
      else none
  | _, _, _ => none

def defines (op : MedOp) : Bool :=
  op.output.isConst = false ∧ 0 ≤ op.output.id ∧ (op.output.size ≠ 0 ∨ op.opcode = .subbytes)

end MedOp

namespace MedFunc

/-- What a call or an intrinsic assigns besides its output. -/
def implicitKeys (f : MedFunc) (op : MedOp) : List Key :=
  op.intrinsicOutputs.map (·.key) ++
    if op.opcode = .call ∨ op.opcode = .indirCall then
      (f.callClobbers.filter fun c => c.callSiteId = op.callSiteId).map (·.value.key)
    else []

def block (f : MedFunc) (id : Int) : Option MedBlock := f.blocks.find? (·.id = id)

def definitions (f : MedFunc) : List Key :=
  f.blocks.flatMap (fun b => (b.phis.filter fun phi => phi.output.isConst = false).map
    (·.output.key) ++ (b.ops.filter (·.defines)).map (·.output.key)) ++
    ((f.blocks.flatMap fun b => b.ops.flatMap fun op => op.intrinsicOutputs.map (·.key)) ++
      f.callClobbers.map (·.value.key))

end MedFunc

structure OpStep (f : MedFunc) (op : MedOp) (before after : Env) : Prop where
  output : op.output.isDefined = true → ∃ w < 2 ^ (8 * op.output.size),
    after op.output.key = some (op.output.size, w) ∧
      (op.isPlain = true → ∃ values, List.Forall₂ (Reads before) op.operands values ∧
        ∀ r, op.evaluate values = some r → w = r)
  implicit : ∀ key ∈ f.implicitKeys op, (after key).isSome
  kept : ∀ key, (op.output.isDefined = true → key ≠ op.output.key) → key ∉ f.implicitKeys op →
    after key = before key

structure PhiStep (block : MedBlock) (pred : Int) (before after : Env) : Prop where
  output : ∀ phi ∈ block.phis, phi.output.isDefined = true → ∃ w < 2 ^ (8 * phi.output.size),
    after phi.output.key = some (phi.output.size, w) ∧
      ((∃ v, (pred, v) ∈ phi.args ∧ (v.size = phi.output.size → Reads before v w)) ∨
        ∀ v, (pred, v) ∉ phi.args)
  kept : ∀ key, (∀ phi ∈ block.phis, phi.output.isDefined = true → key ≠ phi.output.key) →
    after key = before key

/-- A block, the number of its operations that were executed, and the variables. A root is entered
with none assigned. -/
inductive Reached (f : MedFunc) (roots : Set Int) : Int → Nat → Env → Prop
  | entry {id : Int} : id ∈ roots → Reached f roots id 0 fun _ => none
  | op {id : Int} {b : MedBlock} {op : MedOp} {k : Nat} {env env' : Env} :
      Reached f roots id k env →
      f.block id = some b → b.ops[k]? = some op → OpStep f op env env' →
        Reached f roots id (k + 1) env'
  | edge {id s : Int} {b c : MedBlock} {env env' : Env} : Reached f roots id b.ops.length env →
      f.block id = some b →
      s ∈ b.succs → f.block s = some c → PhiStep c id env env' → Reached f roots s 0 env'

/-- The variables that a literal reaches along copies, joins and views. -/
inductive MedFunc.Seeded (f : MedFunc) : Key → Prop
  | literal {s : Site} {v : MedVar} : s ∈ f.sites → v ∈ s.inputs → v.isConst = true →
    Seeded f s.output.key
  | through {s : Site} {v : MedVar} : s ∈ f.sites → v ∈ s.inputs → v.isConst = false →
      Seeded f v.key → Seeded f s.output.key

/-- Each variable is defined once, and one that a literal reaches is assigned in every execution
before it is read. -/
structure SSAForm (f : MedFunc) (roots : Set Int) : Prop where
  unique : f.definitions.Nodup
  op_reads : ∀ id k env b op v, Reached f roots id k env → f.block id = some b →
    b.ops[k]? = some op → v ∈ op.operands → f.Seeded v.key → (env v.key).isSome
  phi_reads : ∀ id env b s c phi v, Reached f roots id b.ops.length env → f.block id = some b →
    s ∈ b.succs → f.block s = some c → phi ∈ c.phis → (id, v) ∈ phi.args → f.Seeded v.key →
    (env v.key).isSome

end NeverD.Ir
