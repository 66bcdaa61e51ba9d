import NeverD.Lib.Monomials
import NeverD.Mba.QuadraticTerms

namespace NeverD.Mba
open Lib NeverD.Sym
open Lib.Minterms Lib.Monomials Spends

def kSymMBAPolyExpandOverMintermsCheckExtremesTermsSizeLimit : Nat := 128

def kSymMBAPolyExpandOverMintermsCheckExtremesTermFactorsSizeLimit : Nat := 64

structure PolyForm (w : Nat) where
  linear : Row w
  higher : List (List Nat × BitVec w) := []
  sawProduct : Bool := false
  degree : Nat := 0

section

variable {α : Type}

def forEachFrom (choices : List (List Nat)) (visit : α → List Nat → α) :
    Nat → List Nat → α → Spends α
  | 0, _, _ => refuse
  | fuel + 1, picks, a => do
    consume 1
    match advance choices picks with
    | none => pure (visit a (sorted (takeAt choices picks)))
    | some next => forEachFrom choices visit fuel next (visit a (sorted (takeAt choices picks)))

/-- Take one minterm from each factor, in every way. -/
def forEachMonomial (selected : List (List Nat)) (visit : α → List Nat → α) (a : α) : Spends α :=
  if selected = [] then pure a
  else forEachFrom selected.reverse visit (selected.map List.length).prod (selected.map fun _ => 0)
    a

def addCoefficient {w : Nat} (coeff : BitVec w) (key : List Nat) : List (List Nat × BitVec w) →
    List (List Nat × BitVec w)
  | [] => [(key, 0 + coeff)]
  | (k, c) :: rest => if k = key then (k, c + coeff) :: rest
      else (k, c) :: addCoefficient coeff key rest

def saturatingMul (a b : Nat) : Nat := if b > sizeMax / a then sizeMax else a * b

def saturatingProduct : List (List Nat) → Nat → Nat
  | [], size => size
  | s :: choices, size =>
    if s.length > sizeMax / size then sizeMax else saturatingProduct choices (size * s.length)

end

variable (ctx : SymContext) (terms : List PolyTerm) (atomIds : List Nat) (w : Nat)

structure FactorScan where
  productSize : Nat := 1
  zeroProduct : Bool := false
  low : List Nat := []
  high : List Nat := []
  diagonalBits : Nat → Bool := fun _ => true

/-- What the terms so far say about their sum. -/
structure Admission (w : Nat) where
  pending : Nat := 0
  first : List Nat × BitVec w := ([], 0)
  last : List Nat × BitVec w := ([], 0)
  diagonal : Row w := fun _ => 0

def checksExtremes (singleProduct : Bool) : Bool :=
  singleProduct && decide (2 ^ atomIds.length ≤ 64 ∧ terms ≠ [] ∧
    terms.length ≤ kSymMBAPolyExpandOverMintermsCheckExtremesTermsSizeLimit ∧
    ∀ t ∈ terms, 2 ≤ t.factors.length ∧
      t.factors.length ≤ kSymMBAPolyExpandOverMintermsCheckExtremesTermFactorsSizeLimit ∧
      some t.factors.length = terms.head?.map fun u => u.factors.length)

def noteExtremes {n : Nat} (check : Bool) (table : TruthTable n) (scan : FactorScan) :
    Spends FactorScan :=
  if check then do
    consume 2
    consume 1
    pure { scan with
      diagonalBits := fun m => scan.diagonalBits m && table.entry m
      low := scan.low ++ [table.patterns.headD 0]
      high := scan.high ++ [table.patterns.getLastD 0] }
  else pure scan

def scanFactor (check : Bool) (pending : Nat) (t : PolyTerm) (scan : FactorScan) (f : SymRef) :
    Spends FactorScan :=
  match bitwiseTable ctx f atomIds with
  | none => do
    spend pending
    refuse
  | some table =>
    if t.factors.length < 2 then pure scan
    else if table.patterns.length = 0 then pure { scan with zeroProduct := true }
    else do
      let scan ← noteExtremes check table scan
      pure { scan with productSize := saturatingMul scan.productSize table.patterns.length }

def noteDiagonal (coeff : BitVec w) : List Nat → Row w → Spends (Row w)
  | [], out => pure out
  | m :: ms, out => do
    consume (wordsOf w)
    noteDiagonal coeff ms (Function.update out m (out m + coeff))

def noteExtreme {w : Nat} (lt : List Nat → List Nat → Bool) (key : List Nat) (coeff : BitVec w)
    (best : List Nat × BitVec w) : List Nat × BitVec w :=
  if best.1 = [] ∨ lt key best.1 then (key, coeff)
  else if key = best.1 then (best.1, best.2 + coeff)
  else best

def noteTerm (check : Bool) (t : PolyTerm) (scan : FactorScan) (st : Admission w) :
    Spends (Admission w) :=
  if check then do
    let diagonal ← noteDiagonal w (t.coeff.read w) ((List.range 64).filter scan.diagonalBits)
      st.diagonal
    consume (2 * scan.low.length * (scan.low.length.size + 2) + 2 * ((w + 63) / 64))
    pure { st with
      diagonal
      first := noteExtreme (fun a b => a < b) (sorted scan.low) (t.coeff.read w) st.first
      last := noteExtreme (fun a b => b < a) (sorted scan.high) (t.coeff.read w) st.last }
  else pure st

/-- Give up; work that is not optional is charged. -/
def rejectWork {α : Type} (optional : Bool) (units : Nat) : Spends α :=
  if optional then refuse
  else do
    spend units
    refuse

def admitTerm (check optional : Bool) (st : Admission w) (t : PolyTerm) : Spends (Admission w) :=
  if t.factors = [] then pure st
  else do
    let scan ← t.factors.foldlM (scanFactor ctx atomIds check st.pending t) {}
    if t.factors.length < 2 ∨ scan.zeroProduct then pure st
    else do
      let st ← noteTerm w check t scan st
      let b ← budget
      if scan.productSize > sizeMax - st.pending ∨
        ¬ b.canConsume (st.pending + scan.productSize) then
        rejectWork optional sizeMax
      else pure { st with pending := st.pending + scan.productSize }

/-- All nonzero coefficients of a minterm's power have to be the same. -/
def checkDiagonal (diagonal : Row w) : List Nat → Option (BitVec w) → Spends Unit
  | [], _ => pure ()
  | m :: ms, scale => do
    consume (wordsOf w)
    if diagonal m = 0 then checkDiagonal diagonal ms scale
    else match scale with
      | none => checkDiagonal diagonal ms (some (diagonal m))
      | some c => if diagonal m ≠ c then refuse else checkDiagonal diagonal ms scale

def rejectSums (st : Admission w) : Spends Unit := do
  checkDiagonal w st.diagonal (List.range (2 ^ atomIds.length)) none
  if st.first.2 ≠ 0 ∧ st.last.2 ≠ 0 ∧ st.first.2 ≠ st.last.2 then refuse else pure ()

def payDiagonal (check : Bool) : Spends Unit :=
  if check then consume (2 ^ atomIds.length * wordsOf w) else pure ()

def admitTerms (optional singleProduct : Bool) : Spends Unit := do
  payDiagonal atomIds w (checksExtremes terms atomIds singleProduct)
  let b ← budget
  if b.unlimited && !checksExtremes terms atomIds singleProduct then pure ()
  else do
    let st ← terms.foldlM (admitTerm ctx atomIds w (checksExtremes terms atomIds singleProduct)
      optional) {}
    if checksExtremes terms atomIds singleProduct then rejectSums atomIds w st else pure ()

/-- The minterms add up to minus one, which takes in the constants. -/
def constantPart : BitVec w :=
  terms.foldl (fun c t => if t.factors = [] then c - t.coeff.read w else c) 0

def addLinear {w : Nat} (coeff : BitVec w) (ms : List Nat) (linear : Row w) : Row w :=
  ms.foldl (fun out m => Function.update out m (out m + coeff)) linear

def expandProduct {w : Nat} (optional : Bool) (coeff : BitVec w) (selected : List (List Nat))
    (form : PolyForm w) : Spends (PolyForm w) :=
  if selected.any List.isEmpty then pure form
  else do
    let b ← budget
    if ¬ b.canConsume (saturatingProduct selected 1) then
      rejectWork optional (saturatingProduct selected 1)
    else do
      let higher ← forEachMonomial selected (fun higher key => addCoefficient coeff key higher)
        form.higher
      let b ← budget
      if b.exhausted then refuse else pure { form with higher }

def expandTerm (optional : Bool) (form : PolyForm w) (t : PolyTerm) : Spends (PolyForm w) :=
  if t.factors = [] then pure form
  else match t.factors.mapM fun f => (bitwiseTable ctx f atomIds).map TruthTable.patterns with
    | none => refuse
    | some selected =>
      if t.factors.length = 1 then
        pure { form with linear := addLinear (t.coeff.read w) (selected.headD []) form.linear }
      else expandProduct optional (t.coeff.read w) selected { form with sawProduct := true }

def dropZeros {w : Nat} (form : PolyForm w) : PolyForm w :=
  let higher := form.higher.filter fun e => e.2 ≠ 0
  { form with higher, degree := (higher.map fun e => e.1.length).foldl max form.degree }

def expandOverMinterms (optional singleProduct : Bool) : Spends (PolyForm w) :=
  if atomIds.length > kMaxTruthTableAtoms then refuse
  else do
    admitTerms ctx terms atomIds w optional singleProduct
    let form ← terms.foldlM (expandTerm ctx atomIds w optional)
      { linear := fun _ => constantPart terms w }
    pure (dropZeros form)

end NeverD.Mba
