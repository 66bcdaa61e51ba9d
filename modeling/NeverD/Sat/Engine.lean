import Mathlib.Data.List.Dedup
import NeverD.Lib.Cnf
import NeverD.Sat.Queue

namespace NeverD.Sat
open Lib

abbrev SatLit := Lit Nat

/-- The packed word of a literal, which is also the order clauses are sorted by. -/
def SatLit.index (l : SatLit) : Nat := 2 * l.var + l.negated.toNat

def kMaxSatVar : Nat := 2 ^ 31 - 2
def kMaxArenaWords : Nat := 2 ^ 32 - 2
def kHeaderWords : Nat := 3
def kMaxU64 : Nat := 2 ^ 64 - 1

/-- A clause's offset in the arena. -/
abbrev ClauseRef := Nat

inductive SatResult
  | unsat
  | sat
  | unknown
  | invalid
deriving DecidableEq, Repr

inductive SatValue
  | false
  | true
  | unknown
deriving DecidableEq, Repr

/-- The floating-point operations of the heuristics. Nothing depends on what they compute, so they
are parameters. -/
class FloatArith (R : Type) where
  ofNat : Nat → R
  ofScientific : Nat → Bool → Nat → R
  add : R → R → R
  sub : R → R → R
  mul : R → R → R
  div : R → R → R
  lt : R → R → Bool
  le : R → R → Bool
  ne : R → R → Bool
  /-- The nearest `float`. -/
  toFloat : R → R

section
variable (R : Type) [FloatArith R]

def kVarActivityScale : R := FloatArith.ofScientific 1 true 100
def kClauseActivityScale : R := FloatArith.ofScientific 1 true 20
def kSatHeuristicVarActivityCeiling : R := FloatArith.ofScientific 1 false 100
def kSatHeuristicClauseActivityCeiling : R := FloatArith.ofScientific 1 false 20
def kSatSolverSatEngineSolveMaxLearntMaxArgument2 : R := FloatArith.ofNat 64

structure SatOptions where
  varDecay : R
  clauseDecay : R
  restartInterval : Nat
  learnedFraction : R
  learnedGrowth : R
  maxConflicts : Nat
  maxPropagations : Nat
  maxWatchVisits : Nat
  minimizeLearned : Bool
  phaseSaving : Bool
  defaultPhase : Bool

end

structure SatStats where
  decisions : Nat := 0
  conflicts : Nat := 0
  propagations : Nat := 0
  watchVisits : Nat := 0
  restarts : Nat := 0
  learnedClauses : Nat := 0
  deletedClauses : Nat := 0
  minimizedLiterals : Nat := 0

/-- A stored clause of at least two literals, with the two watched ones in front. -/
structure Clause where
  lit0 : SatLit
  lit1 : SatLit
  rest : List SatLit
  learned : Bool
  deleted : Bool := false
deriving DecidableEq, Repr

namespace Clause

def lits (c : Clause) : List SatLit := c.lit0 :: c.lit1 :: c.rest

def size (c : Clause) : Nat := c.lits.length

def words (c : Clause) : Nat := kHeaderWords + c.size

def swap01 (c : Clause) : Clause := { c with lit0 := c.lit1, lit1 := c.lit0 }

/-- Exchange `w` with the first entry that passes `free`. -/
def exchangeFirst (free : SatLit → Bool) (w : SatLit) : List SatLit → Option (SatLit × List SatLit)
  | [] => none
  | x :: xs =>
    if free x then some (x, w :: xs)
    else (exchangeFirst free w xs).map fun r => (r.1, x :: r.2)

/-- `swapLits(1, Replacement)` for the first replacement from slot two on. -/
def replaceWatch (free : SatLit → Bool) (c : Clause) : Option Clause :=
  (exchangeFirst free c.lit1 c.rest).map fun r => { c with lit1 := r.1, rest := r.2 }

end Clause

structure Watcher where
  clause : ClauseRef
  blocker : SatLit
deriving DecidableEq, Repr

structure TrailState where
  numVars : Nat := 0
  value : SatVar → Option Bool := fun _ => none
  level : SatVar → Nat := fun _ => 0
  reason : SatVar → Option ClauseRef := fun _ => none
  trail : List SatLit := []
  trailLim : List Nat := []
  queueHead : Nat := 0

/-- The clause arena, addressed by offset, and the watch lists over it. -/
structure ClauseDb where
  arena : ClauseRef → Option Clause := fun _ => none
  arenaSize : Nat := 0
  clauses : List ClauseRef := []
  learnt : List ClauseRef := []
  wastedWords : Nat := 0
  watches : SatLit → List Watcher := fun _ => []

structure Heuristics (R : Type) where
  phase : SatVar → Bool := fun _ => false
  decidable : SatVar → Bool := fun _ => false
  activity : SatVar → R
  order : ActivityQueue := {}
  varInc : R
  clauseInc : R
  maxLearnt : R
  levelSpan : ClauseRef → Nat := fun _ => 0
  clauseActivity : ClauseRef → R

/-- Counter values at which the current call gives up, zero for no bound. -/
structure Budgets where
  conflictBudgetAt : Nat := 0
  propagationBudgetAt : Nat := 0
  watchVisitBudgetAt : Nat := 0

structure SatEngine (R : Type) extends TrailState, ClauseDb, Heuristics R, Budgets where
  opts : SatOptions R
  stats : SatStats := {}
  searchAttempted : Bool := false
  falsified : Bool := false
  outOfSpace : Bool := false
  seen : SatVar → Bool := fun _ => false
  model : List (Option Bool) := []
  failedAssumptions : List SatLit := []

def TrailState.litValue (t : TrailState) (l : SatLit) : Option Bool :=
  (t.value l.var).map (· != l.negated)

def TrailState.decisionLevel (t : TrailState) : Nat := t.trailLim.length

def TrailState.newDecisionLevel (t : TrailState) : TrailState :=
  { t with trailLim := t.trailLim ++ [t.trail.length] }

def TrailState.assign (t : TrailState) (l : SatLit) (src : Option ClauseRef) : TrailState :=
  { t with
    value := Function.update t.value l.var (some (!l.negated))
    level := Function.update t.level l.var t.decisionLevel
    reason := Function.update t.reason l.var src
    trail := t.trail ++ [l] }

namespace SatEngine

variable {R : Type} [FloatArith R]

def init (opts : SatOptions R) : SatEngine R where
  activity := fun _ => FloatArith.ofNat 0
  varInc := FloatArith.ofNat 1
  clauseInc := FloatArith.ofNat 1
  maxLearnt := FloatArith.ofNat 0
  clauseActivity := fun _ => FloatArith.ofNat 0
  opts := opts

def budgetEndpoint (used allowance : Nat) : Nat :=
  if allowance = 0 then 0 else if used > kMaxU64 - allowance then kMaxU64 else used + allowance

def outOfPropagationBudget (s : SatEngine R) : Bool :=
  s.propagationBudgetAt != 0 && decide (s.propagationBudgetAt ≤ s.stats.propagations)

def outOfWatchVisitBudget (s : SatEngine R) : Bool :=
  s.watchVisitBudgetAt != 0 && decide (s.watchVisitBudgetAt ≤ s.stats.watchVisits)

def outOfBudget (s : SatEngine R) : Bool :=
  (s.conflictBudgetAt != 0 && decide (s.conflictBudgetAt ≤ s.stats.conflicts)) ||
    s.outOfPropagationBudget || s.outOfWatchVisitBudget

/-- Strict priority: more active first, and on a tie the lower number. -/
def higher (activity : SatVar → R) (a b : SatVar) : Bool :=
  if FloatArith.ne (activity a) (activity b) then FloatArith.lt (activity b) (activity a)
  else decide (a < b)

def bumpVarActivity (s : SatEngine R) (v : SatVar) : SatEngine R :=
  let raised := Function.update s.activity v (FloatArith.add (s.activity v) s.varInc)
  let exceeded := FloatArith.lt (kSatHeuristicVarActivityCeiling R) (raised v)
  let activity := if exceeded then fun u => FloatArith.mul (raised u) (kVarActivityScale R)
    else raised
  { s with
    activity := activity
    varInc := if exceeded then FloatArith.mul s.varInc (kVarActivityScale R) else s.varInc
    order := s.order.increased (higher activity) v }

def bumpClauseActivity (s : SatEngine R) (ref : ClauseRef) : SatEngine R :=
  let updated :=
    FloatArith.toFloat (FloatArith.add (s.clauseActivity ref) (FloatArith.toFloat s.clauseInc))
  let raised := Function.update s.clauseActivity ref updated
  let exceeded := !FloatArith.le updated (kSatHeuristicClauseActivityCeiling R)
  let scale := FloatArith.toFloat (kClauseActivityScale R)
  { s with
    clauseActivity :=
      if exceeded then
        fun r => if r ∈ s.learnt then FloatArith.toFloat (FloatArith.mul (raised r) scale)
          else raised r
      else raised
    clauseInc := if exceeded then FloatArith.mul s.clauseInc scale else s.clauseInc }

def decayVarActivity (s : SatEngine R) : SatEngine R :=
  { s with varInc := FloatArith.div s.varInc s.opts.varDecay }

def decayClauseActivity (s : SatEngine R) : SatEngine R :=
  { s with clauseInc := FloatArith.div s.clauseInc s.opts.clauseDecay }

/-- The first queued variable that is unassigned and may be decided. -/
def pickLoop (s : SatEngine R) : Nat → ActivityQueue → Option SatVar × ActivityQueue
  | 0, q => (none, q)
  | k + 1, q =>
    let (v, q) := q.removeMax (higher s.activity)
    if (s.value v).isSome || !s.decidable v then pickLoop s k q else (some v, q)

def pickBranchLit (s : SatEngine R) : Option SatLit × SatEngine R :=
  let (v, q) := s.pickLoop s.order.size s.order
  let positive := fun v => if s.opts.phaseSaving then s.phase v else s.opts.defaultPhase
  (v.map fun v => ⟨v, !positive v⟩, { s with order := q })

def setClause (s : SatEngine R) (ref : ClauseRef) (c : Clause) : SatEngine R :=
  { s with arena := Function.update s.arena ref (some c) }

def pushWatch (s : SatEngine R) (l : SatLit) (w : Watcher) : SatEngine R :=
  { s with watches := Function.update s.watches l (s.watches l ++ [w]) }

/-- `none` when the arena cannot hold the clause. -/
def allocClause (s : SatEngine R) (c : Clause) : Option (ClauseRef × SatEngine R) :=
  if s.arenaSize + c.words > kMaxArenaWords then none
  else
    some (s.arenaSize,
      { s with
        arena := Function.update s.arena s.arenaSize (some c)
        arenaSize := s.arenaSize + c.words
        levelSpan := Function.update s.levelSpan s.arenaSize 0
        clauseActivity := Function.update s.clauseActivity s.arenaSize (FloatArith.ofNat 0) })

def attachClause (s : SatEngine R) (ref : ClauseRef) (c : Clause) : SatEngine R :=
  (s.pushWatch c.lit0.neg ⟨ref, c.lit1⟩).pushWatch c.lit1.neg ⟨ref, c.lit0⟩

/-- Drop the entry for `ref`, moving the last entry into the hole. -/
def removeWatch (ref : ClauseRef) : List Watcher → List Watcher
  | [] => []
  | w :: ws =>
    if w.clause = ref then
      match ws.getLast? with
      | none => []
      | some z => z :: ws.dropLast
    else w :: removeWatch ref ws

def dropWatch (s : SatEngine R) (l : SatLit) (ref : ClauseRef) : SatEngine R :=
  { s with watches := Function.update s.watches l (removeWatch ref (s.watches l)) }

def detachClause (s : SatEngine R) (ref : ClauseRef) (c : Clause) : SatEngine R :=
  (s.dropWatch c.lit0.neg ref).dropWatch c.lit1.neg ref

def isLocked (s : SatEngine R) (ref : ClauseRef) (c : Clause) : Bool :=
  s.litValue c.lit0 == some true && s.reason c.lit0.var == some ref

def enqueue (s : SatEngine R) (l : SatLit) (src : Option ClauseRef) : SatEngine R :=
  { s with
    toTrailState := s.assign l src
    phase := Function.update s.phase l.var (!l.negated) }

def openLevel (s : SatEngine R) : SatEngine R :=
  { s with toTrailState := s.newDecisionLevel }

def unassign (s : SatEngine R) (l : SatLit) : SatEngine R :=
  { s with
    value := Function.update s.value l.var none
    reason := Function.update s.reason l.var none
    order :=
      if s.decidable l.var && !s.order.contains l.var then
        s.order.insert (higher s.activity) l.var
      else s.order }

def cancelUntil (s : SatEngine R) (level : Nat) : SatEngine R :=
  if s.decisionLevel ≤ level then s
  else
    let bound := s.trailLim.getD level 0
    let s := (s.trail.drop bound).reverse.foldl unassign s
    { s with
      trail := s.trail.take bound
      trailLim := s.trailLim.take level
      queueHead := bound }

/-- Scan the clauses filed under `p`. `kept` is the compacted prefix of the
list, the argument list what is still unread. -/
def scan (p : SatLit) : List Watcher → List Watcher → SatEngine R →
    Option (Option ClauseRef × SatEngine R)
  | [], kept, s => some (none, { s with watches := Function.update s.watches p kept })
  | w :: todo, kept, s =>
    if s.outOfWatchVisitBudget then
      some (none, { s with
        watches := Function.update s.watches p (kept ++ w :: todo)
        queueHead := s.queueHead - 1 })
    else
      let s := { s with
          stats := { s.stats with watchVisits := (s.stats.watchVisits + 1) % 2 ^ 64 } }
      if s.litValue w.blocker = some true then scan p todo (kept ++ [w]) s
      else
        match s.arena w.clause with
        | none => none
        | some c =>
          -- Slot one holds the falsified watch from here on.
          let c := if c.lit0 = p.neg then c.swap01 else c
          let s := s.setClause w.clause c
          if c.lit0 ≠ w.blocker ∧ s.litValue c.lit0 = some true then
            scan p todo (kept ++ [⟨w.clause, c.lit0⟩]) s
          else
            match c.replaceWatch (fun l => s.litValue l != some false) with
            | some c' =>
              scan p todo kept ((s.setClause w.clause c').pushWatch c'.lit1.neg ⟨w.clause, c.lit0⟩)
            | none =>
              let kept := kept ++ [⟨w.clause, c.lit0⟩]
              if s.litValue c.lit0 = some false then
                some (some w.clause, { s with
                  watches := Function.update s.watches p (kept ++ todo)
                  queueHead := s.trail.length })
              else scan p todo kept (s.enqueue c.lit0 (some w.clause))

/-- The falsified clause, if any. `none` outside means the fuel ran out. -/
def propagate : Nat → SatEngine R → Option (Option ClauseRef × SatEngine R)
  | 0, _ => none
  | fuel + 1, s =>
    match s.trail[s.queueHead]? with
    | none => some (none, s)
    | some p =>
      if s.outOfPropagationBudget || s.outOfWatchVisitBudget then some (none, s)
      else
        let s := { s with
          queueHead := s.queueHead + 1
          stats := { s.stats with propagations := (s.stats.propagations + 1) % 2 ^ 64 } }
        match scan p (s.watches p) [] s with
        | none => none
        | some (some c, s) => some (some c, s)
        | some (none, s) => propagate fuel s

end SatEngine

end NeverD.Sat
