import Mathlib.Data.List.Sort
import NeverD.Sat.Engine

namespace NeverD.Sat
open Lib

/-- The smallest run of length `2^(e+1) - 1` that holds the index, with its exponent. -/
def growRun (i : Nat) : Nat → Nat → Nat → Nat × Nat
  | 0, size, e => (size, e)
  | k + 1, size, e =>
    if size < (i + 1) % 2 ^ 64 then growRun i k (2 * size + 1) (e + 1) else (size, e)

/-- Descend into the half-runs until the index names the last term of one. -/
def descendRun : Nat → Nat → Nat → Nat
  | 0, _, _ => 1
  | e + 1, size, i =>
    if size - 1 = i then 2 ^ (e + 1) else descendRun e ((size - 1) / 2) (i % ((size - 1) / 2))

def restartTerm (i : Nat) : Nat :=
  let (size, e) := growRun i 62 1 0
  descendRun e size i

namespace SatEngine

variable {R : Type} [FloatArith R]

/-- The clause being derived, slot zero apart, and the marks to undo. -/
structure Analysis where
  learnt : List SatLit := []
  toClear : List SatVar := []
  pathCount : Nat := 0

def analyzeLit (x : Analysis × SatEngine R) (q : SatLit) : Analysis × SatEngine R :=
  let (a, s) := x
  if s.seen q.var || s.level q.var == 0 then (a, s)
  else
    let s := { s with seen := Function.update s.seen q.var true }
    let a := { a with toClear := a.toClear ++ [q.var] }
    let s := s.bumpVarActivity q.var
    if s.decisionLevel ≤ s.level q.var then ({ a with pathCount := a.pathCount + 1 }, s)
    else ({ a with learnt := a.learnt ++ [q] }, s)

def analyzeClause (ref : ClauseRef) (c : Clause) (lits : List SatLit)
    (x : Analysis × SatEngine R) : Analysis × SatEngine R :=
  lits.foldl analyzeLit (x.1, if c.learned then x.2.bumpClauseActivity ref else x.2)

def analyzeWalk : Nat → Analysis × SatEngine R → Option (SatLit × Analysis × SatEngine R)
  | 0, _ => none
  | i + 1, (a, s) =>
    match s.trail[i]? with
    | none => none
    | some pivot =>
      if !s.seen pivot.var then analyzeWalk i (a, s)
      else
        let s := { s with seen := Function.update s.seen pivot.var false }
        let a := { a with pathCount := a.pathCount - 1 }
        if a.pathCount = 0 then some (pivot, a, s)
        else
          match s.reason pivot.var with
          | none => none
          | some ref =>
            match s.arena ref with
            | none => none
            | some c => analyzeWalk i (analyzeClause ref c (c.lit1 :: c.rest) (a, s))

/-- The bit a decision level contributes to the level fingerprint. -/
def levelBit (level : Nat) : Nat := 1 <<< (level % 32)

structure Marks where
  seen : SatVar → Bool
  toClear : List SatVar
  stack : List SatLit

/-- Mark the antecedents `lits`, or `none` when one of them leaves the clause. -/
def coverLits (s : SatEngine R) (mask : Nat) : List SatLit → Marks → Option Marks
  | [], m => some m
  | q :: qs, m =>
    if m.seen q.var || s.level q.var == 0 then coverLits s mask qs m
    else if (s.reason q.var).isNone || (levelBit (s.level q.var) &&& mask) == 0 then none
    else
      coverLits s mask qs ⟨Function.update m.seen q.var true, m.toClear ++ [q.var], q :: m.stack⟩

/-- The walk of `isRedundant`: an inner `none` says the literal is needed. -/
def coverLoop (s : SatEngine R) (mask : Nat) : Nat → Marks → Option (Option Marks)
  | 0, _ => none
  | fuel + 1, m =>
    match m.stack with
    | [] => some (some m)
    | q :: stack =>
      match (s.reason q.var).bind s.arena with
      | none => none
      | some c =>
        match coverLits s mask (c.lit1 :: c.rest) { m with stack := stack } with
        | none => some none
        | some m => coverLoop s mask fuel m

/-- Marks of a failed check are rolled back, those of a successful one stay. -/
def isRedundant (s : SatEngine R) (fuel : Nat) (mask : Nat) (l : SatLit) (m : Marks) :
    Option (Bool × Marks) :=
  match coverLoop s mask fuel { m with stack := [l] } with
  | none => none
  | some none => some (false, m)
  | some (some m') => some (true, { m' with stack := [] })

def minimizeLoop (s : SatEngine R) (fuel mask : Nat) : List SatLit → List SatLit → Marks →
    Option (List SatLit × Marks)
  | [], kept, m => some (kept, m)
  | l :: ls, kept, m =>
    if (s.reason l.var).isNone then minimizeLoop s fuel mask ls (kept ++ [l]) m
    else
      match s.isRedundant fuel mask l m with
      | none => none
      | some (true, m) => minimizeLoop s fuel mask ls kept m
      | some (false, m) => minimizeLoop s fuel mask ls (kept ++ [l]) m

def levelMask (s : SatEngine R) (learnt : List SatLit) : Nat :=
  learnt.foldl (fun m l => m ||| levelBit (s.level l.var)) 0

def minimize (s : SatEngine R) (fuel : Nat) (learnt : List SatLit) (toClear : List SatVar) :
    Option (List SatLit × Marks) :=
  if s.opts.minimizeLearned then
    s.minimizeLoop fuel (s.levelMask learnt) learnt [] ⟨s.seen, toClear, []⟩
  else some (learnt, ⟨s.seen, toClear, []⟩)

/-- Swap the literal of the greatest level, the first one on a tie, to the front. -/
def latestFirst (level : SatVar → Nat) : List SatLit → List SatLit
  | [] => []
  | l :: ls =>
    let top := ls.foldl (fun m q => max m (level q.var)) (level l.var)
    if level l.var = top then l :: ls
    else
      match Clause.exchangeFirst (fun q => level q.var == top) l ls with
      | none => l :: ls
      | some (m, ls) => m :: ls

def clearMarks (seen : SatVar → Bool) (toClear : List SatVar) : SatVar → Bool :=
  toClear.foldl (fun m v => Function.update m v false) seen

structure Learned where
  assert : SatLit
  others : List SatLit
  backtrackLevel : Nat
  levelSpan : Nat

def analyze (s : SatEngine R) (fuel : Nat) (conflict : ClauseRef) :
    Option (Learned × SatEngine R) :=
  match s.arena conflict with
  | none => none
  | some c =>
    match analyzeWalk s.trail.length (analyzeClause conflict c c.lits ({}, s)) with
    | none => none
    | some (pivot, a, s) =>
      match s.minimize fuel a.learnt a.toClear with
      | none => none
      | some (kept, m) =>
        let others := latestFirst s.level kept
        let levels := (pivot.neg :: others).map fun l => s.level l.var
        some (⟨pivot.neg, others, (others.head?.map fun l => s.level l.var).getD 0,
            levels.dedup.length⟩, { s with
              seen := clearMarks m.seen m.toClear
              stats := { s.stats with
                minimizedLiterals :=
                  (s.stats.minimizedLiterals + (a.learnt.length - kept.length)) % 2 ^ 64 } })

def finalWalk (s : SatEngine R) (bound : Nat) :
    Nat → (SatVar → Bool) → List SatLit → Option ((SatVar → Bool) × List SatLit)
  | 0, seen, out => some (seen, out)
  | i + 1, seen, out =>
    if i < bound then some (seen, out)
    else
      match s.trail[i]? with
      | none => none
      | some l =>
        if !seen l.var then finalWalk s bound i seen out
        else
          let seen := Function.update seen l.var false
          match s.reason l.var with
          | none => finalWalk s bound i seen (if 0 < s.level l.var then out ++ [l] else out)
          | some ref =>
            match s.arena ref with
            | none => none
            | some c =>
              finalWalk s bound i ((c.lit1 :: c.rest).foldl
                  (fun m q => if 0 < s.level q.var then Function.update m q.var true else m) seen)
                out

def analyzeFinal (s : SatEngine R) (failed : SatLit) : Option (SatEngine R) :=
  match s.trailLim with
  | [] => some { s with failedAssumptions := [failed] }
  | bound :: _ =>
    match s.finalWalk bound s.trail.length (Function.update s.seen failed.var true) [failed] with
    | none => none
    | some (seen, out) =>
      some { s with
        seen := Function.update seen failed.var false
        failedAssumptions := out }

/-- Clauses to forget first: wide level spans, then inactive ones, then late ones. -/
def worse (s : SatEngine R) (a b : ClauseRef) : Bool :=
  if s.levelSpan a ≠ s.levelSpan b then decide (s.levelSpan b < s.levelSpan a)
  else if FloatArith.ne (s.clauseActivity a) (s.clauseActivity b) then
    FloatArith.lt (s.clauseActivity a) (s.clauseActivity b)
  else decide (b < a)

def discard (s : SatEngine R) (ref : ClauseRef) (c : Clause) : SatEngine R :=
  let s := (s.detachClause ref c).setClause ref { c with deleted := true }
  { s with
    wastedWords := s.wastedWords + c.words
    stats := { s.stats with deletedClauses := (s.stats.deletedClauses + 1) % 2 ^ 64 } }

def reduceLoop (half : Nat) : Nat → List ClauseRef → List ClauseRef → SatEngine R →
    List ClauseRef × SatEngine R
  | _, [], kept, s => (kept, s)
  | i, ref :: refs, kept, s =>
    match s.arena ref with
    | none => reduceLoop half (i + 1) refs (kept ++ [ref]) s
    | some c =>
      if i < half ∧ 2 < c.size ∧ 2 < s.levelSpan ref ∧ s.isLocked ref c = false then
        reduceLoop half (i + 1) refs kept (s.discard ref c)
      else reduceLoop half (i + 1) refs (kept ++ [ref]) s

def reduceDatabase (s : SatEngine R) : SatEngine R :=
  let sorted := s.learnt.insertionSort fun a b => s.worse b a = false
  let (kept, s) := reduceLoop (sorted.length / 2) 0 sorted [] s
  { s with learnt := kept }

def newVar (s : SatEngine R) (decision : Bool) : Option SatVar × SatEngine R :=
  if s.numVars > kMaxSatVar then (none, s)
  else
    let v := s.numVars
    (some v, { s with
      numVars := v + 1
      value := Function.update s.value v none
      level := Function.update s.level v 0
      reason := Function.update s.reason v none
      phase := Function.update s.phase v s.opts.defaultPhase
      decidable := Function.update s.decidable v decision
      seen := Function.update s.seen v false
      activity := Function.update s.activity v (FloatArith.ofNat 0)
      watches := Function.update (Function.update s.watches ⟨v, false⟩ []) ⟨v, true⟩ []
      order := if decision then
        s.order.insert (higher (Function.update s.activity v (FloatArith.ofNat 0))) v
          else s.order })

/-- Collapse duplicates and drop root-false literals of a sorted clause.
`none` says that the clause is true already. -/
def simplifyClause (s : SatEngine R) : List SatLit → Option SatLit → List SatLit →
    Option (List SatLit)
  | [], _, kept => some kept
  | l :: ls, prev, kept =>
    if s.litValue l = some true then none
    else if prev = some l.neg then none
    else if s.litValue l = some false ∨ prev = some l then simplifyClause s ls prev kept
    else simplifyClause s ls (some l) (kept ++ [l])

def sortLits (lits : List SatLit) : List SatLit :=
  lits.insertionSort fun a b => SatLit.index a ≤ SatLit.index b

def addClause (s : SatEngine R) (fuel : Nat) (lits : List SatLit) : Option (Bool × SatEngine R) :=
  if s.falsified || s.outOfSpace then some (false, s)
  else
    let s := s.cancelUntil 0
    if lits.any fun l => decide (s.numVars ≤ l.var) then some (false, s)
    else
      match s.simplifyClause (sortLits lits) none [] with
      | none => some (true, s)
      | some [] => some (false, { s with falsified := true })
      | some [l] =>
        match propagate fuel (s.enqueue l none) with
        | none => none
        | some (some _, s) => some (false, { s with falsified := true })
        | some (none, s) => some (true, s)
      | some (a :: b :: rest) =>
        let c : Clause := ⟨a, b, rest, false, false⟩
        match s.allocClause c with
        | none => some (false, { s with outOfSpace := true })
        | some (ref, s) =>
          some (true, ({ s with clauses := s.clauses ++ [ref] }).attachClause ref c)

inductive Outcome (R : Type)
  | done (r : SatResult) (s : SatEngine R)
  | next (conflictsHere : Nat) (s : SatEngine R)

def kMaxSpan : Nat := 2 ^ 30 - 1

def learnClause (s : SatEngine R) (l : Learned) : Option (SatEngine R) :=
  let s := s.cancelUntil l.backtrackLevel
  match l.others with
  | [] => some (s.enqueue l.assert none)
  | b :: rest =>
    let c : Clause := ⟨l.assert, b, rest, true, false⟩
    match s.allocClause c with
    | none => none
    | some (ref, s) =>
      let s := { s with
        levelSpan := Function.update s.levelSpan ref (min l.levelSpan kMaxSpan)
        learnt := s.learnt ++ [ref] }
      let s := ((s.attachClause ref c).bumpClauseActivity ref).enqueue l.assert (some ref)
      some { s with
          stats := { s.stats with learnedClauses := (s.stats.learnedClauses + 1) % 2 ^ 64 } }

def resolveConflict (s : SatEngine R) (fuel : Nat) (conflict : ClauseRef) (here : Nat) :
    Option (Outcome R) :=
  let s := { s with stats := { s.stats with conflicts := (s.stats.conflicts + 1) % 2 ^ 64 } }
  if s.decisionLevel = 0 then some (.done .unsat { s with falsified := true })
  else
    match s.analyze fuel conflict with
    | none => none
    | some (l, s) =>
      match s.learnClause l with
      | none => some (.done .unknown { s.cancelUntil l.backtrackLevel with outOfSpace := true })
      | some s => some (.next ((here + 1) % 2 ^ 64) s.decayVarActivity.decayClauseActivity)

/-- The next assumption to decide, after opening a level for each that already holds. -/
inductive Assumed (R : Type)
  | exhausted (s : SatEngine R)
  | failed (a : SatLit) (s : SatEngine R)
  | decide (a : SatLit) (s : SatEngine R)

def placeAssumptions (s : SatEngine R) : List SatLit → Assumed R
  | [] => .exhausted s
  | a :: rest =>
    match s.litValue a with
    | some true => placeAssumptions s.openLevel rest
    | some false => .failed a s
    | none => .decide a s

def decideNext (s : SatEngine R) (assumptions : List SatLit) (here : Nat) : Option (Outcome R) :=
  match s.placeAssumptions (assumptions.drop s.decisionLevel) with
  | .failed a s =>
    match s.analyzeFinal a with
    | none => none
    | some s => some (.done .unsat s)
  | .decide a s => some (.next here (s.openLevel.enqueue a none))
  | .exhausted s =>
    match s.pickBranchLit with
    | (none, s) =>
      some (.done .sat { s with model := (List.range s.numVars).map s.value })
    | (some l, s) =>
      let s := { s with stats := { s.stats with decisions := (s.stats.decisions + 1) % 2 ^ 64 } }
      some (.next here (s.openLevel.enqueue l none))

def searchStep (fuel : Nat) (conflictBudget : Nat) (assumptions : List SatLit) (here : Nat)
    (s : SatEngine R) : Option (Outcome R) :=
  match propagate fuel s with
  | none => none
  | some (some conflict, s) => s.resolveConflict fuel conflict here
  | some (none, s) =>
    if s.outOfBudget then some (.done .unknown s)
    else if conflictBudget ≠ 0 ∧ conflictBudget ≤ here then
      some (.done .unknown (s.cancelUntil 0))
    else
      let held :=
        FloatArith.sub (FloatArith.ofNat (R := R) s.learnt.length) (FloatArith.ofNat s.trail.length)
      let s := if FloatArith.le s.maxLearnt held then s.reduceDatabase else s
      s.decideNext assumptions here

def search : Nat → Nat → List SatLit → Nat → SatEngine R → Option (SatResult × SatEngine R)
  | 0, _, _, _, _ => none
  | fuel + 1, budget, assumptions, here, s =>
    match searchStep fuel budget assumptions here s with
    | none => none
    | some (.done r s) => some (r, s)
    | some (.next here s) => search fuel budget assumptions here s

def stdMax (a b : R) : R := if FloatArith.lt a b then b else a

def restartLoop (assumptions : List SatLit) : Nat → Nat → SatEngine R →
    Option (SatResult × SatEngine R)
  | 0, _, _ => none
  | fuel + 1, restart, s =>
    if s.outOfBudget || s.outOfSpace then some (.unknown, s)
    else
      let budget := if s.opts.restartInterval = 0 then 0
        else s.opts.restartInterval * restartTerm restart % 2 ^ 64
      match search fuel budget assumptions 0 s with
      | none => none
      | some (r, s) =>
        if r = .unknown then
          restartLoop assumptions fuel ((restart + 1) % 2 ^ 64) { s with
            stats := { s.stats with restarts := (s.stats.restarts + 1) % 2 ^ 64 }
            maxLearnt :=
              FloatArith.mul s.maxLearnt (stdMax s.opts.learnedGrowth (FloatArith.ofNat 1)) }
        else some (r, s)

def prepare (s : SatEngine R) : SatEngine R :=
  let s := s.cancelUntil 0
  { s with
    conflictBudgetAt := budgetEndpoint s.stats.conflicts s.opts.maxConflicts
    propagationBudgetAt := budgetEndpoint s.stats.propagations s.opts.maxPropagations
    watchVisitBudgetAt := budgetEndpoint s.stats.watchVisits s.opts.maxWatchVisits
    maxLearnt := stdMax (FloatArith.mul (FloatArith.ofNat s.clauses.length)
        (stdMax s.opts.learnedFraction (FloatArith.ofNat 0)))
      (kSatSolverSatEngineSolveMaxLearntMaxArgument2 R) }

def finish (s : SatEngine R) : SatEngine R :=
  { s.cancelUntil 0 with
    conflictBudgetAt := 0
    propagationBudgetAt := 0
    watchVisitBudgetAt := 0 }

def solve (s : SatEngine R) (fuel : Nat) (assumptions : List SatLit) :
    Option (SatResult × SatEngine R) :=
  let s := { s with searchAttempted := true, model := [], failedAssumptions := [] }
  if assumptions.any fun a => decide (s.numVars ≤ a.var) then some (.invalid, s)
  else if s.falsified then some (.unsat, s)
  else if s.outOfSpace then some (.unknown, s)
  else
    match restartLoop assumptions fuel 0 s.prepare with
    | none => none
    | some (r, s) => some (r, s.finish)

def modelValue (s : SatEngine R) (v : SatVar) : SatValue :=
  match s.model[v]? with
  | some (some true) => .true
  | some (some false) => .false
  | _ => .unknown

def rootValue (s : SatEngine R) (l : SatLit) : SatValue :=
  if s.numVars ≤ l.var || s.falsified || s.level l.var != 0 then .unknown
  else
    match s.litValue l with
    | none => .unknown
    | some true => .true
    | some false => .false

def setOptions (s : SatEngine R) (opts : SatOptions R) : SatEngine R := { s with opts := opts }

end SatEngine

end NeverD.Sat
