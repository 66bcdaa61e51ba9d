import NeverD.Explore.Headers

namespace NeverD.Explore

open NeverD.Lib (APInt)

def kUnbounded : UInt32 := 0

inductive StepResult
  | continue | branch | condBranch | indirectBranch | ret | unmodelled
  deriving DecidableEq, Repr

inductive PathOutcome
  | returned | leftFunction | unresolvedBranch | invalidControlTarget | loopBudget | stepBudget
  | infeasible
  deriving DecidableEq, Repr

inductive SymDecisionKind
  | conditionalBranch | indirectBranchTarget
  deriving DecidableEq, Repr

structure ExploreOptions where
  maxPaths : UInt32 := 64
  maxSteps : UInt32 := 65536
  maxBlockVisits : UInt32 := 3
  maxLoopIterations : UInt32 := 3
  mergeEquivalentPaths : Bool := false
  hasCallEffects : Bool := false
  tracksCallResults : Bool := false
  concolic : Bool := false

def visitBudget (opts : ExploreOptions) (loopHeader : Bool) : UInt32 :=
  if loopHeader && opts.maxLoopIterations != kUnbounded &&
      (opts.maxBlockVisits == kUnbounded ||
        decide (opts.maxLoopIterations < opts.maxBlockVisits)) then
    opts.maxLoopIterations
  else opts.maxBlockVisits

structure DecisionSite where
  blockId : Int
  opIndex : Nat
  kind : SymDecisionKind
  deriving DecidableEq, Repr

structure SymDecisionOccurrence where
  va : Nat
  seq : Int
  site : DecisionSite
  invocation : UInt32
  deriving DecidableEq

structure SymBranchDecision (Ref : Type) where
  condition : Ref
  taken : Bool
  constraintPrefix : Nat
  concrete : Bool
  occurrence : SymDecisionOccurrence
  deriving DecidableEq

structure SymExecutedOp where
  blockId : Int
  opIndex : Nat
  va : Nat
  seq : Int
  opcode : NdOp
  deriving DecidableEq, Repr

/-- What one executed operation leaves, with the constraints its effect assumed. -/
structure Stepped (World State Ref : Type) where
  world : World
  state : State
  result : StepResult
  constraints : List Ref
  target : Option Ref
  condition : Ref

/-- The symbolic executor, expression context, call summaries and concrete shadow, as the walk calls
them. -/
structure Engine (World State Ref : Type) where
  /-- `validateLowInstructionBoundaries` accepts the block. -/
  boundariesValid : LowBlock → Bool
  /-- `SymExec::step`, with the effect the call summaries give the occurrence. -/
  step : World → State → LowOp → DecisionSite → UInt32 → List Ref → Stepped World State Ref
  /-- The value a call left in the tracked register. -/
  snapshot : World → State → LowOp → World × State × Option Ref
  asConst : World → Ref → Option APInt
  width : World → Ref → Nat
  mkConst : World → Nat → Nat → World × Ref
  mkAnd : World → List Ref → World × Ref
  mkOr : World → Ref → Ref → World × Ref
  mkNot : World → Ref → World × Ref
  mkEq : World → Ref → Ref → World × Ref
  /-- `SymState::mergeIdentical`: the merged state, when the two hold the same values. -/
  mergeIdentical : World → State → State → World × Option State
  shadowStep : World → LowOp → World × Bool
  shadowValue : World → NdVar → World × Option Nat

structure Frontier (State Ref : Type) where
  state : State
  constraints : List Ref := []
  branchDecisions : List (SymBranchDecision Ref) := []
  blocks : List Int := []
  executedOps : List SymExecutedOp := []
  callResults : List (Nat × Int × Nat × Ref) := []
  callInvocations : List ((Int × Nat) × UInt32) := []
  decisionInvocations : List (DecisionSite × UInt32) := []
  visits : Int → UInt32 := fun _ => 0
  blockId : Int
  nextOp : Nat := 0
  incomingMode : Option InstructionMode := none
  infeasible : Bool := false
  resumed : Bool := false
  steps : UInt32 := 0
  concreteBranches : UInt32 := 0
  concreteComplete : Bool := false
  mergedPaths : UInt32 := 0

/-- One finished path: the frontier it ended as, why, and the target it stopped at. -/
structure SymPath (State Ref : Type) where
  outcome : PathOutcome
  frontier : Frontier State Ref
  target : Option Ref
  sourceMode : Option InstructionMode
  destinationMode : Option InstructionMode

def invocations {κ : Type} [DecidableEq κ] (m : List (κ × UInt32)) (k : κ) : UInt32 :=
  ((m.find? fun e => e.1 = k).map Prod.snd).getD 0

def countInvocation {κ : Type} [DecidableEq κ] (m : List (κ × UInt32)) (k : κ) :
    List (κ × UInt32) :=
  if m.any fun e => e.1 = k then m.map fun e => if e.1 = k then (k, e.2 + 1) else e
  else m ++ [(k, 1)]

/-- The same keys with the same counts. -/
def sameInvocations {κ : Type} [DecidableEq κ] (l r : List (κ × UInt32)) : Bool :=
  l.length = r.length && l.all fun e => (r.find? fun e' => e'.1 = e.1).map Prod.snd = some e.2

variable {World State Ref : Type} [DecidableEq Ref]

def addConstraint (E : Engine World State Ref) (w : World) (f : Frontier State Ref) (c : Ref) :
    World × Frontier State Ref × Bool :=
  let cs := f.constraints ++ [c]
  let (w, p) := if cs.length = 1 then (w, c) else E.mkAnd w cs
  let ok := match E.asConst w p with
    | none => true
    | some v => !v.isZero
  (w, { f with constraints := cs }, ok)

def addConstraints (E : Engine World State Ref) (w : World) (f : Frontier State Ref) :
    List Ref → World × Frontier State Ref
  | [] => (w, f)
  | c :: cs =>
    match addConstraint E w f c with
    | (w, f, true) => addConstraints E w f cs
    | (w, f, false) => (w, { f with infeasible := true })

def nextDecisionOccurrence (f : Frontier State Ref) (op : LowOp) (opIndex : Nat)
    (kind : SymDecisionKind) : Frontier State Ref × SymDecisionOccurrence :=
  let site : DecisionSite := ⟨f.blockId, opIndex, kind⟩
  ({ f with decisionInvocations := countInvocation f.decisionInvocations site },
    ⟨op.addr, op.seq, site, invocations f.decisionInvocations site⟩)

def addBranchDecision (f : Frontier State Ref) (condition : Ref) (taken concrete : Bool)
    (occurrence : SymDecisionOccurrence) : Frontier State Ref :=
  { f with
    branchDecisions :=
      f.branchDecisions ++ [⟨condition, taken, f.constraints.length, concrete, occurrence⟩] }

def mergeVisits (into from_ : Int → UInt32) : Int → UInt32 := fun k => max (into k) (from_ k)

def commonConstraintPrefix : List Ref → List Ref → Nat
  | a :: as, b :: bs => if a = b then commonConstraintPrefix as bs + 1 else 0
  | _, _ => 0

def unionOfConstraints (E : Engine World State Ref) (w : World) (a b : List Ref) :
    World × List Ref :=
  let common := commonConstraintPrefix a b
  if common = a.length ∨ common = b.length then (w, a.take common)
  else
    let rest (w : World) (l : List Ref) : World × Ref :=
      match l.drop common with
      | [c] => (w, c)
      | tail => E.mkAnd w tail
    let (w, ra) := rest w a
    let (w, rb) := rest w b
    let (w, r) := E.mkOr w ra rb
    (w, a.take common ++ [r])

def commonDecisions (commonConstraints : Nat) :
    List (SymBranchDecision Ref) → List (SymBranchDecision Ref) → List (SymBranchDecision Ref)
  | a :: as, b :: bs =>
    if a ≠ b ∨ a.constraintPrefix ≥ commonConstraints then []
    else a :: commonDecisions commonConstraints as bs
  | _, _ => []

/-- The walk as a whole: the path being followed, those still to follow, those paused
at a join, and those finished. -/
structure Explorer (World State Ref : Type) where
  world : World
  current : Option (Frontier State Ref)
  pending : List (Frontier State Ref)
  waiting : List (Frontier State Ref)
  finished : List (SymPath State Ref)
  shadowTrusted : Bool
  reachablePaths : UInt32
  executedSteps : Nat
  mergedPaths : UInt32
  hitIncompleteOutcome : Bool

def Explorer.record (x : Explorer World State Ref) (f : Frontier State Ref) (outcome : PathOutcome)
    (target : Option Ref) (sourceMode destinationMode : Option InstructionMode) :
    Explorer World State Ref :=
  { x with
    current := none
    finished := x.finished ++ [⟨outcome, f, target, sourceMode, destinationMode⟩]
    reachablePaths := if outcome = .infeasible then x.reachablePaths else x.reachablePaths + 1
    hitIncompleteOutcome := x.hitIncompleteOutcome ||
      [.unresolvedBranch, .invalidControlTarget, .loopBudget, .stepBudget].contains outcome }

def absorb (E : Engine World State Ref) (w : World) (waiter f : Frontier State Ref)
    (state : State) : World × Frontier State Ref :=
  let kept := commonDecisions (commonConstraintPrefix waiter.constraints f.constraints)
    waiter.branchDecisions f.branchDecisions
  let (w, cs) := unionOfConstraints E w waiter.constraints f.constraints
  (w, { waiter with
    state := state
    branchDecisions := kept
    concreteBranches := (kept.filter SymBranchDecision.concrete).length.toUInt32
    constraints := cs
    visits := mergeVisits waiter.visits f.visits
    steps := max waiter.steps f.steps
    concreteComplete := waiter.concreteComplete && f.concreteComplete
    mergedPaths := waiter.mergedPaths + (f.mergedPaths + 1) })

def absorbInto (E : Engine World State Ref) (w : World) (f : Frontier State Ref) :
    List (Frontier State Ref) → World × Option (List (Frontier State Ref))
  | [] => (w, none)
  | waiter :: rest =>
    if waiter.blockId ≠ f.blockId ∨ waiter.nextOp ≠ f.nextOp ∨
        sameInvocations waiter.callInvocations f.callInvocations = false ∨
        sameInvocations waiter.decisionInvocations f.decisionInvocations = false then
      match absorbInto E w f rest with
      | (w, r) => (w, r.map (waiter :: ·))
    else
      match E.mergeIdentical w waiter.state f.state with
      | (w, none) =>
        match absorbInto E w f rest with
        | (w, r) => (w, r.map (waiter :: ·))
      | (w, some state) =>
        match absorb E w waiter f state with
        | (w, waiter) => (w, some (waiter :: rest))

def pauseAtJoin (E : Engine World State Ref) (x : Explorer World State Ref)
    (f : Frontier State Ref) : Explorer World State Ref :=
  match absorbInto E x.world f x.waiting with
  | (w, none) => { x with world := w, current := none, waiting := x.waiting ++ [f] }
  | (w, some waiting) =>
    { x with
      world := w, current := none, waiting := waiting
      mergedPaths := x.mergedPaths + (f.mergedPaths + 1) }

structure Stretch (World State Ref : Type) where
  world : World
  frontier : Frontier State Ref
  shadowTrusted : Bool
  executedSteps : Nat
  result : StepResult
  /-- The operation control left at, with its index. -/
  terminator : Option (LowOp × Nat)
  target : Option Ref
  condition : Option Ref
  outOfSteps : Bool
  reachedNoReturnCall : Bool

def isCall (op : LowOp) : Bool := op.opcode = .call || op.opcode = .indirCall

def executeOp (E : Engine World State Ref) (opts : ExploreOptions) (s : Stretch World State Ref)
    (opIndex : Nat) (op : LowOp) : Stretch World State Ref :=
  let f := s.frontier
  let counted := isCall op && opts.hasCallEffects
  let key := (f.blockId, opIndex)
  let invocation := invocations f.callInvocations key
  let f := if counted then { f with callInvocations := countInvocation f.callInvocations key }
    else f
  let r := E.step s.world f.state op ⟨f.blockId, opIndex, .conditionalBranch⟩
    invocation f.constraints
  let (w, f) := addConstraints E r.world { f with state := r.state } r.constraints
  let f := { f with
      executedOps := f.executedOps ++ [⟨f.blockId, opIndex, op.addr, op.seq, op.opcode⟩] }
  let (w, f) :=
    if isCall op && opts.tracksCallResults then
      match E.snapshot w f.state op with
      | (w, st, none) => (w, { f with state := st })
      | (w, st, some v) =>
        (w, { f with
            state := st, callResults := f.callResults ++ [(op.addr, f.blockId, opIndex, v)] })
    else (w, f)
  { s with world := w, frontier := f, executedSteps := s.executedSteps + 1, result := r.result,
           target := r.target, condition := some r.condition }

def runOps (E : Engine World State Ref) (opts : ExploreOptions) (block : LowBlock) :
    List LowOp → Nat → Stretch World State Ref → Stretch World State Ref
  | [], _, s => s
  | op :: rest, opIndex, s =>
    let s := { s with frontier := { s.frontier with steps := s.frontier.steps + 1 } }
    if opts.maxSteps ≠ kUnbounded ∧ s.frontier.steps > opts.maxSteps then
      { s with outOfSteps := true }
    else
      let s := executeOp E opts s opIndex op
      if s.frontier.infeasible then s
      else if isCall op && ((instructionBoundaryForOp block opIndex).any fun b =>
          hasLowInstructionControlFlag b.controlFlags noReturnFlag) then
        { s with terminator := some (op, opIndex), reachedNoReturnCall := true }
      else if s.result ≠ .continue ∧ s.result ≠ .unmodelled then
        { s with terminator := some (op, opIndex) }
      else if s.shadowTrusted then
        match E.shadowStep s.world op with
        | (w, true) => runOps E opts block rest (opIndex + 1) { s with world := w }
        | (w, false) =>
          runOps E opts block rest (opIndex + 1)
            { s with
              world := w, shadowTrusted := false
              frontier := { s.frontier with concreteComplete := false } }
      else runOps E opts block rest (opIndex + 1) s

def Stretch.terminatorIndex (s : Stretch World State Ref) (block : LowBlock) : Nat :=
  (s.terminator.map Prod.snd).getD block.ops.length

def stretch (E : Engine World State Ref) (opts : ExploreOptions) (x : Explorer World State Ref)
    (block : LowBlock) (f : Frontier State Ref) : Stretch World State Ref :=
  runOps E opts block (block.ops.drop f.nextOp) f.nextOp
    { world := x.world, frontier := { f with nextOp := 0 }, shadowTrusted := x.shadowTrusted,
      executedSteps := x.executedSteps, result := .continue, terminator := none, target := none,
      condition := none, outOfSteps := false, reachedNoReturnCall := false }

def resolve (E : Engine World State Ref) (func : LowFunc) (block : LowBlock) (opIndex : Nat)
    (w : World) (target : Option Ref) (targetModeOverride : Option LowInstructionTargetMode) :
    World × ControlTargetResolution × Option Ref :=
  let r := resolveControlTarget func block opIndex (target.bind (E.asConst w)) targetModeOverride
  match r.canonical with
  | none => (w, r, target)
  | some a =>
    let (w, ref) := E.mkConst w a.width a.toNat
    (w, r, some ref)

/-- Where an unconditional branch leads, and the path after a concrete run was asked for its
target. -/
structure BranchTurn (World State Ref : Type) where
  world : World
  frontier : Frontier State Ref
  shadowTrusted : Bool
  infeasible : Bool
  resolution : ControlTargetResolution
  target : Option Ref

def shadowTarget (E : Engine World State Ref) (func : LowFunc) (block : LowBlock) (w : World)
    (f : Frontier State Ref) (s : Stretch World State Ref) (occurrence : SymDecisionOccurrence)
    (r : ControlTargetResolution) (target : Option Ref) : BranchTurn World State Ref :=
  let (w, concrete) := match s.terminator.bind fun t => t.1.inputs.head? with
    | none => (w, none)
    | some v => E.shadowValue w v
  match concrete, s.target with
  | some value, some symbolic =>
    let (w, concreteTarget) := E.mkConst w (E.width w symbolic) value
    let (w, equality) := E.mkEq w symbolic concreteTarget
    let f := addBranchDecision { f with concreteBranches := f.concreteBranches + 1 } equality true
      true occurrence
    match addConstraint E w f equality with
    | (w, f, false) => ⟨w, f, s.shadowTrusted, true, r, target⟩
    | (w, f, true) =>
      let (w, r, target) :=
        resolve E func block (s.terminatorIndex block) w (some concreteTarget) none
      ⟨w, f, s.shadowTrusted, false, r, target⟩
  | _, _ => ⟨w, { f with concreteComplete := false }, false, false, r, target⟩

def branchTurn (E : Engine World State Ref) (func : LowFunc) (block : LowBlock)
    (s : Stretch World State Ref) : BranchTurn World State Ref :=
  let indirect := decide (s.result = .indirectBranch)
  let index := s.terminatorIndex block
  let noOccurrence : SymDecisionOccurrence := ⟨0, -1, ⟨-1, 0, .indirectBranchTarget⟩, 0⟩
  let (f, occurrence) := match indirect, s.terminator with
    | true, some (op, _) => nextDecisionOccurrence s.frontier op index .indirectBranchTarget
    | _, _ => (s.frontier, noOccurrence)
  let (w, r, target) := resolve E func block index s.world s.target none
  if !r.invalid && decide (r.blockId < 0) && !r.isConcrete && indirect && s.shadowTrusted then
    shadowTarget E func block w f s occurrence r target
  else ⟨w, f, s.shadowTrusted, false, r, target⟩

inductive Side
  | taken | notTaken | both
  deriving DecidableEq, Repr

/-- What a conditional branch does: its resolution and the side to walk. -/
structure CondTurn (World State Ref : Type) where
  world : World
  frontier : Frontier State Ref
  shadowTrusted : Bool
  occurrence : SymDecisionOccurrence
  continuation : Option Nat
  resolution : ControlTargetResolution
  target : Option Ref
  side : Side
  /-- The concrete run chose the side. -/
  concrete : Bool

def sideOf (taken : Bool) : Side := if taken then .taken else .notTaken

/-- The side of a conditional branch: decided by the expression, by the concrete run, or open. -/
def chooseSide (E : Engine World State Ref) (w : World) (s : Stretch World State Ref) :
    World × Side × Bool × Bool :=
  match s.condition.bind (E.asConst w) with
  | some c => (w, sideOf (!c.isZero), false, s.shadowTrusted)
  | none =>
    if s.shadowTrusted then
      match s.terminator.bind fun t => t.1.inputs[1]? with
      | none => (w, .both, false, false)
      | some v =>
        match E.shadowValue w v with
        | (w, some d) => (w, sideOf (d ≠ 0), true, true)
        | (w, none) => (w, .both, false, false)
    else (w, .both, false, false)

def condTurn (E : Engine World State Ref) (func : LowFunc) (block : LowBlock)
    (s : Stretch World State Ref) : CondTurn World State Ref :=
  let index := s.terminatorIndex block
  let (f, occurrence) := match s.terminator with
    | some (op, _) => nextDecisionOccurrence s.frontier op index .conditionalBranch
    | none => (s.frontier, ⟨0, -1, ⟨-1, 0, .conditionalBranch⟩, 0⟩)
  let continuation := predicatedInstructionContinuation block index
  let (w, r, target) := resolve E func block index s.world s.target
    (continuation.map fun _ => LowInstructionTargetMode.preserve)
  let (w, side, concrete, trusted) := chooseSide E w s
  -- a concrete run that cannot answer is not asked again
  let f := if s.shadowTrusted && !trusted then { f with concreteComplete := false } else f
  ⟨w, f, trusted, occurrence, continuation, r, target, side, concrete⟩

def continueAt (block : LowBlock) (t : CondTurn World State Ref) (f : Frontier State Ref)
    (taking : Bool) : Frontier State Ref :=
  if taking then { f with blockId := t.resolution.blockId, nextOp := 0, incomingMode := none }
  else
    match t.continuation with
    | some k => { f with nextOp := k, incomingMode := none }
    | none => { f with blockId := fallthroughOf block t.resolution.blockId, nextOp := 0,
                       incomingMode := t.resolution.sourceMode }

def CondTurn.hasNotTaken (block : LowBlock) (t : CondTurn World State Ref) : Bool :=
  t.continuation.isSome || decide (0 ≤ fallthroughOf block t.resolution.blockId)

def walkTaken (block : LowBlock) (t : CondTurn World State Ref) (x : Explorer World State Ref)
    (f : Frontier State Ref) : Explorer World State Ref :=
  let r := t.resolution
  if r.invalid then
    x.record f .invalidControlTarget t.target r.sourceMode r.destinationMode
  else if r.blockId < 0 then
    x.record f (if r.isConcrete then .leftFunction else .unresolvedBranch) t.target r.sourceMode
      r.destinationMode
  else { x with current := some (continueAt block t f true) }

def walkNotTaken (block : LowBlock) (t : CondTurn World State Ref) (x : Explorer World State Ref)
    (f : Frontier State Ref) : Explorer World State Ref :=
  if t.hasNotTaken block then { x with current := some (continueAt block t f false) }
  else x.record f .leftFunction none t.resolution.sourceMode t.resolution.sourceMode

def walkCond (E : Engine World State Ref) (block : LowBlock) (t : CondTurn World State Ref)
    (x : Explorer World State Ref) (condition : Ref) : Explorer World State Ref :=
  let x := { x with world := t.world, shadowTrusted := t.shadowTrusted }
  let f := t.frontier
  if t.resolution.invalidMetadata then
    x.record f .invalidControlTarget t.target t.resolution.sourceMode t.resolution.destinationMode
  else
    match t.side, t.concrete with
    | .taken, false => walkTaken block t x f
    | .notTaken, false => walkNotTaken block t x f
    | .taken, true =>
      let f := addBranchDecision { f with concreteBranches := f.concreteBranches + 1 } condition
        true true t.occurrence
      match addConstraint E x.world f condition with
      | (w, f, false) => { x with world := w }.record f .infeasible none none none
      | (w, f, true) => walkTaken block t { x with world := w } f
    | .notTaken, true =>
      let f := addBranchDecision { f with concreteBranches := f.concreteBranches + 1 } condition
        false true t.occurrence
      let (w, negated) := E.mkNot x.world condition
      match addConstraint E w f negated with
      | (w, f, false) => { x with world := w }.record f .infeasible none none none
      | (w, f, true) => walkNotTaken block t { x with world := w } f
    | .both, _ =>
      -- the fall-through is pushed, so that the taken side is walked first
      let x :=
        if t.hasNotTaken block then
          let (w, negated) := E.mkNot x.world condition
          match addConstraint E w (addBranchDecision f condition false false t.occurrence)
            negated with
          | (w, fork, true) =>
            { x with world := w, pending := x.pending ++ [continueAt block t fork false] }
          | (w, fork, false) =>
            { x with world := w, pending := x.pending ++ [{ fork with infeasible := true }] }
        else x
      match addConstraint E x.world (addBranchDecision f condition true false t.occurrence)
        condition with
      | (w, f, false) => { x with world := w }.record f .infeasible none none none
      | (w, f, true) => walkTaken block t { x with world := w } f

def walkBranch (t : BranchTurn World State Ref) (x : Explorer World State Ref) :
    Explorer World State Ref :=
  let x := { x with world := t.world, shadowTrusted := t.shadowTrusted }
  let r := t.resolution
  if t.infeasible then x.record t.frontier .infeasible none none none
  else if r.invalid then
    x.record t.frontier .invalidControlTarget t.target r.sourceMode r.destinationMode
  else if r.blockId < 0 then
    x.record t.frontier (if r.isConcrete then .leftFunction else .unresolvedBranch)
      t.target r.sourceMode r.destinationMode
  else { x with current := some { t.frontier with blockId := r.blockId } }

def walkReturn (E : Engine World State Ref) (func : LowFunc) (block : LowBlock)
    (s : Stretch World State Ref) (x : Explorer World State Ref) : Explorer World State Ref :=
  let index := s.terminatorIndex block
  let architectural := (instructionBoundaryForOp block index).any fun b => isAArch32 b.mode
  let (w, r, target) :=
    resolve E func block index s.world (if architectural then s.target else none) none
  { x with world := w }.record s.frontier (if r.invalid then .invalidControlTarget
    else .returned) target r.sourceMode r.destinationMode

def fallsTo (block : LowBlock) : Int :=
  if block.succs.length = 1 then block.succs.headD (-1) else -1

def walkStretch (E : Engine World State Ref) (func : LowFunc) (block : LowBlock)
    (s : Stretch World State Ref) (x : Explorer World State Ref) : Explorer World State Ref :=
  let x := { x with
      world := s.world, shadowTrusted := s.shadowTrusted, executedSteps := s.executedSteps }
  if s.frontier.infeasible then x.record s.frontier .infeasible none none none
  else if s.outOfSteps then x.record s.frontier .stepBudget none none none
  else if s.reachedNoReturnCall then
    let (w, r, target) := resolve E func block (s.terminatorIndex block) s.world s.target none
    { x with world := w }.record s.frontier (if r.invalid then .invalidControlTarget
      else .leftFunction) target r.sourceMode r.destinationMode
  else
    match s.result with
    | .ret => walkReturn E func block s x
    | .continue | .unmodelled =>
      if fallsTo block < 0 then x.record s.frontier .leftFunction none none none
      else { x with current := some { s.frontier with
          incomingMode := func.sourceMode s.frontier.blockId, blockId := fallsTo block } }
    | .branch | .indirectBranch => walkBranch (branchTurn E func block s) x
    | .condBranch =>
      match s.condition with
      | none => x.record s.frontier .leftFunction none none none
      | some condition => walkCond E block (condTurn E func block s) x condition

def entered (f : Frontier State Ref) : Int → UInt32 :=
  if f.nextOp = 0 then Function.update f.visits f.blockId (f.visits f.blockId + 1) else f.visits

def countedIn (f : Frontier State Ref) : Frontier State Ref :=
  { f with
    incomingMode := none
    resumed := false
    visits := entered f
    blocks := if f.nextOp = 0 then f.blocks ++ [f.blockId] else f.blocks }

def hasValidMetadata (E : Engine World State Ref) (block : LowBlock) : Bool :=
  block.instructionBoundaries.isEmpty || E.boundariesValid block

def walk (E : Engine World State Ref) (func : LowFunc) (opts : ExploreOptions)
    (x : Explorer World State Ref) (f : Frontier State Ref) : Explorer World State Ref :=
  match func.block f.blockId with
  | none => x.record f .leftFunction none none none
  | some block =>
    if !hasValidMetadata E block then
      x.record f .invalidControlTarget none (func.sourceMode f.blockId) none
    else if !func.modeMatches f.blockId f.incomingMode then
      x.record f .invalidControlTarget none f.incomingMode f.incomingMode
    else if decide (f.nextOp = 0) && opts.mergeEquivalentPaths && !f.resumed &&
      func.isJoin f.blockId then
      pauseAtJoin E x { f with incomingMode := none }
    else
      let allowance := visitBudget opts (func.isLoopHeader f.blockId)
      if f.nextOp = 0 ∧ allowance ≠ kUnbounded ∧ entered f f.blockId > allowance then
        x.record { f with incomingMode := none, resumed := false, visits := entered f } .loopBudget
          none none none
      else if f.nextOp > block.ops.length then
        x.record { countedIn f with nextOp := 0 } .leftFunction none none none
      else walkStretch E func block (stretch E opts x block (countedIn f)) x

/-- One turn of the exploration: `none` once its loop has ended. -/
def explorerStep (E : Engine World State Ref) (func : LowFunc) (opts : ExploreOptions)
    (x : Explorer World State Ref) : Option (Explorer World State Ref) :=
  match x.current with
  | some f => some (walk E func opts x f)
  | none =>
    if opts.maxPaths ≠ kUnbounded ∧ ¬ x.reachablePaths < opts.maxPaths then none
    else
      let pending := if x.pending.isEmpty then x.waiting.map fun f => { f with resumed := true }
        else x.pending
      let waiting := if x.pending.isEmpty then [] else x.waiting
      match pending.getLast? with
      | none => none
      | some f =>
        let x := { x with pending := pending.dropLast, waiting := waiting }
        if f.infeasible then some (x.record f .infeasible none none none)
        else some { x with current := some f }

/-- Where the exploration of a function starts: one path, at the entry block. -/
def initialExplorer (func : LowFunc) (w : World) (state : State) (shadowTrusted : Bool) :
    Explorer World State Ref :=
  { world := w, current := none,
    pending := if func.blocks.isEmpty then []
      else [{ state := state, blockId := 0, concreteComplete := shadowTrusted }],
    waiting := [], finished := [], shadowTrusted := shadowTrusted, reachablePaths := 0,
    executedSteps := 0, mergedPaths := 0, hitIncompleteOutcome := false }

end NeverD.Explore
