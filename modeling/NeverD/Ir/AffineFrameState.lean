import Mathlib.Data.Int.Bitwise
import NeverD.Ir.FrameEquations

namespace NeverD.Ir

open NeverD.Lib

namespace AffineFrameState

/-- An anchor by its number, and the offset from it. -/
abbrev Result := FrameInput (Nat × Int)

abbrev State := Flat (Nat × Int)

structure User where
  node : Nat
  step : FrameStep
deriving DecidableEq

structure Node where
  users : List User := []
  initial : State := .unknown
  current : State := .unknown
  defined : Bool := false

structure PendingEdge where
  source : Nat
  target : User
deriving DecidableEq

structure Origin where
  anchor : Nat
  offset : Int
  alignment : Nat
deriving DecidableEq

end AffineFrameState

structure AffineFrameState where
  nodes : Nat → AffineFrameState.Node := fun _ => {}
  size : Nat := 0
  pending : List AffineFrameState.PendingEdge := []
  anchors : List AffineFrameState.Origin := []
  solvedCount : Nat := 0

namespace AffineFrameState

def meet : State → State → State × Bool
  | target, .unknown => (target, false)
  | .invalid, _ => (.invalid, false)
  | .unknown, input => (input, true)
  | .value _, .invalid => (.invalid, true)
  | .value v, .value w => if v ≠ w then (.invalid, true) else (.value v, false)

def step (anchors : List Origin) (source : State) (e : FrameStep) : List Origin × State :=
  match source with
  | .value (anchor, offset) =>
    if e.alignment = 0 then
      match checkedAffineOffset offset e.delta e.subtract with
      | some offset => (anchors, .value (anchor, offset))
      | none => (anchors, .invalid)
    -- An anchor at least as aligned is a multiple of the alignment, which commutes with it.
    else if anchor ≠ 0 ∧ ∃ origin ∈ anchors[anchor - 1]?, e.alignment ≤ origin.alignment then
      (anchors, .value (anchor, Int.land offset (-e.alignment)))
    else
      let origin : Origin := ⟨anchor, offset, e.alignment⟩
      if origin ∈ anchors then (anchors, .value (anchors.idxOf origin + 1, 0))
      else (anchors ++ [origin], .value (anchors.length + 1, 0))
  | _ => (anchors, .invalid)

def stateOf : Result → State
  | .value c => .value c
  | _ => .invalid

def reference (s : AffineFrameState) : AffineFrameState × Result :=
  ({ s with nodes := Function.update s.nodes s.size {}, size := s.size + 1 }, .reference s.size)

/-- A node that was queried before is solved again with its old users. -/
def defineNode (s : AffineFrameState) (node : Nat) : AffineFrameState :=
  let nodes := Function.update s.nodes node { s.nodes node with defined := true }
  if node < s.solvedCount then { s with nodes := nodes, solvedCount := 0, pending := [] }
    else { s with nodes := nodes }

def defineInput (u : User) (s : AffineFrameState) (input : Result) : AffineFrameState :=
  match input with
  | .reference m =>
    { s with
      nodes := Function.update s.nodes m { s.nodes m with users := (s.nodes m).users ++ [u] }
      pending := if m < s.solvedCount then s.pending ++ [⟨m, u⟩] else s.pending }
  | input =>
    let r := step s.anchors (stateOf input) u.step
    { s with
      anchors := r.1
      nodes := Function.update s.nodes u.node
        { s.nodes u.node with initial := (meet (s.nodes u.node).initial r.2).1 } }

/-- Defining a node twice, or one that is not there, fails an assertion. -/
def defineInputs (s : AffineFrameState) (target : Result) (inputs : List Result) (e : FrameStep) :
    Option (AffineFrameState × Bool) :=
  match target with
  | .reference node =>
    if node < s.size ∧ (s.nodes node).defined = false then
      some (inputs.foldl (defineInput ⟨node, e⟩) (s.defineNode node), true)
    else none
  | _ => some (s, false)

def define (s : AffineFrameState) (target input : Result) : Option (AffineFrameState × Bool) :=
  s.defineInputs target [input] {}

end AffineFrameState

/-- Whether there is a node among the inputs, and the coordinate of all others. Fails where they
differ. -/
def mergeCommon {α : Type} [DecidableEq α] : List (FrameInput α) → Bool → Option α →
    Option (Bool × Option α)
  | [], hasReference, common => some (hasReference, common)
  | .invalid :: _, _, _ => none
  | .reference _ :: inputs, _, common => mergeCommon inputs true common
  | .value c :: inputs, hasReference, some common =>
    if common ≠ c then none else mergeCommon inputs hasReference (some c)
  | .value c :: inputs, hasReference, none => mergeCommon inputs hasReference (some c)

namespace AffineFrameState

def merge (s : AffineFrameState) (inputs : List Result) : Option (AffineFrameState × Result) :=
  match inputs with
  | [] => some (s, .invalid)
  | first :: rest =>
    match mergeCommon inputs false none with
    | none => some (s, .invalid)
    | some (false, some common) => some (s, .value common)
    | some (false, none) => some (s, .invalid)
    | some (true, _) =>
      if rest = [] then some (s, first)
      else
        let r := s.reference
        (r.1.defineInputs r.2 inputs {}).map fun d => (d.1, if d.2 then r.2 else .invalid)

def adjust (s : AffineFrameState) (input : Result) (delta : Int) (subtract : Bool) :
    Option (AffineFrameState × Result) :=
  match input with
  | .invalid => some (s, .invalid)
  | .value (anchor, offset) =>
    match checkedAffineOffset offset delta subtract with
    | some offset => some (s, .value (anchor, offset))
    | none => some (s, .invalid)
  | .reference _ =>
    -- Each arithmetic step is kept: combined deltas could hide an overflow between them.
    let r := s.reference
    (r.1.defineInputs r.2 [input] { delta := delta, subtract := subtract }).map fun d =>
      (d.1, if d.2 then r.2 else .invalid)

def takesAlignment (alignment : Nat) : Bool :=
  decide (2 ≤ alignment) && decide (alignment ≤ MaxAlignment) &&
    decide (alignment &&& (alignment - 1) = 0)

def align (s : AffineFrameState) (input : Result) (alignment : Nat) :
    Option (AffineFrameState × Result) :=
  if takesAlignment alignment = false then some (s, .invalid)
  else
    match input with
    | .invalid => some (s, .invalid)
    | .value c =>
      let r := step s.anchors (.value c) { alignment := alignment }
      match r.2 with
      | .value aligned => some ({ s with anchors := r.1 }, .value aligned)
      | _ => some ({ s with anchors := r.1 }, .invalid)
    | .reference _ =>
      let r := s.reference
      (r.1.defineInputs r.2 [input] { alignment := alignment }).map fun d =>
        (d.1, if d.2 then r.2 else .invalid)

structure Work where
  state : AffineFrameState
  queue : List Nat

def enqueue (queue : List Nat) (index : Nat) : List Nat :=
  if index ∈ queue then queue else queue ++ [index]

def setCurrent (s : AffineFrameState) (n : Nat) (current : State) : AffineFrameState :=
  { s with nodes := Function.update s.nodes n { s.nodes n with current := current } }

def propagateEdge (w : Work) (source : State) (u : User) : Work :=
  let r := step w.state.anchors source u.step
  let m := meet (w.state.nodes u.node).current r.2
  { state := { w.state with anchors := r.1 }.setCurrent u.node m.1
    queue := if m.2 then enqueue w.queue u.node else w.queue }

def propagatePending (w : Work) (p : PendingEdge) : Work :=
  propagateEdge w (w.state.nodes p.source).current p.target

/-- Tells the users of the queued nodes. -/
def propagate : Nat → Work → Work
  | 0, w => w
  | fuel + 1, w =>
    match w.queue with
    | [] => w
    | index :: queue =>
      let node := w.state.nodes index
      propagate fuel (node.users.foldl (fun w u => propagateEdge w node.current u)
        { w with queue := queue })

def resetNode (w : Work) (n : Nat) : Work :=
  let initial := (w.state.nodes n).initial
  { state := w.state.setCurrent n initial
    queue := if initial = .unknown then w.queue else enqueue w.queue n }

/-- A value from another input cannot vouch for an input that nothing reaches. -/
def invalidateNode (w : Work) (n : Nat) : Work :=
  if (w.state.nodes n).current = .unknown then
    { state := w.state.setCurrent n .invalid, queue := enqueue w.queue n }
  else w

def unsolved (s : AffineFrameState) : List Nat :=
  (List.range (s.size - s.solvedCount)).map (s.solvedCount + ·)

def solve (s : AffineFrameState) : AffineFrameState :=
  let fuel := 3 * s.size
  let w := s.unsolved.foldl resetNode { state := s, queue := [] }
  -- Existing equations are immutable, so only the new edges of solved nodes are replayed.
  let w := propagate fuel (s.pending.foldl propagatePending w)
  let w := propagate fuel (s.unsolved.foldl invalidateNode w)
  { w.state with pending := [], solvedCount := s.size }

def value (s : AffineFrameState) (input : Result) : AffineFrameState × Result :=
  match input with
  | .reference node =>
    let s := if s.solvedCount ≤ node then s.solve else s
    match (s.nodes node).current with
    | .value c => (s, .value c)
    | _ => (s, .invalid)
  | input => (s, input)

/-- The offsets from the incoming stack pointer between which an anchor lies. -/
def boundsFrom (anchors : List Origin) : Nat → Nat → Int → Int → Option (Int × Int)
  | 0, anchor, low, high => if anchor = 0 then some (low, high) else none
  | fuel + 1, anchor, low, high =>
    if anchor = 0 then some (low, high)
    else
      match anchors[anchor - 1]? with
      | none => none
      | some origin =>
        match checkedAffineOffset high origin.offset false,
            (checkedAffineOffset low origin.offset false).bind fun shifted =>
              checkedAffineOffset shifted ((origin.alignment : Int) - 1) true with
        | some newHigh, some newLow => boundsFrom anchors fuel origin.anchor newLow newHigh
        | _, _ => none

def anchorBounds (s : AffineFrameState) (anchor : Nat) : Option (Int × Int) :=
  boundsFrom s.anchors anchor anchor 0 0

end AffineFrameState

end NeverD.Ir
