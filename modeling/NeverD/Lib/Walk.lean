import Mathlib.Algebra.GroupWithZero.Nat
import Mathlib.Logic.Relation
import NeverD.Lib.Metered

namespace NeverD.Lib.Walk

inductive VisitState
  | unseen
  | active
  | complete
deriving DecidableEq

structure Memo (β : Type) where
  states : Nat → VisitState
  results : Nat → β

structure Frame where
  id : Nat
  pending : List Nat
  hasCycle : Bool

section

variable {m : Type → Type} [Monad m] {β : Type}
variable (dependencies : Nat → m (List Nat)) (evaluate : (Nat → β) → Nat → m β) (cut : β)

def push (memo : Memo β) (stack : List Frame) (id : Nat) : m (Memo β × List Frame) := do
  let pending ← dependencies id
  pure ({ memo with states := Function.update memo.states id .active },
    ⟨id, pending, false⟩ :: stack)

/-- What a node gets when all its dependencies are looked at. -/
def settle (memo : Memo β) (current : Frame) : m β :=
  if current.hasCycle then pure cut else evaluate memo.results current.id

def step (memo : Memo β) (current : Frame) (stack : List Frame) : m (Memo β × List Frame) :=
  match current.pending with
  | d :: pending =>
    match memo.states d with
    | .unseen => push dependencies memo ({ current with pending := pending } :: stack) d
    | .active => pure (memo, { current with pending := pending, hasCycle := true } :: stack)
    | .complete => pure (memo, { current with pending := pending } :: stack)
  | [] => do
    let result ← settle evaluate cut memo current
    pure (⟨Function.update memo.states current.id .complete,
      Function.update memo.results current.id result⟩, stack)

/-- The walk to the end of the stack. -/
def walk : Nat → Memo β → List Frame → m (Option (Memo β))
  | _, memo, [] => pure (some memo)
  | 0, _, _ :: _ => pure none
  | fuel + 1, memo, current :: stack => do
    let next ← step dependencies evaluate cut memo current stack
    walk fuel next.1 next.2

def classify (size fuel : Nat) (memo : Memo β) (root : Nat) : m (Option (β × Memo β)) :=
  if size ≤ root then pure (some (cut, memo))
  else if memo.states root = .complete then pure (some (memo.results root, memo))
  else do
    let first ← push dependencies memo [] root
    let final ← walk dependencies evaluate cut fuel first.1 first.2
    pure (final.map fun memo => (memo.results root, memo))

end

open Metered

variable {β : Type} {dependencies : Nat → Metered (List Nat)}
    {evaluate : (Nat → β) → Nat → Metered β} {cut : β}
variable {deps : Nat → List Nat} {eval : (Nat → β) → Nat → β}
variable (hdeps : ∀ id, Computes (dependencies id) (deps id))
variable (heval : ∀ results id, Computes (evaluate results id) (eval results id))

include hdeps in
lemma push_computes (memo : Memo β) (stack : List Frame) (id : Nat) :
    Computes (push dependencies memo stack id) (Id.run (push (m := Id) deps memo stack id)) :=
  (hdeps id).bind (computes_pure _)

include heval in
lemma settle_computes (memo : Memo β) (current : Frame) :
    Computes (settle evaluate cut memo current)
      (Id.run (settle (m := Id) eval cut memo current)) := by
  unfold settle
  split
  · exact computes_pure _
  · exact heval _ _

include hdeps heval

lemma step_computes (memo : Memo β) (current : Frame) (stack : List Frame) :
    Computes (step dependencies evaluate cut memo current stack)
      (Id.run (step (m := Id) deps eval cut memo current stack)) := by
  unfold step
  split
  · split
    · exact push_computes hdeps _ _ _
    · exact computes_pure _
    · exact computes_pure _
  · exact (settle_computes heval memo current).bind (computes_pure _)

lemma walk_computes (fuel : Nat) (memo : Memo β) (stack : List Frame) :
    Computes (walk dependencies evaluate cut fuel memo stack)
      (Id.run (walk (m := Id) deps eval cut fuel memo stack)) := by
  induction fuel generalizing memo stack with
  | zero =>
    cases stack with
    | nil => exact computes_pure _
    | cons f stack => exact computes_pure _
  | succ fuel ih =>
    cases stack with
    | nil => exact computes_pure _
    | cons f stack => exact (step_computes hdeps heval memo f stack).bind (ih _ _)

lemma classify_computes (size fuel : Nat) (memo : Memo β) (root : Nat) :
    Computes (classify dependencies evaluate cut size fuel memo root)
      (Id.run (classify (m := Id) deps eval cut size fuel memo root)) := by
  unfold classify
  split
  · exact computes_pure _
  · split
    · exact computes_pure _
    · exact (push_computes hdeps memo [] root).bind
        ((walk_computes hdeps heval fuel _ _).bind (computes_pure _))

end NeverD.Lib.Walk
