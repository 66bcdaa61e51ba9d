import NeverD.Sbf.Structurer

namespace NeverD.Sbf

lemma SBFProgram.branches_eq {p : SBFProgram} {block : Nat} {t : MedInstruction}
    (ht : p.terminator block = some t) : p.branches block = isConditional t.op := by
  unfold SBFProgram.branches
  rw [ht]
  rfl

def SBFProgram.exits (p : SBFProgram) (block : Nat) : Bool :=
  (p.terminator block).any (·.op = .exit)

lemma SBFProgram.follow_exit {p : SBFProgram} {block : Nat} (h : p.exits block = true)
    (outcome : Bool) : p.follow block outcome = none := by
  unfold SBFProgram.exits at h
  unfold SBFProgram.follow
  cases ht : p.terminator block with
  | none => rfl
  | some t =>
    rw [ht] at h
    have hop : t.op = .exit := of_decide_eq_true h
    dsimp only
    rw [hop]
    rfl

namespace StructuredControlFlow

def pop : List (Option Nat) → Option (Nat × List (Option Nat))
  | [] => none
  | none :: stack => pop stack
  | some i :: stack => some (i, stack)

/-- The first `n` blocks of a walk of the plan. -/
def walk (r : StructuredControlFlow) (p : SBFProgram) : Nat → List (Option Nat) →
    (Nat → Bool) → List Nat
  | 0, _, _ => []
  | n + 1, stack, outcomes =>
    match pop stack with
    | none => []
    | some (i, stack) =>
      match r.nodes[i]? with
      | none => []
      | some node =>
        node.block :: match node.kind with
          | .block => if p.exits node.block then [] else r.walk p n (node.next :: stack) outcomes
          | .ifNode =>
            r.walk p n ((if outcomes 0 then node.body else node.alternative) :: node.next :: stack)
              fun k => outcomes (k + 1)
          | .loop =>
            if outcomes 0 = node.conditionTrueEntersBody then
              r.walk p n (node.body :: some i :: stack) fun k => outcomes (k + 1)
            else r.walk p n (node.next :: stack) fun k => outcomes (k + 1)

/-- The nodes from a link on visit the blocks of the graph from `c` on, and end at `stop`. -/
inductive Follows (p : SBFProgram) (r : StructuredControlFlow) :
    Option Nat → Nat → Option Nat → Prop
  | stop {c : Nat} : Follows p r none c (some c)
  | exit {i : Nat} {node : StructuredNode} {stop : Option Nat} (hnode : r.nodes[i]? = some node)
      (hkind : node.kind = .block) (he : p.exits node.block = true) :
      Follows p r (some i) node.block stop
  | block {i d : Nat} {node : StructuredNode} {stop : Option Nat} (hnode : r.nodes[i]? = some node)
      (hkind : node.kind = .block) (he : p.exits node.block = false)
      (hb : p.branches node.block = false)
      (hd : ∀ outcome, p.follow node.block outcome = some d)
        (hnext : Follows p r node.next d stop) :
      Follows p r (some i) node.block stop
  | ifNode {i t f : Nat} {node : StructuredNode} {join stop : Option Nat}
      (hnode : r.nodes[i]? = some node)
      (hkind : node.kind = .ifNode) (hb : p.branches node.block = true)
        (ht : p.follow node.block true = some t)
      (hf : p.follow node.block false = some f) (hbody : Follows p r node.body t join)
      (halt : Follows p r node.alternative f join) (hnext : ∀ x, join = some x →
        Follows p r node.next x stop) :
      Follows p r (some i) node.block stop
  | loop {i b x : Nat} {node : StructuredNode} {stop : Option Nat} (hnode : r.nodes[i]? = some node)
      (hkind : node.kind = .loop) (hb : p.branches node.block = true)
      (hin : p.follow node.block node.conditionTrueEntersBody = some b)
      (hout : p.follow node.block (!node.conditionTrueEntersBody) = some x)
      (hbody : Follows p r node.body b (some node.block)) (hnext : Follows p r node.next x stop) :
      Follows p r (some i) node.block stop

/-- The rest of the stack goes on from the block where a sequence stops. -/
inductive Stacked (p : SBFProgram) (r : StructuredControlFlow) :
    List (Option Nat) → Option Nat → Prop
  | never {stack : List (Option Nat)} : Stacked p r stack none
  | cons {link : Option Nat} {stack : List (Option Nat)} {c : Nat} {stop : Option Nat}
      (hf : Follows p r link c stop) (hs : Stacked p r stack stop) :
      Stacked p r (link :: stack) (some c)

variable {p : SBFProgram} {r : StructuredControlFlow}

theorem pop_follows {stack : List (Option Nat)} {link : Option Nat} {c : Nat} {stop : Option Nat}
    (hf : Follows p r link c stop) (hs : Stacked p r stack stop) :
    ∃ i rest stop', pop (link :: stack) = some (i, rest) ∧ Follows p r (some i) c stop' ∧
      Stacked p r rest stop' := by
  induction stack generalizing link stop with
  | nil =>
    cases link with
    | some i => exact ⟨i, [], stop, rfl, hf, hs⟩
    | none =>
      cases hf
      cases hs
  | cons next stack ih =>
    cases link with
    | some i => exact ⟨i, next :: stack, stop, rfl, hf, hs⟩
    | none =>
      cases hf
      cases hs with
      | cons hf' hs' => exact ih hf' hs'

lemma walk_eq {n : Nat} {stack : List (Option Nat)} {link : Option Nat} {c : Nat}
    {stop : Option Nat}
    {outcomes : Nat → Bool} (hf : Follows p r link c stop) (hs : Stacked p r stack stop) :
    r.walk p n (link :: stack) outcomes = p.walk n c outcomes := by
  induction n generalizing link stack c stop outcomes with
  | zero => rfl
  | succ n ih =>
    obtain ⟨i, rest, stop', hpop, hfirst, hrest⟩ := pop_follows hf hs
    rw [walk, hpop, SBFProgram.walk]
    dsimp only
    cases hfirst with
    | exit hnode hkind he =>
      rw [hnode, p.follow_exit he]
      dsimp only
      rw [hkind]
      dsimp only
      rw [if_pos he]
    | block hnode hkind he hb hd hnext =>
      rw [hnode, hd]
      dsimp only
      rw [hkind, he, hb]
      exact congrArg _ (ih hnext hrest)
    | @ifNode _ t f node join _ hnode hkind hb ht hfall hbody halt hnext =>
      -- Behind the arms stands the next node, if an arm can end at all.
      have hstack : Stacked p r (node.next :: rest) join := by
        cases join with
        | none => exact .never
        | some x => exact .cons (hnext x rfl) hrest
      rw [hnode, hb]
      dsimp only
      rw [hkind]
      dsimp only
      congr 1
      cases outcomes 0 with
      | true =>
        rw [ht]
        exact ih hbody hstack
      | false =>
        rw [hfall]
        exact ih halt hstack
    | @loop _ b x node _ hnode hkind hb hin hout hbody hnext =>
      rw [hnode, hb]
      dsimp only
      rw [hkind]
      congr 1
      by_cases hcond : outcomes 0 = node.conditionTrueEntersBody
      · -- After the body the loop node is visited again.
        rw [if_pos hcond, hcond, hin]
        exact ih hbody (.cons (.loop hnode hkind hb hin hout hbody hnext) hrest)
      · have hflip : outcomes 0 = !node.conditionTrueEntersBody := by
          rwa [← ne_eq, ← Bool.eq_not] at hcond
        rw [if_neg hcond, hflip, hout]
        exact ih hnext hrest

end StructuredControlFlow

end NeverD.Sbf
