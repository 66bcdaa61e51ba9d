import Mathlib.Algebra.Order.BigOperators.Group.Finset
import Mathlib.Tactic.Linarith
import NeverD.Explore.Walk

namespace NeverD.Explore
open List

variable {World State Ref : Type}

def Frontier.place (f : Frontier State Ref) : Int × Nat × (Int → UInt32) × Bool :=
  (f.blockId, f.nextOp, f.visits, f.resumed)

def Frontier.control (f : Frontier State Ref) : (Int × Nat × (Int → UInt32) × Bool) × Bool :=
  (f.place, f.infeasible)

section

variable (E : Engine World State Ref) (opts : ExploreOptions)

lemma addConstraint_control {w w' : World} {f f' : Frontier State Ref} {c : Ref} {b : Bool}
    (h : addConstraint E w f c = (w', f', b)) : f'.control = f.control := by
  have h1 : (addConstraint E w f c).2.1.control = f.control := rfl
  rw [h] at h1
  exact h1

lemma addConstraints_place (w : World) (f : Frontier State Ref) (cs : List Ref) :
    (addConstraints E w f cs).2.place = f.place := by
  induction cs generalizing w f with
  | nil => rfl
  | cons c cs ih =>
    unfold addConstraints
    split
    next w' f' he =>
      rw [ih]
      have hc := congrArg Prod.fst (addConstraint_control E he)
      exact hc
    next w' f' he =>
      have hc := congrArg Prod.fst (addConstraint_control E he)
      exact hc

lemma snapshot_place (w : World) (f : Frontier State Ref) (i : Nat) (op : LowOp) :
    (if isCall op && opts.tracksCallResults then
        match E.snapshot w f.state op with
        | (w, st, none) => (w, { f with state := st })
        | (w, st, some v) =>
          (w, { f with state := st, callResults := f.callResults ++ [(op.addr, f.blockId, i, v)] })
      else (w, f)).2.place = f.place := by
  split
  · split <;> rfl
  · rfl

lemma executeOp_place (s : Stretch World State Ref) (i : Nat) (op : LowOp) :
    (executeOp E opts s i op).frontier.place = s.frontier.place := by
  have hcount : ∀ (b : Bool) (f : Frontier State Ref),
      (if b then { f with callInvocations := countInvocation f.callInvocations (f.blockId, i) }
        else f).place = f.place := by
    intro b f
    cases b <;> rfl
  refine (snapshot_place _ _ _ _ _ _).trans ?_
  refine .trans ?_ (hcount (isCall op && opts.hasCallEffects) s.frontier)
  exact addConstraints_place E _ _ _

/-- Executing operations moves no path. -/
theorem runOps_place (block : LowBlock) (ops : List LowOp) (i : Nat) (s : Stretch World State Ref)
    (ht : s.terminator = none) : (runOps E opts block ops i s).frontier.place = s.frontier.place ∧
      ∀ t, (runOps E opts block ops i s).terminator = some t → i ≤ t.2 := by
  induction ops generalizing i s with
  | nil =>
    refine ⟨rfl, ?_⟩
    intro t h
    rw [runOps, ht] at h
    cases h
  | cons op rest ih =>
    simp only [runOps]
    split
    · refine ⟨rfl, ?_⟩
      intro t h
      exact absurd (ht.symm.trans h) (by simp)
    · generalize hs' : executeOp E opts { s with frontier :=
          { s.frontier with steps := s.frontier.steps + 1 } } i op = s'
      have hc : s'.frontier.place = s.frontier.place := by
        rw [← hs']
        exact executeOp_place E opts _ i op
      have ht' : s'.terminator = none := by
        rw [← hs']
        exact ht
      split
      · refine ⟨hc, ?_⟩
        intro t h
        rw [ht'] at h
        cases h
      · split
        · refine ⟨hc, ?_⟩
          intro t h
          cases h
          exact le_rfl
        · split
          · refine ⟨hc, ?_⟩
            intro t h
            cases h
            exact le_rfl
          · have hstep : ∀ s'' : Stretch World State Ref, s''.frontier.place = s'.frontier.place →
                s''.terminator = s'.terminator →
                (runOps E opts block rest (i + 1) s'').frontier.place = s.frontier.place ∧
                ∀ t, (runOps E opts block rest (i + 1) s'').terminator = some t → i ≤ t.2 := by
              intro s'' h1 h2
              obtain ⟨h3, h4⟩ := ih (i + 1) s'' (h2.trans ht')
              exact ⟨h3.trans (h1.trans hc), fun t h => Nat.le_of_succ_le (h4 t h)⟩
            split
            · split
              · exact hstep _ rfl rfl
              · exact hstep _ rfl rfl
            · exact hstep _ rfl rfl

lemma stretch_place (x : Explorer World State Ref) (block : LowBlock) (f : Frontier State Ref) :
    (stretch E opts x block f).frontier.place = (f.blockId, 0, f.visits, f.resumed) :=
  (runOps_place E opts block _ _ _ rfl).1

lemma stretch_terminatorIndex (x : Explorer World State Ref) (block : LowBlock)
    (f : Frontier State Ref) (hf : f.nextOp ≤ block.ops.length) :
    f.nextOp ≤ (stretch E opts x block f).terminatorIndex block := by
  have h := (runOps_place E opts block (block.ops.drop f.nextOp) f.nextOp
    { world := x.world, frontier := { f with nextOp := 0 }, shadowTrusted := x.shadowTrusted,
      executedSteps := x.executedSteps, result := .continue, terminator := none, target := none,
      condition := none, outOfSteps := false, reachedNoReturnCall := false } rfl).2
  unfold Stretch.terminatorIndex
  cases ht : (stretch E opts x block f).terminator with
  | none => simpa using hf
  | some t => exact h t ht

end

section

variable (E : Engine World State Ref) (func : LowFunc)

lemma targetOccurrence_control (block : LowBlock) (s : Stretch World State Ref) (b : Bool)
    (o : SymDecisionOccurrence) : (match b, s.terminator with
      | true, some (op, _) =>
        nextDecisionOccurrence s.frontier op (s.terminatorIndex block) .indirectBranchTarget
      | _, _ => (s.frontier, o)).1.control = s.frontier.control := by
  split <;> rfl

lemma branchOccurrence_control (block : LowBlock) (s : Stretch World State Ref)
    (o : SymDecisionOccurrence) : (match s.terminator with
      | some (op, _) => nextDecisionOccurrence s.frontier op (s.terminatorIndex block)
        .conditionalBranch
      | none => (s.frontier, o)).1.control = s.frontier.control := by
  split <;> rfl

lemma branchTurn_control (block : LowBlock) (s : Stretch World State Ref) :
    (branchTurn E func block s).frontier.control = s.frontier.control := by
  have hshadow : ∀ w f o r t, (shadowTarget E func block w f s o r t).frontier.control =
      f.control := by
    intro w f o r t
    unfold shadowTarget
    simp only
    split
    · split
      next he =>
        have hc := addConstraint_control E he
        exact hc
      next he =>
        have hc := addConstraint_control E he
        exact hc
    · rfl
  unfold branchTurn
  simp only
  split
  · exact (hshadow _ _ _ _ _).trans (targetOccurrence_control _ _ _ _)
  · exact targetOccurrence_control _ _ _ _

lemma condTurn_control (block : LowBlock) (s : Stretch World State Ref) :
    (condTurn E func block s).frontier.control = s.frontier.control := by
  have hflag : ∀ (b : Bool) (f : Frontier State Ref),
      (if b then { f with concreteComplete := false } else f).control = f.control := by
    intro b f
    cases b <;> rfl
  exact (hflag _ _).trans (branchOccurrence_control _ _ _)

lemma condTurn_continuation (block : LowBlock) (s : Stretch World State Ref) :
    (condTurn E func block s).continuation = predicatedInstructionContinuation block
    (s.terminatorIndex block) := rfl

end

variable (E : Engine World State Ref) (func : LowFunc) (opts : ExploreOptions)

/-- The path a turn leaves has counted its block and stands further on: at a block among `targets`,
or later in the same block. -/
structure Moves (block : LowBlock) (targets : List Int) (f g : Frontier State Ref) : Prop where
  visits : g.visits = entered f
  resumed : g.resumed = false
  feasible : g.infeasible = false
  place : g.nextOp = 0 ∧ g.blockId ∈ targets ∨ g.blockId = f.blockId ∧ f.nextOp < g.nextOp ∧
    g.nextOp ≤ block.ops.length

/-- What a turn leaves of a path: at most two paths, each impossible or moved on. -/
structure Leaves (block : LowBlock) (targets : List Int) (f : Frontier State Ref)
    (x x' : Explorer World State Ref) : Prop where
  waiting : x'.waiting = x.waiting
  feasible : ∀ g ∈ x'.current, g.infeasible = false
  forks : ∃ forks, x'.pending = x.pending ++ forks ∧ forks.length ≤ 1 ∧
    ∀ g ∈ x'.current.toList ++ forks, g.visits = entered f ∧
    (g.infeasible = true ∨ Moves block targets f g)

/-- The address-resolved targets the turn of a path takes. -/
def addressed (block : LowBlock) (s : Stretch World State Ref) : List Int :=
  match s.result with
  | .branch | .indirectBranch => [(branchTurn E func block s).resolution.blockId]
  | .condBranch =>
    if (condTurn E func block s).side = .notTaken then []
    else [(condTurn E func block s).resolution.blockId]
  | _ => []

variable {E func opts}

variable {f g : Frontier State Ref} {x y : Explorer World State Ref} {targets : List Int}
    {block : LowBlock}

lemma Leaves.record (hw : y.waiting = x.waiting) (hp : y.pending = x.pending)
    (o : PathOutcome) (t : Option Ref) (m m' : Option InstructionMode) :
    Leaves block targets f x (y.record g o t m m') where
  waiting := hw
  feasible := by simp [Explorer.record]
  forks := ⟨[], by simp [Explorer.record, hp], by simp, by simp [Explorer.record]⟩

lemma Leaves.goto (hc : y.current = some g) (hw : y.waiting = x.waiting)
    (hp : y.pending = x.pending) (h : Moves block targets f g) : Leaves block targets f x y where
  waiting := hw
  feasible := by simp [hc, h.feasible]
  forks := ⟨[], by simp [hp], by simp, by simp [hc, h.visits, h]⟩

/-- Where the path stands that a turn moves on: it has been counted in, and its place
is still to be set. -/
structure Ready (f g : Frontier State Ref) : Prop where
  blockId : g.blockId = f.blockId
  nextOp : g.nextOp = 0
  visits : g.visits = entered f
  resumed : g.resumed = false
  feasible : g.infeasible = false

lemma Ready.of_control {h : Frontier State Ref} (hg : Ready f g) (hc : h.control = g.control) :
    Ready f h := by
  simp only [Frontier.control, Frontier.place, Prod.mk.injEq] at hc
  exact ⟨hc.1.1.trans hg.blockId, hc.1.2.1.trans hg.nextOp, hc.1.2.2.1.trans hg.visits,
    hc.1.2.2.2.trans hg.resumed, hc.2.trans hg.feasible⟩

variable {t : CondTurn World State Ref}

lemma Leaves.walkTaken (hw : y.waiting = x.waiting) (hp : y.pending = x.pending) (hg : Ready f g)
    (ht : 0 ≤ t.resolution.blockId → t.resolution.blockId ∈ targets) :
    Leaves block targets f x (walkTaken block t y g) := by
  unfold NeverD.Explore.walkTaken
  simp only
  split
  · exact .record hw hp _ _ _ _
  · split
    · exact .record hw hp _ _ _ _
    next h =>
      exact .goto rfl hw hp ⟨hg.visits, hg.resumed, hg.feasible, .inl ⟨rfl, ht (not_lt.mp h)⟩⟩

theorem continueAt_moves (hg : Ready f g) (hn : t.hasNotTaken block = true)
    (hs : ∀ s ∈ block.succs, s ∈ targets)
    (hk : ∀ k, t.continuation = some k → f.nextOp < k ∧ k ≤ block.ops.length) :
    Moves block targets f (continueAt block t g false) := by
  unfold continueAt
  simp only [Bool.false_eq_true, if_false]
  cases hc : t.continuation with
  | some k => exact ⟨hg.visits, hg.resumed, hg.feasible, .inr ⟨hg.blockId, hk k hc⟩⟩
  | none =>
    have h0 : 0 ≤ fallthroughOf block t.resolution.blockId := by
      simpa [CondTurn.hasNotTaken, hc] using hn
    exact ⟨hg.visits, hg.resumed, hg.feasible, .inl ⟨rfl, hs _ (fallthroughOf_mem block _ h0)⟩⟩

lemma Leaves.walkNotTaken (hw : y.waiting = x.waiting)
    (hp : y.pending = x.pending) (hg : Ready f g) (hs : ∀ s ∈ block.succs, s ∈ targets)
    (hk : ∀ k, t.continuation = some k → f.nextOp < k ∧ k ≤ block.ops.length) :
    Leaves block targets f x (walkNotTaken block t y g) := by
  unfold NeverD.Explore.walkNotTaken
  split
  next hn => exact .goto rfl hw hp (continueAt_moves hg hn hs hk)
  · exact .record hw hp _ _ _ _

lemma Leaves.of_eq {z : Explorer World State Ref} (h : Leaves block targets f y z)
    (hw : y.waiting = x.waiting) (hp : y.pending = x.pending) : Leaves block targets f x z where
  waiting := h.waiting.trans hw
  feasible := h.feasible
  forks := by
    obtain ⟨forks, h1, h2⟩ := h.forks
    exact ⟨forks, h1.trans (congrArg (· ++ forks) hp), h2⟩

theorem Leaves.forked {fork : Frontier State Ref} {z : Explorer World State Ref}
    (h : Leaves block targets f y z) (hz : z.pending = y.pending) (hw : y.waiting = x.waiting)
    (hp : y.pending = x.pending ++ [fork]) (hv : fork.visits = entered f)
    (hm : fork.infeasible = true ∨ Moves block targets f fork) : Leaves block targets f x z where
  waiting := h.waiting.trans hw
  feasible := h.feasible
  forks := by
    refine ⟨[fork], hz.trans hp, by simp, ?_⟩
    obtain ⟨forks, h1, -, h3⟩ := h.forks
    intro g hg
    rcases mem_append.mp hg with hg | hg
    · exact h3 g (mem_append_left _ hg)
    · rw [mem_singleton] at hg
      rw [hg]
      exact ⟨hv, hm⟩

lemma walkTaken_pending (block : LowBlock) (t : CondTurn World State Ref)
    (y : Explorer World State Ref) (g : Frontier State Ref) :
    (walkTaken block t y g).pending = y.pending := by
  unfold walkTaken
  simp only
  split
  · rfl
  · split <;> rfl

lemma takenSide_leaves (E : Engine World State Ref) (condition : Ref) (z : Explorer World State Ref)
    (hg : Ready f t.frontier) (ht : 0 ≤ t.resolution.blockId → t.resolution.blockId ∈ targets) :
    Leaves block targets f z (match addConstraint E z.world
        (addBranchDecision t.frontier condition true false t.occurrence) condition with
      | (w, f, false) => { z with world := w }.record f .infeasible none none none
      | (w, f, true) => walkTaken block t { z with world := w } f) ∧
    (match addConstraint E z.world
        (addBranchDecision t.frontier condition true false t.occurrence) condition with
      | (w, f, false) => { z with world := w }.record f .infeasible none none none
      | (w, f, true) => walkTaken block t { z with world := w } f).pending = z.pending := by
  split
  · exact ⟨.record (by rfl) (by rfl) _ _ _ _, rfl⟩
  next he =>
    have hready := hg.of_control ((addConstraint_control E he).trans (by rfl))
    exact ⟨.walkTaken (by rfl) (by rfl) hready ht, walkTaken_pending _ _ _ _⟩

theorem walkCond_leaves (condition : Ref)
    (hw : y.waiting = x.waiting) (hp : y.pending = x.pending) (hg : Ready f t.frontier)
    (ht : t.side ≠ .notTaken → 0 ≤ t.resolution.blockId → t.resolution.blockId ∈ targets)
    (hs : ∀ s ∈ block.succs, s ∈ targets) (hk : ∀ k, t.continuation = some k → f.nextOp < k ∧
    k ≤ block.ops.length) : Leaves block targets f x (walkCond E block t y condition) := by
  have hdecision : ∀ (g : Frontier State Ref) taken concrete, g.control = t.frontier.control →
      ∀ {w w' f' c b}, addConstraint E w (addBranchDecision g condition taken concrete t.occurrence)
        c = (w', f', b) → Ready f f' := by
    intro g taken concrete hc w w' f' c b he
    exact hg.of_control ((addConstraint_control E he).trans hc)
  unfold walkCond
  simp only
  split
  · exact .record (by exact hw) (by exact hp) _ _ _ _
  · split
    next hside hconc => exact .walkTaken (by exact hw) (by exact hp) hg (ht (by simp [hside]))
    · exact .walkNotTaken (by exact hw) (by exact hp) hg hs hk
    next hside hconc =>
      split
      · exact .record (by exact hw) (by exact hp) _ _ _ _
      next he =>
        exact .walkTaken (by exact hw) (by exact hp) (hdecision _ _ _ (by rfl) he)
          (ht (by simp [hside]))
    · split
      · exact .record (by exact hw) (by exact hp) _ _ _ _
      next he =>
        exact .walkNotTaken (by exact hw) (by exact hp) (hdecision _ _ _ (by rfl) he) hs hk
    next hside =>
      have htaken := fun z => (takenSide_leaves E condition z hg (ht (by simp [hside])) :
        Leaves block _ _ _ _ ∧ _)
      cases hn : t.hasNotTaken block with
      | false =>
        simp only [Bool.false_eq_true, if_false]
        have h := (htaken { y with world := t.world, shadowTrusted := t.shadowTrusted }).1
        exact h.of_eq hw hp
      | true =>
        simp only [if_true]
        generalize hc : addConstraint E (E.mkNot t.world condition).1
          (addBranchDecision t.frontier condition false false t.occurrence)
          (E.mkNot t.world condition).2 = p
        obtain ⟨w', fork, b⟩ := p
        have hready : Ready f fork := hdecision _ _ _ rfl hc
        cases b with
        | true =>
          have hm := continueAt_moves hready hn hs hk
          have h := htaken { y with
            world := w', shadowTrusted := t.shadowTrusted
            pending := y.pending ++ [continueAt block t fork false] }
          exact .forked h.1 h.2 hw (congrArg (· ++ _) hp) hm.visits (.inr hm)
        | false =>
          have h := htaken { y with
            world := w', shadowTrusted := t.shadowTrusted
            pending := y.pending ++ [{ fork with infeasible := true }] }
          refine .forked h.1 h.2 hw (congrArg (· ++ _) hp) ?_ ?_
          · exact hready.visits
          · exact .inl rfl

lemma walkStretch_leaves {s : Stretch World State Ref} (hs : s.frontier.place =
      (f.blockId, 0, entered f, false)) (hi : f.nextOp ≤ s.terminatorIndex block)
    (hsucc : ∀ t ∈ block.succs, t ∈ targets) (ha : ∀ t ∈ addressed E func block s, 0 ≤ t →
    t ∈ targets) : Leaves block targets f x (walkStretch E func block s x) := by
  unfold walkStretch
  simp only
  split
  · exact .record (by rfl) (by rfl) _ _ _ _
  rename_i hfeas
  have hready : Ready f s.frontier := by
    simp only [Frontier.place, Prod.mk.injEq] at hs
    exact ⟨hs.1, hs.2.1, hs.2.2.1, hs.2.2.2, by simpa using hfeas⟩
  split
  · exact .record (by rfl) (by rfl) _ _ _ _
  split
  · exact .record (by rfl) (by rfl) _ _ _ _
  have hbranch : (s.result = .branch ∨ s.result = .indirectBranch) →
      ∀ y : Explorer World State Ref, y.waiting = x.waiting → y.pending = x.pending →
      Leaves block targets f x (walkBranch (branchTurn E func block s) y) := by
    intro hres y hw hp
    have hg : Ready f (branchTurn E func block s).frontier :=
      hready.of_control (branchTurn_control E func block s)
    have hmem : (branchTurn E func block s).resolution.blockId ∈ addressed E func block s := by
      rcases hres with hres | hres <;> simp [addressed, hres]
    unfold walkBranch
    simp only
    split
    · exact .record (by exact hw) (by exact hp) _ _ _ _
    · split
      · exact .record (by exact hw) (by exact hp) _ _ _ _
      · split
        · exact .record (by exact hw) (by exact hp) _ _ _ _
        next hneg =>
          refine .goto rfl (by exact hw) (by exact hp) ?_
          exact ⟨hg.visits, hg.resumed, hg.feasible, .inl ⟨hg.nextOp, ha _ hmem (not_lt.mp hneg)⟩⟩
  have hfall : ∀ y : Explorer World State Ref, y.waiting = x.waiting → y.pending = x.pending →
      Leaves block targets f x (if fallsTo block < 0 then
        y.record s.frontier .leftFunction none none none
        else { y with current := some { s.frontier with
          incomingMode := func.sourceMode s.frontier.blockId, blockId := fallsTo block } }) := by
    intro y hw hp
    split
    · exact .record (by exact hw) (by exact hp) _ _ _ _
    next hneg =>
      refine .goto rfl (by exact hw) (by exact hp) ?_
      refine ⟨hready.visits, hready.resumed, hready.feasible, .inl ⟨hready.nextOp, ?_⟩⟩
      unfold fallsTo at hneg ⊢
      split at hneg
      next hlen =>
        rw [if_pos hlen]
        obtain ⟨t, ht⟩ := length_eq_one_iff.mp hlen
        exact hsucc _ (by simp [ht])
      · exact absurd (by decide : (-1 : Int) < 0) hneg
  split
  · exact .record (by rfl) (by rfl) _ _ _ _
  · exact hfall _ rfl rfl
  · exact hfall _ rfl rfl
  next hres => exact hbranch (.inl hres) _ rfl rfl
  next hres => exact hbranch (.inr hres) _ rfl rfl
  next hres =>
    split
    · exact .record (by rfl) (by rfl) _ _ _ _
    · apply walkCond_leaves _ (by rfl) (by rfl)
        (hready.of_control (condTurn_control E func block s)) ?_ hsucc ?_
      · intro hside h0
        refine ha _ ?_ h0
        simp [addressed, hres, hside]
      · intro k hk
        rw [condTurn_continuation] at hk
        have := predicatedInstructionContinuation_eq hk
        omega

end NeverD.Explore
