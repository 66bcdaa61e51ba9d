import NeverD.Sat.Final
import NeverD.Sat.Learn

namespace NeverD.Sat
open Lib List Option

namespace SatEngine

variable {R : Type} {F G : List (List SatLit)} {as : List SatLit}

def Placed (F G : List (List SatLit)) (as : List SatLit) (k : Config R) : Assumed R → Prop
  | .exhausted s => Ready F G as s ∧ s.config = k ∧ s.queueHead = s.trail.length ∧
    as.length ≤ s.decisionLevel
  | .failed a s => Ready F G as s ∧ s.config = k ∧ a ∈ as ∧ a.neg ∈ s.trail ∧
      s.decisionLevel < as.length
  | .decide a s => Ready F G as s ∧ s.config = k ∧ s.queueHead = s.trail.length ∧ a ∈ as ∧
      as[s.decisionLevel]? = some a ∧ s.value a.var = none

variable {s s' : SatEngine R}

lemma placeAssumptions_spec (rest : List SatLit) (h : Ready F G as s)
    (hd : s.queueHead = s.trail.length) (hr : as.drop s.decisionLevel = rest) :
    Placed F G as s.config (s.placeAssumptions rest) := by
  induction rest generalizing s with
  | nil => exact ⟨h, rfl, hd, drop_eq_nil_iff.mp hr⟩
  | cons a rest ih =>
    have hlt : s.decisionLevel < as.length := by
      by_contra hge
      rw [drop_eq_nil_iff.mpr (by omega)] at hr
      cases hr
    have ha : as[s.decisionLevel]? = some a := by
      rw [← head?_drop, hr]
      rfl
    have hmem : a ∈ as := mem_of_getElem? ha
    unfold placeAssumptions
    split
    next hv =>
      have hopen := h.openLevel hd fun x hx => by
        rw [ha, some.injEq] at hx
        exact hx ▸ (h.settled.core.trail.value a).mp hv
      have hnext : as.drop s.openLevel.decisionLevel = rest := by
        have hlen : s.openLevel.decisionLevel = s.decisionLevel + 1 := by
          simp [SatEngine.openLevel, TrailState.newDecisionLevel, TrailState.decisionLevel]
        rw [hlen, ← drop_drop, hr]
        rfl
      exact ih hopen hd hnext
    next hv => exact ⟨h, rfl, hmem, (h.settled.core.trail.value_false a).mp hv, hlt⟩
    next hv => exact ⟨h, rfl, hd, hmem, ha, (s.litValue_eq_none_iff a).mp hv⟩

variable [FloatArith R]

/-- The possible answers of a search that started in configuration `k`. -/
def Answered (F G : List (List SatLit)) (as : List SatLit) (k : Config R) :
    SatResult → SatEngine R → Prop
  | .unsat, s => (Unsatisfiable F ∧ s.config = { k with falsified := true } ∧
        s.decisionLevel = 0 ∧ ∃ n, Settled F G as n s) ∨
      (Ready F G as s ∧ s.config = { k with failedAssumptions := s.failedAssumptions } ∧
        (∀ a ∈ s.failedAssumptions, a ∈ as) ∧ Unsatisfiable (assuming F s.failedAssumptions))
  | .sat, s => Ready F G as s ∧ s.config = { k with model := s.model } ∧
      s.queueHead = s.trail.length ∧ (∀ v < s.numVars, s.decidable v = true → s.value v ≠ none) ∧
      (∀ a ∈ as, a ∈ s.trail) ∧ s.model = (List.range s.numVars).map s.value
  | .unknown, s => Ready F G as s ∧ s.config = { k with outOfSpace := s.outOfSpace }
  | .invalid, _ => False

def Stepped (F G : List (List SatLit)) (as : List SatLit) (k : Config R) : Outcome R → Prop
  | .done r s => Answered F G as k r s
  | .next _ s => Ready F G as s ∧ s.config = k

lemma decideNext_spec {here : Nat} {out : Outcome R} (h : Ready F G as s)
    (hd : s.queueHead = s.trail.length) (hb : ∀ a ∈ as, a.var < s.numVars)
    (he : s.decideNext as here = some out) : Stepped F G as s.config out := by
  have hplace := placeAssumptions_spec _ h hd rfl
  unfold decideNext at he
  split at he
  next a s₁ hp =>
    rw [hp] at hplace
    obtain ⟨h1, h2, h3, h4, h5⟩ := hplace
    obtain ⟨sn, o, hf, h6, h7, h8⟩ := analyzeFinal_spec h1.settled h1.clean h3 h4 h5
    rw [hf] at he
    cases he
    rw [← h2]
    exact Or.inr ⟨⟨h1.settled.congr rfl rfl, h1.ordered.congr rfl rfl rfl, h6⟩, rfl, h7, h8⟩
  next a s₁ hp =>
    rw [hp] at hplace
    obtain ⟨h1, h2, h3, h4, h5, h6⟩ := hplace
    cases he
    have hvars : s₁.numVars = s.numVars := congrArg Config.numVars h2
    refine ⟨⟨h1.settled.decide h3 (hvars ▸ hb a h4) h6 ?_, ?_, h1.clean⟩, h2⟩
    · intro x hx
      rw [h5, some.injEq] at hx
      exact hx
    · exact ordered_enqueue h1.ordered.ok h1.ordered.known fun v hlt hdec hv _ =>
        h1.ordered.queued v hlt hdec hv
  next s₁ hp =>
    rw [hp] at hplace
    obtain ⟨h1, h2, h3, h4⟩ := hplace
    cases hpick : s₁.pickBranchLit with
    | mk o s₂ =>
      obtain ⟨⟨q, rfl⟩, h5⟩ := pickBranchLit_spec h1.ordered hpick
      rw [hpick] at he
      cases o with
      | none =>
        cases he
        rw [← h2]
        refine ⟨⟨h1.settled.congr rfl rfl, h5.2.congr rfl rfl rfl, h1.clean⟩, rfl, h3,
          h5.1, ?_, rfl⟩
        intro a ha
        obtain ⟨k, hk⟩ := mem_iff_getElem?.mp ha
        have hklt : k < as.length := (List.getElem?_eq_some_iff.mp hk).1
        exact (h1.settled.decided.opened k a (by omega) hk).1
      | some l =>
        obtain ⟨h6, h7, h8, h9, h10⟩ := h5
        cases he
        have hfresh : ∀ a, as[s₁.decisionLevel]? = some a → l = a := by
          intro a ha
          have := (List.getElem?_eq_some_iff.mp ha).1
          omega
        refine ⟨⟨(h1.settled.decide h3 h6 h7 hfresh).congr rfl rfl, ?_, h1.clean⟩, h2⟩
        exact ordered_enqueue h8 h9 h10

omit [FloatArith R] in
lemma Bumped.config (h : Bumped s s') : s'.config = s.config := by
  obtain ⟨⟨_, _, _, _, _, _, rfl⟩, -, -⟩ := h
  rfl

theorem analyze_ready {n fuel : Nat} {l : Learned} (h : Settled F G as n s)
    (ho : Ordered s) (hs : ∀ v, s.seen v = false) (hD : 0 < s.decisionLevel) {r : ClauseRef}
    (hr : Falsifies s r) (he : s.analyze fuel r = some (l, s')) :
    Derived F s'.toTrailState l ∧ Settled F G as n s' ∧ Ordered s' ∧ (∀ v, s'.seen v = false) ∧
      s'.config = s.config ∧ s'.toTrailState = s.toTrailState ∧ s'.toClauseDb = s.toClauseDb := by
  obtain ⟨hl, hseen, st, hb⟩ := analyze_spec h ho.ok hs hD hr he
  have ht : s'.toTrailState = s.toTrailState := hb.trail
  have hd : s'.toClauseDb = s.toClauseDb := hb.db
  have ho' : Ordered { s with stats := st } := ho.congr rfl rfl rfl
  exact ⟨ht ▸ hl, h.congr ht hd, hb.ordered ho', hseen, hb.config, ht, hd⟩

lemma resolveConflict_spec {n fuel here : Nat} {r : ClauseRef}
    {out : Outcome R} (h : Settled F G as n s) (ho : Ordered s) (hs : ∀ v, s.seen v = false)
    (hr : Falsifies s r) (he : s.resolveConflict fuel r here = some out) :
    Stepped F G as s.config out := by
  unfold resolveConflict at he
  dsimp only at he
  split at he
  next h0 =>
    cases he
    exact Or.inl ⟨h.root_conflict hr h0, rfl, h0, n, h.congr rfl rfl⟩
  next h0 =>
    split at he
    · cases he
    next l s₁ han =>
      obtain ⟨hl, hset, hord, hseen, hconf, -, -⟩ := analyze_ready
        (s := { s with stats := { s.stats with conflicts := (s.stats.conflicts + 1) % 2 ^ 64 } })
        (h.congr rfl rfl) (ho.congr rfl rfl rfl) hs (Nat.pos_of_ne_zero h0) hr han
      split at he
      · cases he
        have hready := cancelUntil_ready hset hord hseen hl.back
        have hc := (cancelUntil_config hord.ok l.backtrackLevel).trans hconf
        refine ⟨hready.congr rfl rfl rfl rfl rfl, ?_⟩
        exact congrArg (fun k : Config R => { k with outOfSpace := true }) hc
      next s₂ hlearn =>
        obtain ⟨h1, h2⟩ := learnClause_spec hset hord hseen hl hlearn
        cases he
        exact ⟨h1.congr rfl rfl rfl rfl rfl, h2.trans hconf⟩

omit [FloatArith R] in
lemma config_of_fixed (h : s'.fixed = s.fixed) : s'.config = s.config :=
  congrArg (fun f : Fixed R => (⟨f.numVars, f.decidable, f.opts, f.budgets, f.searchAttempted,
    f.falsified, f.outOfSpace, f.model, f.failedAssumptions⟩ : Config R)) h

variable (h : Ready F G as s)
include h

lemma searchStep_spec {fuel budget here : Nat} {out : Outcome R} (hb : ∀ a ∈ as, a.var < s.numVars)
    (he : searchStep fuel budget as here s = some out) : Stepped F G as s.config out := by
  unfold searchStep at he
  split at he
  · cases he
  next r s₁ hp =>
    obtain ⟨⟨⟨n, hn⟩, hfal, -⟩, hord, hclean, hfix, -⟩ := h.propagate hp
    rw [← config_of_fixed hfix]
    exact resolveConflict_spec hn hord hclean hfal he
  next s₁ hp =>
    obtain ⟨⟨hset, hdrain⟩, hord, hclean, hfix, -⟩ := h.propagate hp
    have h₁ : Ready F G as s₁ := ⟨hset, hord, hclean⟩
    rw [← config_of_fixed hfix]
    split at he
    · cases he
      exact ⟨h₁, rfl⟩
    next hbud =>
      split at he
      · cases he
        refine ⟨h₁.cancelUntil 0, ?_⟩
        have hc := cancelUntil_config hord.ok 0
        have hspace : (s₁.cancelUntil 0).outOfSpace = s₁.outOfSpace := congrArg Config.outOfSpace hc
        rw [hc, hspace]
        rfl
      · have hd : s₁.queueHead = s₁.trail.length := by
          refine hdrain.resolve_right fun ho => ?_
          rcases Bool.or_eq_true _ _ ▸ ho with ho | ho <;> simp [outOfBudget, ho] at hbud
        have hvars : s₁.numVars = s.numVars := congrArg Fixed.numVars hfix
        rw [← hvars] at hb
        dsimp only at he
        split at he
        · have h₂ := h₁.reduceDatabase
          obtain ⟨-, arena, watches, wasted, learnt, st, hred⟩ := reduceDatabase_eq h₁.settled
          rw [hred] at he h₂
          have hnext := decideNext_spec h₂ hd hb he
          exact hnext
        · exact decideNext_spec h₁ hd hb he

lemma search_spec {fuel budget here : Nat} {r : SatResult} (hb : ∀ a ∈ as, a.var < s.numVars)
    (he : search fuel budget as here s = some (r, s')) : Answered F G as s.config r s' := by
  induction fuel generalizing s here with
  | zero => cases he
  | succ fuel ih =>
    unfold search at he
    cases hstep : searchStep fuel budget as here s with
    | none =>
      rw [hstep] at he
      cases he
    | some out =>
      have hs := searchStep_spec h hb hstep
      rw [hstep] at he
      cases out with
      | done r' s₁ =>
        cases he
        exact hs
      | next here' s₁ =>
        obtain ⟨h1, h2⟩ := hs
        have hvars : s₁.numVars = s.numVars := congrArg Config.numVars h2
        rw [← h2]
        exact ih h1 (hvars ▸ hb) he

lemma restartLoop_spec {fuel restart : Nat} {r : SatResult} (hb : ∀ a ∈ as, a.var < s.numVars)
    (he : restartLoop as fuel restart s = some (r, s')) : Answered F G as s.config r s' := by
  induction fuel generalizing s restart with
  | zero => cases he
  | succ fuel ih =>
    unfold restartLoop at he
    split at he
    · cases he
      exact ⟨h, rfl⟩
    next hgo =>
      dsimp only at he
      generalize (if s.opts.restartInterval = 0 then 0
        else s.opts.restartInterval * restartTerm restart % 2 ^ 64) = budget at he
      split at he
      · cases he
      next r₁ s₁ hsearch =>
        have hans := search_spec h hb hsearch
        split at he
        next hr =>
          subst hr
          obtain ⟨h1, h2⟩ := hans
          cases hspace : s₁.outOfSpace with
          | true =>
            -- Nothing is searched any more once the arena is full.
            cases fuel with
            | zero => cases he
            | succ fuel =>
              unfold restartLoop at he
              rw [if_pos (by simp [hspace])] at he
              cases he
              exact ⟨h1.congr rfl rfl rfl rfl rfl, h2⟩
          | false =>
            have hfull : s.outOfSpace = false := by
              simp only [Bool.or_eq_true, not_or, Bool.not_eq_true] at hgo
              exact hgo.2
            have hc : s₁.config = s.config := by
              rw [h2, hspace]
              simp only [config, hfull]
            have hvars : s₁.numVars = s.numVars := congrArg Config.numVars hc
            rw [← hc]
            have hloop := fun hready hbound => ih hready hbound he
            exact hloop (h1.congr rfl rfl rfl rfl rfl) (hvars ▸ hb)
        · cases he
          exact hans

omit h

end SatEngine

end NeverD.Sat
