import NeverD.Sat.Search

namespace NeverD.Sat
open Lib List

namespace SatEngine

variable {R : Type} {F G : List (List SatLit)} {as : List SatLit}

def modelAssignment (s : SatEngine R) (v : SatVar) : Bool := s.modelValue v == .true

lemma modelValue_of_trail {s s' : SatEngine R} (h : s.toTrailState.Ok)
    (hm : s'.model = (List.range s.numVars).map s.value) {l : SatLit} (hl : l ∈ s.trail) :
    s'.modelValue l.var = if l.negated then .false else .true := by
  have hv : s.value l.var = some (!l.negated) := by
    have := (h.value l).mpr hl
    cases hx : s.value l.var with
    | none => simp [TrailState.litValue, hx] at this
    | some b => cases b <;> cases hn : l.negated <;> simp_all [TrailState.litValue]
  have hlt := h.bound l hl
  cases hn : l.negated <;> simp [modelValue, hm, hlt, hv, hn]

lemma holds_of_trail {s s' : SatEngine R} (h : s.toTrailState.Ok)
    (hm : s'.model = (List.range s.numVars).map s.value) {l : SatLit} (hl : l ∈ s.trail) :
    l.Holds s'.modelAssignment := by
  rw [Lit.Holds, modelAssignment, modelValue_of_trail h hm hl]
  cases l.negated <;> rfl

/-- A settled and total trail satisfies every clause the database covers. -/
theorem Settled.satisfied {s : SatEngine R} (h : Settled F G as s.queueHead s)
    (hd : s.queueHead = s.trail.length) (hall : ∀ v < s.numVars, s.value v ≠ none)
    {C : List SatLit} (hC : C ∈ G) : (∃ l ∈ C, l.neg ∈ C) ∨ ∃ l ∈ C, l ∈ s.trail := by
  rcases h.covered C hC with ht | ⟨l, hl, hm, -⟩ | ⟨r, hr, c, hc, hsub⟩
  · exact .inl ht
  · exact .inr ⟨l, hl, hm⟩
  · obtain ⟨c', hc', hdel, -⟩ := h.core.db.input r hr
    have he : c' = c := Option.some.inj (hc'.symm.trans hc)
    subst he
    refine .inr ?_
    by_cases hneg : c'.lit0.neg ∈ s.trail
    · have htake : c'.lit0.neg ∈ s.trail.take s.queueHead := by
        rw [hd, take_length]
        exact hneg
      obtain ⟨b, hb, hbt, -⟩ := h.guarded r c' hc hdel c'.lit0 (.inl rfl) htake
      exact ⟨b, hsub b hb, hbt⟩
    · refine ⟨c'.lit0, hsub _ mem_cons_self, ?_⟩
      by_contra hpos
      have hnone := (h.core.trail.litValue_none c'.lit0).mpr ⟨hpos, hneg⟩
      have hlt := h.core.db.bound r c' hc c'.lit0 mem_cons_self
      exact hall _ hlt ((s.litValue_eq_none_iff c'.lit0).mp hnone)

lemma holds_of_tautology {σ : SatVar → Bool} {C : List SatLit} (h : ∃ l ∈ C, l.neg ∈ C) :
    ClauseHolds σ C := by
  obtain ⟨l, hl, hn⟩ := h
  by_cases hh : l.Holds σ
  · exact ⟨l, hl, hh⟩
  · exact ⟨l.neg, hn, (Lit.holds_neg σ l).mpr hh⟩

lemma Settled.unit_assigned {s : SatEngine R} {n : Nat} (h : Settled F G as n s) {l : SatLit}
    (hl : [l] ∈ G) : l ∈ s.trail := by
  rcases h.covered [l] hl with ⟨x, hx, hn⟩ | ⟨x, hx, hm, -⟩ | ⟨r, -, c, hc, hsub⟩
  · rw [mem_singleton] at hx hn
    subst hx
    exact absurd hn (Lit.neg_ne x)
  · rw [mem_singleton] at hx
    exact hx ▸ hm
  · have h0 := mem_singleton.mp (hsub c.lit0 (by simp [Clause.lits]))
    have h1 := mem_singleton.mp (hsub c.lit1 (by simp [Clause.lits]))
    exact absurd (h0.trans h1.symm) (Clause.lit0_ne_lit1 (h.core.db.vars r c hc))

def withRoots (F : List (List SatLit)) (s : SatEngine R) : List (List SatLit) :=
  F ++ s.trail.map fun l => [l]

lemma Ready.withRoots {s : SatEngine R} (h : Ready F F as s) (h0 : s.decisionLevel = 0) :
    Ready F (s.withRoots F) as s := by
  refine ⟨⟨h.settled.core, fun C hC => ?_, h.settled.decided, h.settled.registered,
    h.settled.guarded, h.settled.lims⟩, h.ordered, h.clean⟩
  rcases mem_append.mp hC with hC | hC
  · exact h.settled.covered C hC
  · obtain ⟨l, hl, rfl⟩ := mem_map.mp hC
    refine .inr (.inl ⟨l, mem_singleton_self l, hl, ?_⟩)
    have := h.settled.core.trail.level_le hl
    omega

variable [FloatArith R]

/-- The engines that calls of the public interface produce, with the clauses given on the way. -/
inductive Run : List (List SatLit) → SatEngine R → Prop
  | init (opts : SatOptions R) : Run [] (SatEngine.init opts)
  | newVar {F s s' decision o} : Run F s → s.newVar decision = (o, s') → Run F s'
  | addClause {F s s' fuel C ok} : Run F s → (∀ l ∈ C, l.var < s.numVars) →
      s.addClause fuel C = some (ok, s') → Run (F ++ [C]) s'
  | setOptions {F s} (opts : SatOptions R) : Run F s → Run F (s.setOptions opts)
  | solve {F s s' fuel as r} : Run F s → s.solve fuel as = some (r, s') → Run F s'

lemma ready_init (opts : SatOptions R) : Ready [] [] [] (SatEngine.init opts) := by
  refine ⟨⟨⟨⟨?_, ?_, ?_, ?_, ?_, ?_, ?_⟩, ⟨?_, ?_⟩, ⟨?_, ?_, ?_, ?_, ?_, ?_⟩, ?_, ?_⟩, ?_, ⟨?_, ?_⟩,
    ⟨?_, ?_⟩, ?_, ?_⟩, ⟨ActivityQueue.ok_default, ?_, ?_⟩, ?_⟩
  all_goals simp [SatEngine.init, TrailState.litValue, TrailState.decisionLevel,
    ActivityQueue.contains, Guarded, Covered, watchRefs]

/-- The start of a search: the engine at the root, with the assumptions in view. -/
theorem Ready.prepare {s : SatEngine R} (h : Ready F G [] s) (as : List SatLit) :
    Ready F G as s.prepare ∧ s.prepare.numVars = s.numVars ∧ s.prepare.decidable = s.decidable ∧
      s.prepare.falsified = s.falsified ∧ s.prepare.outOfSpace = s.outOfSpace ∧
      s.prepare.failedAssumptions = s.failedAssumptions := by
  obtain ⟨h1, -, h3, h4, h5⟩ := h.toRoot as
  have hc := cancelUntil_config h.ordered.ok 0
  exact ⟨h1.congr rfl rfl rfl rfl rfl, h3, congrArg Config.decidable hc, h4, h5,
    congrArg Config.failedAssumptions hc⟩

lemma Ready.finish {s : SatEngine R} (h : Ready F G as s) :
    Ready F G [] s.finish ∧ s.finish.decisionLevel = 0 ∧ s.finish.falsified = s.falsified ∧
      s.finish.outOfSpace = s.outOfSpace := by
  obtain ⟨h1, h2, -, h4, h5⟩ := h.toRoot []
  exact ⟨h1.congr rfl rfl rfl rfl rfl, h2, h4, h5⟩

lemma Ready.holding {s₀ s : SatEngine R} (h : Ready F (s₀.withRoots F) as s)
    (hf : s.falsified = false) : Holding F s.finish := by
  obtain ⟨h1, h2, h3, -⟩ := h.finish
  refine .inr ⟨h3.trans hf, h2, h1.mono (fun D hD => hD) fun D hD => ?_⟩
  split at hD
  · cases hD
  · exact mem_append_left _ hD

/-- What `solve` answers about the clauses `F`, from an engine that holds them. -/
theorem solve_answered {s s' : SatEngine R} {fuel : Nat} {r : SatResult} (h : Holding F s)
    (he : s.solve fuel as = some (r, s')) : (r = .invalid ∧ Holding F s') ∨
      (r = .unsat ∧ Holding F s' ∧ (∀ a ∈ s'.failedAssumptions, a ∈ as) ∧
        Unsatisfiable (assuming F s'.failedAssumptions)) ∨ (r = .unknown ∧ Holding F s') ∨
      (r = .sat ∧ Holding F s' ∧ ∃ m : SatEngine R, Ready F (s.withRoots F) as m ∧
        m.numVars = s.numVars ∧ m.queueHead = m.trail.length ∧
        (∀ v < s.numVars, s.decidable v = true → m.value v ≠ none) ∧ (∀ a ∈ as, a ∈ m.trail) ∧
        s'.model = (List.range m.numVars).map m.value) := by
  unfold SatEngine.solve at he
  dsimp only at he
  split at he
  · cases he
    refine .inl ⟨rfl, ?_⟩
    rcases h with ⟨h1, h2, n, h3⟩ | ⟨h1, h2, h3⟩
    · exact .inl ⟨h1, h2, n, h3.congr rfl rfl⟩
    · exact .inr ⟨h1, h2, h3.congr rfl rfl rfl rfl rfl⟩
  next hvalid =>
    simp only [any_eq_true, decide_eq_true_eq, not_exists, not_and, not_le] at hvalid
    rcases h with ⟨hf, hun, n, hn⟩ | ⟨hf, h0, hready⟩
    · rw [if_pos hf] at he
      cases he
      refine .inr (.inl ⟨rfl, .inl ⟨hf, hun, n, hn.congr rfl rfl⟩, by simp, ?_⟩)
      exact hun.mono fun D hD => mem_append_left _ hD
    · rw [if_neg (by simp [hf])] at he
      split at he
      next hfull =>
        cases he
        exact .inr (.inr (.inl ⟨rfl, .inr ⟨hf, h0, hready.congr rfl rfl rfl rfl rfl⟩⟩))
      next hfull =>
        rw [Bool.not_eq_true] at hfull
        simp only [hfull, Bool.false_eq_true, if_false] at hready
        have hstart : Ready F (s.withRoots F) [] { s with
            searchAttempted := true, model := [], failedAssumptions := [] } :=
          (hready.withRoots h0).congr rfl rfl rfl rfl rfl
        obtain ⟨h1, h2, h3, h4, h5, h6⟩ := hstart.prepare as
        split at he
        · cases he
        next r₁ s₁ hloop =>
          simp only [Option.some.injEq, Prod.mk.injEq] at he
          obtain ⟨rfl, rfl⟩ := he
          have hans := restartLoop_spec h1 (fun a ha => h2 ▸ hvalid a ha) hloop
          cases r₁ with
          | invalid => exact absurd hans id
          | unknown =>
            obtain ⟨hr, hc⟩ := hans
            refine .inr (.inr (.inl ⟨rfl, hr.holding ?_⟩))
            exact (congrArg Config.falsified hc).trans (h4.trans hf)
          | unsat =>
            refine .inr (.inl ⟨rfl, ?_⟩)
            rcases hans with ⟨hun, hc, hl, n, hn⟩ | ⟨hr, hc, hsub, hun⟩
            · have hcancel : s₁.cancelUntil 0 = s₁ := cancelUntil_of_le (le_of_eq hl)
              have hfl : s₁.finish.falsified = true := by
                rw [SatEngine.finish, hcancel]
                exact congrArg Config.falsified hc
              have hfa : s₁.finish.failedAssumptions = [] := by
                rw [SatEngine.finish, hcancel]
                exact (congrArg Config.failedAssumptions hc).trans h6
              have hset : Settled F [] [] n s₁.finish := by
                rw [SatEngine.finish, hcancel]
                have hroot := Decided.of_root hn.core.trail hl []
                exact .congr (s := s₁)
                  ⟨hn.core, by simp [Covered], hroot, hn.registered, hn.guarded, hn.lims⟩ rfl rfl
              refine ⟨.inl ⟨hfl, hun, n, hset⟩, by simp [hfa], ?_⟩
              exact hun.mono fun D hD => mem_append_left _ hD
            · have hfa : s₁.finish.failedAssumptions = s₁.failedAssumptions :=
                congrArg Config.failedAssumptions (cancelUntil_config hr.ordered.ok 0)
              rw [hfa]
              refine ⟨hr.holding ?_, hsub, hun⟩
              exact (congrArg Config.falsified hc).trans (h4.trans hf)
          | sat =>
            obtain ⟨hr, hc, hdrain, hall, hass, hmodel⟩ := hans
            have hvars : s₁.numVars = s.numVars := (congrArg Config.numVars hc).trans h2
            have hdec : s₁.decidable = s.decidable := (congrArg Config.decidable hc).trans h3
            have hm : s₁.finish.model = s₁.model :=
              congrArg Config.model (cancelUntil_config hr.ordered.ok 0)
            refine .inr (.inr (.inr ⟨rfl, hr.holding ?_, s₁, hr, hvars, hdrain, ?_, hass,
              hm.trans hmodel⟩))
            · exact (congrArg Config.falsified hc).trans (h4.trans hf)
            · intro v hv hd
              exact hall v (hvars ▸ hv) (hdec ▸ hd)

lemma Run.holding {s : SatEngine R} (h : Run F s) : Holding F s := by
  induction h with
  | init opts => exact .inr ⟨rfl, rfl, ready_init opts⟩
  | @newVar F s s' decision o _ he ih =>
    have hflags : s'.falsified = s.falsified ∧ s'.outOfSpace = s.outOfSpace ∧
        s'.decisionLevel = s.decisionLevel := by
      unfold SatEngine.newVar at he
      split at he <;> · simp only [Prod.mk.injEq] at he; rw [← he.2]; exact ⟨rfl, rfl, rfl⟩
    obtain ⟨h1, h2, h3⟩ := hflags
    rcases ih with ⟨hf, hun, n, hn⟩ | ⟨hf, h0, hr⟩
    · exact .inl ⟨h1.trans hf, hun, n, hn.newVar he⟩
    · refine .inr ⟨h1.trans hf, h3.trans h0, ?_⟩
      rw [h2]
      exact hr.newVar he
  | @addClause F s s' fuel C ok _ hC he ih =>
    have hgrow : ∀ D ∈ F, D ∈ F ++ [C] := fun D hD => mem_append_left _ hD
    rcases ih with ⟨hf, hun, n, hn⟩ | ⟨hf, h0, hr⟩
    · simp only [SatEngine.addClause, hf, Bool.true_or, if_true, Option.some.injEq,
        Prod.mk.injEq] at he
      rw [← he.2]
      exact .inl ⟨hf, hun.mono hgrow, n, hn.mono hgrow fun D hD => hD⟩
    · cases ho : s.outOfSpace with
      | false =>
        rw [ho] at hr
        exact hr.addClause hf ho hC he
      | true =>
        simp only [SatEngine.addClause, ho, Bool.or_true, if_true, Option.some.injEq,
          Prod.mk.injEq] at he
        rw [← he.2]
        rw [ho] at hr
        refine .inr ⟨hf, h0, ?_⟩
        rw [ho]
        exact hr.mono hgrow fun D hD => hD
  | setOptions opts _ ih =>
    rcases ih with ⟨hf, hun, n, hn⟩ | ⟨hf, h0, hr⟩
    · exact .inl ⟨hf, hun, n, hn.congr rfl rfl⟩
    · exact .inr ⟨hf, h0, hr.congr rfl rfl rfl rfl rfl⟩
  | solve _ he ih =>
    rcases solve_answered ih he with ⟨-, h⟩ | ⟨-, h, -⟩ | ⟨-, h⟩ | ⟨-, h, -⟩ <;> exact h

/-- Every variable may be decided or is fixed by a unit at the root. -/
def Determined (F : List (List SatLit)) (s : SatEngine R) : Prop :=
  ∀ v < s.numVars, s.decidable v = true ∨ (∃ b, [⟨v, b⟩] ∈ F) ∨ s.rootValue ⟨v, false⟩ ≠ .unknown

omit [FloatArith R] in
lemma rootValue_assigned {s : SatEngine R} {v : SatVar}
    (h : s.rootValue ⟨v, false⟩ ≠ .unknown) : s.value v ≠ none := by
  intro hv
  apply h
  unfold rootValue
  split
  · rfl
  · simp [TrailState.litValue, hv]

/-- A satisfying answer comes with a total model of every clause ever added and
of the assumptions; a negative one means that they have none in common. -/
theorem Run.solve_sound {s s' : SatEngine R} {fuel : Nat} {r : SatResult} (h : Run F s)
    (he : s.solve fuel as = some (r, s')) : (r = .sat → Determined F s →
      (∀ v < s.numVars, s'.modelValue v ≠ .unknown) ∧ Models s'.modelAssignment F ∧
        ∀ a ∈ as, a.Holds s'.modelAssignment) ∧ (r = .unsat → Unsatisfiable (assuming F as)) := by
  rcases solve_answered h.holding he with ⟨rfl, -⟩ | ⟨rfl, -, hsub, hun⟩ | ⟨rfl, -⟩ |
    ⟨rfl, -, m, hm, hvars, hdrain, hdec, hass, hmodel⟩
  · exact ⟨fun hr => (nomatch hr), fun hr => (nomatch hr)⟩
  · refine ⟨fun hr => (nomatch hr), fun _ σ hσ => hun σ ?_⟩
    rw [models_assuming] at hσ ⊢
    exact ⟨hσ.1, fun a ha => hσ.2 a (hsub a ha)⟩
  · exact ⟨fun hr => (nomatch hr), fun hr => (nomatch hr)⟩
  · refine ⟨fun _ hdet => ?_, fun hr => (nomatch hr)⟩
    have hok := hm.settled.core.trail
    have hroot : ∀ l : SatLit, [l] ∈ s.withRoots F → m.value l.var ≠ none := by
      intro l hl hv
      exact (hok.value_none l.var).mp hv l (hm.settled.unit_assigned hl) rfl
    have hstart := h.holding
    have hall : ∀ v < m.numVars, m.value v ≠ none := by
      intro v hv
      rw [hvars] at hv
      rcases hdet v hv with hd | ⟨b, hb⟩ | hr
      · exact hdec v hv hd
      · exact hroot ⟨v, b⟩ (mem_append_left _ hb)
      · -- A root value is a trail entry, which the search keeps.
        have hval := rootValue_assigned hr
        rcases hstart with ⟨hf, -⟩ | ⟨-, -, hready⟩
        · simp [rootValue, hf] at hr
        · have hok₀ := hready.settled.core.trail
          by_contra hnone
          apply hval
          rw [hok₀.value_none]
          intro l hl hlv
          apply hroot l (mem_append_right _ (mem_map_of_mem hl))
          rw [hlv, hnone]
    refine ⟨fun v hv => ?_, fun C hC => ?_, fun a ha => holds_of_trail hok hmodel (hass a ha)⟩
    · rw [← hvars] at hv
      obtain ⟨b, hb⟩ := Option.ne_none_iff_exists'.mp (hall v hv)
      cases b <;> simp [modelValue, hmodel, hv, hb]
    · rcases hm.settled.satisfied hdrain hall (mem_append_left _ hC) with ht | ⟨l, hl, hlt⟩
      · exact holds_of_tautology ht
      · exact ⟨l, hl, holds_of_trail hok hmodel hlt⟩

/-- What an answer fails on is among the assumptions, and no model of all clauses agrees with it. -/
theorem Run.failed_core {s s' : SatEngine R} {fuel : Nat} (h : Run F s)
    (he : s.solve fuel as = some (.unsat, s')) :
    (∀ a ∈ s'.failedAssumptions, a ∈ as) ∧ Unsatisfiable (assuming F s'.failedAssumptions) := by
  rcases solve_answered h.holding he with ⟨hr, -⟩ | ⟨-, -, hcore⟩ | ⟨hr, -⟩ | ⟨hr, -⟩
  · cases hr
  · exact hcore
  · cases hr
  · cases hr

/-- Exact arithmetic, which the heuristics can be evaluated with. -/
instance : FloatArith Rat where
  ofNat n := n
  ofScientific m small e := if small then (m : Rat) / 10 ^ e else m * 10 ^ e
  add := (· + ·)
  sub := (· - ·)
  mul := (· * ·)
  div := (· / ·)
  lt a b := decide (a < b)
  le a b := decide (a ≤ b)
  ne a b := decide (a ≠ b)
  toFloat := id

def SatOptions.default : SatOptions Rat where
  varDecay := 95 / 100
  clauseDecay := 999 / 1000
  restartInterval := 100
  learnedFraction := 1 / 3
  learnedGrowth := 11 / 10
  maxConflicts := 0
  maxPropagations := 0
  maxWatchVisits := 0
  minimizeLearned := true
  phaseSaving := true
  defaultPhase := false

def twoVars : SatEngine Rat := (((init SatOptions.default).newVar true).2.newVar true).2

lemma twoVars_run : Run [] twoVars :=
  .newVar (.newVar (.init SatOptions.default) rfl) rfl

lemma twoVars_addClause_isSome : (twoVars.addClause 5 [⟨0, false⟩, ⟨1, false⟩]).isSome := by
  decide

def eitherVar : SatEngine Rat :=
  ((twoVars.addClause 5 [⟨0, false⟩, ⟨1, false⟩]).get twoVars_addClause_isSome).2

lemma eitherVar_run : Run [[⟨0, false⟩, ⟨1, false⟩]] eitherVar :=
  .addClause twoVars_run (by decide) (Option.some_get twoVars_addClause_isSome).symm

lemma eitherVar_answers : (eitherVar.solve 10 [⟨0, true⟩]).map Prod.fst = some .sat ∧
    (eitherVar.solve 10 [⟨0, true⟩, ⟨1, true⟩]).map Prod.fst = some .unsat := by
  decide +kernel

lemma eitherVar_solve_isSome : (eitherVar.solve 10 [⟨0, true⟩]).isSome := by
  obtain ⟨_, he, -⟩ := Option.map_eq_some_iff.mp eitherVar_answers.1
  exact Option.isSome_of_mem he

def eitherAnswer : SatResult × SatEngine Rat :=
  (eitherVar.solve 10 [⟨0, true⟩]).get eitherVar_solve_isSome

theorem Run.solve_sound_eitherVar :
    eitherAnswer.1 = .sat ∧ Models eitherAnswer.2.modelAssignment [[⟨0, false⟩, ⟨1, false⟩]] ∧
      ∀ a ∈ [(⟨0, true⟩ : SatLit)], a.Holds eitherAnswer.2.modelAssignment := by
  have hsat : eitherAnswer.1 = .sat := by
    obtain ⟨_, he, hfst⟩ := Option.map_eq_some_iff.mp eitherVar_answers.1
    rw [eitherAnswer, Option.get_of_mem _ he, hfst]
  have hdet : Determined [[⟨0, false⟩, ⟨1, false⟩]] eitherVar := by
    intro v hv
    have hd : ∀ v < eitherVar.numVars, eitherVar.decidable v = true := by decide
    exact Or.inl (hd v hv)
  exact ⟨hsat,
    ((eitherVar_run.solve_sound (Option.some_get eitherVar_solve_isSome).symm).1 hsat hdet).2⟩

theorem Run.failed_core_eitherVar :
    ∃ s', eitherVar.solve 10 [⟨0, true⟩, ⟨1, true⟩] = some (.unsat, s') ∧
    Unsatisfiable (assuming [[⟨0, false⟩, ⟨1, false⟩]] s'.failedAssumptions) := by
  obtain ⟨⟨_, s'⟩, he, rfl⟩ := Option.map_eq_some_iff.mp eitherVar_answers.2
  exact ⟨s', he, (eitherVar_run.failed_core he).2⟩

end SatEngine

end NeverD.Sat
