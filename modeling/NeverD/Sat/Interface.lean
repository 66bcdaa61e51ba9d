import NeverD.Sat.Termination

namespace NeverD.Sat
open Lib List
open Option (some)

variable {fuel : Nat}

namespace SatEngine

variable {R : Type} [FloatArith R] {F : List (List SatLit)}

variable {s s' : SatEngine R}

omit [FloatArith R] in
lemma propagate_fixed {o : Option ClauseRef} (h : propagate fuel s = some (o, s')) :
    s'.fixed = s.fixed := by
  induction fuel generalizing s with
  | zero => cases h
  | succ fuel ih =>
    simp only [propagate] at h
    split at h
    · simp only [some.injEq, Prod.mk.injEq] at h
      rw [h.2]
    · split at h
      · simp only [some.injEq, Prod.mk.injEq] at h
        rw [h.2]
      · split at h
        · cases h
        next hs =>
          simp only [some.injEq, Prod.mk.injEq] at h
          have hscan := scan_fixed hs
          rw [← h.2]
          exact hscan
        next hs =>
          have hscan := scan_fixed hs
          exact (ih h).trans hscan

variable (h : Holding F s)
include h

omit [FloatArith R] in
lemma Holding.ordered (hf : s.falsified = false) : s.order.Ok := by
  rcases h with ⟨hf', -⟩ | ⟨-, -, hr⟩
  · rw [hf] at hf'
    cases hf'
  · exact hr.ordered.ok

lemma Holding.addClause_numVars {C : List SatLit} {ok : Bool}
    (he : s.addClause fuel C = some (ok, s')) : s'.numVars = s.numVars := by
  unfold addClause at he
  split at he
  · simp only [some.injEq, Prod.mk.injEq] at he
    rw [he.2]
  next hgo =>
    simp only [Bool.or_eq_true, not_or, Bool.not_eq_true] at hgo
    obtain ⟨t, q, hc, hv, -⟩ := cancelUntil_frame (h.ordered hgo.1) 0
    rw [← hv]
    have hroot : (s.cancelUntil 0).numVars = t.numVars := by rw [hc]
    generalize s.cancelUntil 0 = s₁ at *
    dsimp only at he
    split at he
    · simp only [some.injEq, Prod.mk.injEq] at he
      rw [← he.2, hroot]
    · split at he
      · simp only [some.injEq, Prod.mk.injEq] at he
        rw [← he.2, hroot]
      · simp only [some.injEq, Prod.mk.injEq] at he
        rw [← he.2]
        exact hroot
      · split at he
        · cases he
        next hp =>
          simp only [some.injEq, Prod.mk.injEq] at he
          rw [← he.2]
          exact (congrArg Fixed.numVars (propagate_fixed hp)).trans hroot
        next hp =>
          simp only [some.injEq, Prod.mk.injEq] at he
          rw [← he.2]
          exact (congrArg Fixed.numVars (propagate_fixed hp)).trans hroot
      · split at he
        · simp only [some.injEq, Prod.mk.injEq] at he
          rw [← he.2]
          exact hroot
        next ref s₂ halloc =>
          simp only [allocClause] at halloc
          split at halloc
          · cases halloc
          · simp only [some.injEq, Prod.mk.injEq] at halloc he
            obtain ⟨-, rfl⟩ := halloc
            rw [← he.2]
            exact hroot

theorem Holding.addClause_total {C : List SatLit}
    (hC : ∀ l ∈ C, l.var < s.numVars) : ∃ ok s', s.addClause (s.numVars + 2) C = some (ok, s') := by
  unfold addClause
  split
  · exact ⟨_, _, rfl⟩
  next hgo =>
    simp only [Bool.or_eq_true, not_or, Bool.not_eq_true] at hgo
    rcases h with ⟨hf, -⟩ | ⟨-, -, hr⟩
    · rw [hgo.1] at hf
      cases hf
    · simp only [hgo.2, Bool.false_eq_true, if_false] at hr
      obtain ⟨h₁, h0, hvars, -, -⟩ := hr.toRoot []
      rw [← hvars] at hC ⊢
      generalize s.cancelUntil 0 = s₁ at *
      have hsimp := simplifyClause_sortLits s₁ C
      dsimp only
      split
      · exact ⟨_, _, rfl⟩
      · split
        · exact ⟨_, _, rfl⟩
        · exact ⟨_, _, rfl⟩
        next l hunit =>
          rw [hunit] at hsimp
          obtain ⟨hl, hv⟩ := hsimp.2.1 l (mem_singleton_self l)
          have hready := h₁.addUnit h0 hl hv (hC l hl) (hsimp.entails h₁.settled.core h0)
          obtain ⟨o, s₂, hp⟩ : ∃ o s₂, propagate (s₁.numVars + 2) (s₁.enqueue l none) =
              some (o, s₂) :=
            propagate_total hready.settled (Nat.le_add_right _ _)
          rw [hp]
          cases o <;> exact ⟨_, _, rfl⟩
        · split <;> exact ⟨_, _, rfl⟩

lemma Holding.solve_numVars {as : List SatLit} {r : SatResult}
    (he : s.solve fuel as = some (r, s')) : s'.numVars = s.numVars := by
  unfold SatEngine.solve at he
  dsimp only at he
  split at he
  · simp only [some.injEq, Prod.mk.injEq] at he
    rw [← he.2]
  next hvalid =>
    simp only [any_eq_true, decide_eq_true_eq, not_exists, not_and, not_le] at hvalid
    split at he
    · simp only [some.injEq, Prod.mk.injEq] at he
      rw [← he.2]
    next hf =>
      split at he
      · simp only [some.injEq, Prod.mk.injEq] at he
        rw [← he.2]
      · rcases h with ⟨hf', -⟩ | ⟨-, -, hr⟩
        · exact absurd hf' hf
        obtain ⟨h1, h2, -⟩ := Ready.prepare (s := { s with
          searchAttempted := true, model := [], failedAssumptions := [] })
          (hr.congr rfl rfl rfl rfl rfl) as
        split at he
        · cases he
        next r₁ s₁ hloop =>
          simp only [some.injEq, Prod.mk.injEq] at he
          rw [← he.2]
          have hans := restartLoop_spec h1 (fun a ha => h2 ▸ hvalid a ha) hloop
          have hready : ∀ k : Config R, Ready F (if s.outOfSpace then [] else F) as s₁ →
              s₁.config = k → k.numVars = s.numVars → s₁.finish.numVars = s.numVars := by
            intro k hr₁ hk hkv
            have hc := cancelUntil_config hr₁.ordered.ok 0
            exact (congrArg Config.numVars (hc.trans hk)).trans hkv
          cases r₁ with
          | invalid => exact absurd hans id
          | unknown => exact hready _ hans.1 hans.2 h2
          | sat => exact hready _ hans.1 hans.2.1 h2
          | unsat =>
            rcases hans with ⟨-, hc, hl, -⟩ | ⟨hr₁, hc, -⟩
            · rw [SatEngine.finish, cancelUntil_of_le (le_of_eq hl)]
              exact (congrArg Config.numVars hc).trans h2
            · exact hready _ hr₁ hc h2

omit [FloatArith R] in
lemma Holding.rootValue_entailed {l : SatLit} {σ : SatVar → Bool} (hσ : Models σ F) :
    (s.rootValue l = .true → l.Holds σ) ∧ (s.rootValue l = .false → ¬ l.Holds σ) := by
  unfold rootValue
  split
  · exact ⟨fun hv => (nomatch hv), fun hv => (nomatch hv)⟩
  next hroot =>
    simp only [Bool.or_eq_true, decide_eq_true_eq, not_or, not_le, Bool.not_eq_true,
      bne_eq_false_iff_eq] at hroot
    rcases h with ⟨hf, -⟩ | ⟨-, -, hr⟩
    · rw [hf] at hroot
      exact absurd hroot.1.2 (by simp)
    · have hcore := hr.settled.core
      split
      · exact ⟨fun hv => (nomatch hv), fun hv => (nomatch hv)⟩
      next hv =>
        refine ⟨fun _ => ?_, fun hx => (nomatch hx)⟩
        have := hcore.root_entailed ((hcore.trail.value l).mp hv) hroot.2 σ hσ
        simpa using this
      next hv =>
        refine ⟨fun hx => (nomatch hx), fun _ => ?_⟩
        have := hcore.root_entailed ((hcore.trail.value_false l).mp hv) hroot.2 σ hσ
        simpa using this

omit h

lemma newVar_numVars {decision : Bool} {o : Option SatVar} (h : s.newVar decision = (o, s')) :
    (o = none ∧ s' = s) ∨ (o = some s.numVars ∧ s'.numVars = s.numVars + 1) := by
  unfold SatEngine.newVar at h
  split at h
  · simp only [Prod.mk.injEq] at h
    exact .inl ⟨h.1.symm, h.2.symm⟩
  · simp only [Prod.mk.injEq] at h
    rw [← h.1, ← h.2]
    exact .inr ⟨rfl, rfl⟩

lemma Run.bound (h : Run F s) : ∀ C ∈ F, ∀ l ∈ C, l.var < s.numVars := by
  induction h with
  | init opts => simp
  | newVar _ he ih =>
    intro C hC l hl
    have hlt := ih C hC l hl
    rcases newVar_numVars he with ⟨-, rfl⟩ | ⟨-, hv⟩
    · exact hlt
    · omega
  | addClause hrun hC he ih =>
    intro D hD l hl
    rw [hrun.holding.addClause_numVars he]
    rcases mem_append.mp hD with hD | hD
    · exact ih D hD l hl
    · rw [mem_singleton] at hD
      exact hC l (hD ▸ hl)
  | setOptions opts _ ih => exact ih
  | solve hrun he ih =>
    intro C hC l hl
    rw [hrun.holding.solve_numVars he]
    exact ih C hC l hl

end SatEngine

/-- The solver as its clients see it. `added` records the clauses it was given; nothing below reads
it. -/
structure SatSolver (R : Type) where
  engine : SatEngine R
  added : List (List SatLit) := []

namespace SatSolver

variable {R : Type} [FloatArith R]

def init (opts : SatOptions R) : SatSolver R := ⟨SatEngine.init opts, []⟩

def numVars (s : SatSolver R) : Nat := s.engine.numVars

def newVar (s : SatSolver R) (decision : Bool) : Option SatVar × SatSolver R :=
  let (v, e) := s.engine.newVar decision
  (v, { s with engine := e })

/-- One propagation pass over the variables is all that adding a clause takes. -/
def addClause (s : SatSolver R) (C : List SatLit) : Option (Bool × SatSolver R) :=
  (s.engine.addClause (s.numVars + 2) C).map fun r => (r.1, ⟨r.2, s.added ++ [C]⟩)

def solve (s : SatSolver R) (fuel : Nat) (assumptions : List SatLit) :
    Option (SatResult × SatSolver R) :=
  (s.engine.solve fuel assumptions).map fun r => (r.1, { s with engine := r.2 })

def rootValue (s : SatSolver R) (l : SatLit) : SatValue := s.engine.rootValue l

def setOptions (s : SatSolver R) (opts : SatOptions R) : SatSolver R :=
  { s with engine := s.engine.setOptions opts }

def Ok (s : SatSolver R) : Prop := SatEngine.Run s.added s.engine

lemma ok_init (opts : SatOptions R) : (init opts).Ok := .init opts

variable {s : SatSolver R}

lemma Ok.bound (h : s.Ok) : ∀ C ∈ s.added, ∀ l ∈ C, l.var < s.numVars :=
  SatEngine.Run.bound h

lemma Ok.newVar {s s' : SatSolver R} {decision : Bool} {v : SatVar} (h : s.Ok)
    (he : s.newVar decision = (some v, s')) :
    s'.Ok ∧ v = s.numVars ∧ s'.numVars = s.numVars + 1 ∧ s'.added = s.added := by
  simp only [SatSolver.newVar, Prod.mk.injEq] at he
  obtain ⟨hv, rfl⟩ := he
  have hnew : s.engine.newVar decision = (some v, (s.engine.newVar decision).2) :=
    Prod.ext hv rfl
  refine ⟨SatEngine.Run.newVar h hnew, ?_⟩
  rcases SatEngine.newVar_numVars hnew with ⟨hn, -⟩ | ⟨hs, hn⟩
  · cases hn
  · exact ⟨some.inj hs, hn, rfl⟩

lemma Ok.addClause {s : SatSolver R} {C : List SatLit} (h : s.Ok)
    (hC : ∀ l ∈ C, l.var < s.numVars) :
    ∃ ok s', s.addClause C = some (ok, s') ∧ s'.Ok ∧ s'.numVars = s.numVars ∧
      s'.added = s.added ++ [C] := by
  obtain ⟨ok, e, he⟩ := (SatEngine.Run.holding h).addClause_total hC
  refine ⟨ok, ⟨e, s.added ++ [C]⟩, ?_, SatEngine.Run.addClause h hC he,
    (SatEngine.Run.holding h).addClause_numVars he, rfl⟩
  simp only [SatSolver.addClause, numVars, he, Option.map_some]

lemma Ok.rootValue (h : s.Ok) {l : SatLit} {σ : SatVar → Bool} (hσ : Models σ s.added) :
    (s.rootValue l = .true → l.Holds σ) ∧ (s.rootValue l = .false → ¬ l.Holds σ) :=
  (SatEngine.Run.holding h).rootValue_entailed hσ

lemma Ok.solve {s' : SatSolver R} {as : List SatLit} {r : SatResult} (h : s.Ok)
    (he : s.solve fuel as = some (r, s')) : s'.Ok ∧ s'.numVars = s.numVars ∧
    s'.added = s.added := by
  obtain ⟨⟨r₁, e⟩, he₁, he₂⟩ := Option.map_eq_some_iff.mp he
  simp only [Prod.mk.injEq] at he₂
  obtain ⟨rfl, rfl⟩ := he₂
  exact ⟨SatEngine.Run.solve h he₁, (SatEngine.Run.holding h).solve_numVars he₁, rfl⟩

lemma Ok.setOptions (h : s.Ok) (opts : SatOptions R) : (s.setOptions opts).Ok :=
  SatEngine.Run.setOptions opts h

end SatSolver

end NeverD.Sat
