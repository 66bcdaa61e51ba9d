import NeverD.Cnf.Builders

namespace NeverD.Cnf
open Lib NeverD.Sat List Option Growth

inductive Request
  | and (ins : List SatLit) (p : GatePolarity)
  | or (ins : List SatLit) (p : GatePolarity)
  | xor (ins : List SatLit)
  | equiv (a b : SatLit)
  | ite (c t e : SatLit)
  | majority (a b c : SatLit)
  | fullAdder (a b carryIn : SatLit)
deriving DecidableEq, Repr

namespace Request

def lits : Request → List SatLit
  | .and ins _ => ins
  | .or ins _ => ins
  | .xor ins => ins
  | .equiv a b => [a, b]
  | .ite c t e => [c, t, e]
  | .majority a b c => [a, b, c]
  | .fullAdder a b c => [a, b, c]

/-- The returned literals have the values of their gates in the directions that
were asked for. -/
def Honoured (σ : SatVar → Bool) : Request → List SatLit → Prop
  | .and ins p, [l] => p.Agrees (l.eval σ) (ins.all (Lit.eval σ))
  | .or ins p, [l] => p.Agrees (l.eval σ) (ins.any (Lit.eval σ))
  | .xor ins, [l] => l.eval σ = xorBits (ins.map (Lit.eval σ))
  | .equiv a b, [l] => l.eval σ = (a.eval σ == b.eval σ)
  | .ite c t e, [l] => l.eval σ = if c.eval σ then t.eval σ else e.eval σ
  | .majority a b c, [l] => l.eval σ = CnfEncoder.majority (a.eval σ) (b.eval σ) (c.eval σ)
  | .fullAdder a b c, [sum, carryOut] =>
    sum.eval σ = (a.eval σ ^^ b.eval σ ^^ c.eval σ) ∧
      carryOut.eval σ = CnfEncoder.majority (a.eval σ) (b.eval σ) (c.eval σ)
  | _, _ => False

variable {R : Type} [FloatArith R]

def run : Request → CnfEncoder.Encode R (List SatLit)
  | .and ins p => do return [← CnfEncoder.mkAnd ins p]
  | .or ins p => do return [← CnfEncoder.mkOr ins p]
  | .xor ins => do return [← CnfEncoder.mkXor ins]
  | .equiv a b => do return [← CnfEncoder.mkEquiv a b]
  | .ite c t e => do return [← CnfEncoder.mkIte c t e]
  | .majority a b c => do return [← CnfEncoder.mkMajority a b c]
  | .fullAdder a b c => do
    let (sum, carryOut) ← CnfEncoder.mkFullAdder a b c
    return [sum, carryOut]

open CnfEncoder in
lemma run_spec {e : CnfEncoder R} (r : Request) (hb : ∀ l ∈ r.lits, l.var < e.numVars) :
    requests.Triple e r.run fun outs e' => ∀ σ, Models σ e'.added → r.Honoured σ outs := by
  have hmem : ∀ l ∈ r.lits, l.var < e.numVars := hb
  cases r with
  | and ins p =>
    apply triple_bind (mkAnd_spec hb p)
    exact fun l e' _ _ hl => triple_pure fun _ => hl.2
  | or ins p =>
    apply triple_bind (mkOr_spec hb p)
    exact fun l e' _ _ hl => triple_pure fun _ => hl.2
  | xor ins =>
    apply triple_bind (mkXor_spec hb)
    exact fun l e' _ _ hl => triple_pure fun _ => hl.2
  | equiv a b =>
    apply triple_bind (mkEquiv_spec (hb a (by simp [lits])) (hb b (by simp [lits])))
    exact fun l e' _ _ hl => triple_pure fun _ => hl.2
  | ite c t x =>
    apply triple_bind (mkIte_spec (hb c (by simp [lits])) (hb t (by simp [lits]))
      (hb x (by simp [lits])))
    exact fun l e' _ _ hl => triple_pure fun _ => hl.2
  | majority a b c =>
    apply triple_bind (mkMajority_spec (hb a (by simp [lits])) (hb b (by simp [lits]))
      (hb c (by simp [lits])))
    exact fun l e' _ _ hl => triple_pure fun _ => hl.2
  | fullAdder a b c =>
    apply triple_bind (mkFullAdder_spec (hb a (by simp [lits])) (hb b (by simp [lits]))
      (hb c (by simp [lits])))
    exact fun l e' _ _ hl => triple_pure fun _ σ hσ => ⟨hl.1.2 σ hσ, hl.2.2 σ hσ⟩

end Request

namespace CnfEncoder

variable {R : Type} [FloatArith R]

variable {e : CnfEncoder R}

lemma init_ok {s : SatSolver R} (h : s.Ok) (he : init s = some e) : e.Ok := by
  unfold init at he
  split at he
  · cases he
  next v s₁ hs =>
    obtain ⟨h1, h2, h3, -⟩ := h.newVar hs
    have hv : ∀ l ∈ [(⟨v, false⟩ : SatLit)], l.var < s₁.numVars := by
      intro l hl
      rw [mem_singleton.mp hl, h3, ← h2]
      exact Nat.lt_succ_self v
    obtain ⟨ok, s₂, ha, h4, -, h6⟩ := h1.addClause hv
    rw [ha, map_some, Option.some.injEq] at he
    subst he
    refine ⟨h4, ?_, by simp, by simp, by simp, by simp, .inr ⟨rfl, rfl⟩⟩
    change _ ∈ s₂.added
    rw [h6]
    exact mem_append_right _ (mem_singleton_self _)

lemma Ok.withSolver (h : e.Ok) {s : SatSolver R} (hs : s.Ok)
    (hv : e.numVars ≤ s.numVars) (ha : s.added = e.added) : Ok { e with solver := s } := by
  have hadded : added { e with solver := s } = e.added := ha
  refine ⟨hs, hadded ▸ h.trueLit, h.fits, fun g hg => ?_, fun g hg l hl => ?_, ?_, h.table⟩
  · exact lt_of_lt_of_le (h.out g hg) hv
  · exact lt_of_lt_of_le (h.operands g hg l hl) hv
  · rw [hadded]
    exact h.defined

/-- The encoders that gate requests, root assertions and other uses of the solver produce in any
order. -/
inductive Session : CnfEncoder R → List (Request × List SatLit) → Prop
  | init {s e} : s.Ok → init s = some e → Session e []
  | request {e e' h r outs} : Session e h → (∀ l ∈ r.lits, l.var < e.numVars) →
      r.run e = some (outs, e') → Session e' (h ++ [(r, outs)])
  | freshLit {e e' h l} : Session e h → freshLit e = some (l, e') → Session e' h
  /-- What `assertTrue`, `assertImplies` and each half of `assertEquiv` do. -/
  | addClause {e e' h C ok} : Session e h → (∀ l ∈ C, l.var < e.numVars) →
      addClause C e = some (ok, e') → Session e' h
  | newVar {e h s decision v} : Session e h → e.solver.newVar decision = (some v, s) →
      Session { e with solver := s } h
  | solve {e h s fuel as r} : Session e h → e.solver.solve fuel as = some (r, s) →
      Session { e with solver := s } h
  | setOptions {e h} (opts : SatOptions R) : Session e h →
      Session { e with solver := e.solver.setOptions opts } h

def Kept (e : CnfEncoder R) (h : List (Request × List SatLit)) : Prop :=
  ∀ σ, Models σ e.added → ∀ x ∈ h, x.1.Honoured σ x.2

omit [FloatArith R] in
lemma Kept.withSolver {h : List (Request × List SatLit)} (hk : e.Kept h)
    {s : SatSolver R} (ha : e.added <+: s.added) : Kept { e with solver := s } h :=
  fun σ hσ => hk σ (hσ.mono fun _ hC => ha.subset hC)

lemma Session.ok {h : List (Request × List SatLit)} (hs : Session e h) : e.Ok ∧ e.Kept h := by
  induction hs with
  | init hs he => exact ⟨init_ok hs he, fun _ _ => by simp⟩
  | request _ hb he ih =>
    obtain ⟨h1, h2, h3⟩ := Request.run_spec _ hb ih.1 _ _ he
    refine ⟨h1, fun σ hσ x hx => ?_⟩
    rcases mem_append.mp hx with hx | hx
    · exact ih.2 σ (h2.models hσ) x hx
    · rw [mem_singleton.mp hx]
      exact h3 σ hσ
  | freshLit _ he ih =>
    obtain ⟨s, rfl, h1, h2, h3, -⟩ := freshLit_spec ih.1 he
    exact ⟨(ih.1.fresh h1 h2 h3).1, ih.2.withSolver (h3 ▸ prefix_rfl)⟩
  | addClause _ hb he ih =>
    obtain ⟨ok, s, he', h1, h2, h3⟩ := addClause_spec ih.1.solver hb
    rw [he', Option.some.injEq, Prod.mk.injEq] at he
    obtain ⟨-, rfl⟩ := he
    exact ⟨ih.1.withClauses h1 h2 h3, ih.2.withSolver (h3 ▸ prefix_append ..)⟩
  | newVar _ he ih =>
    obtain ⟨h1, -, h3, h4⟩ := ih.1.solver.newVar he
    exact ⟨ih.1.withSolver h1 (h3 ▸ Nat.le_succ _) h4, ih.2.withSolver (h4 ▸ prefix_rfl)⟩
  | solve _ he ih =>
    obtain ⟨h1, h2, h3⟩ := ih.1.solver.solve he
    exact ⟨ih.1.withSolver h1 (le_of_eq h2.symm) h3, ih.2.withSolver (h3 ▸ prefix_rfl)⟩
  | setOptions opts _ ih =>
    exact ⟨ih.1.withSolver (ih.1.solver.setOptions opts) (le_refl _) rfl, ih.2⟩

/-- Every model of the clauses gives every literal returned so far the value of
its gate in the directions requested for it; and a request leaves every model
of the earlier clauses extendable to the variables it creates, provided that
the model gives the gates whose definition the request completes their values. -/
theorem Session.encoding_exact {e : CnfEncoder R} {h : List (Request × List SatLit)}
    (hs : Session e h) : (∀ σ, Models σ e.added → ∀ x ∈ h, x.1.Honoured σ x.2) ∧
      ∀ (r : Request) outs e', (∀ l ∈ r.lits, l.var < e.numVars) → r.run e = some (outs, e') →
          ∀ σ, Models σ e.added →
          (∀ (i : Nat) (g : Gate), e.gates[i]? = some g → e'.gates[i]? ≠ some g →
          g.out.eval σ = g.value σ) → ∃ τ, (∀ v < e.numVars, τ v = σ v) ∧ Models τ e'.added := by
  obtain ⟨hok, hkept⟩ := hs.ok
  refine ⟨hkept, fun r outs e' hb he σ hσ hp => ?_⟩
  obtain ⟨-, hle, -⟩ := r.run_spec hb hok outs e' he
  obtain ⟨τ, hτ⟩ := hle.lift σ hσ hp
  exact ⟨τ, hτ.agrees, hτ.models⟩

/-- A satisfying answer comes with values that every literal returned so far agrees with, and a
negative one means that no assignment does what was asserted and assumed. -/
theorem Session.solve_exact {h : List (Request × List SatLit)} (hs : Session e h) {fuel : Nat}
    {as : List SatLit}
    {r : SatResult} {s' : SatSolver R} (he : e.solver.solve fuel as = some (r, s')) :
    (r = .sat → (∀ v < e.numVars, e.solver.engine.decidable v = true ∨ ∃ b, [⟨v, b⟩] ∈ e.added) →
      Models s'.engine.modelAssignment e.added ∧ (∀ a ∈ as, a.Holds s'.engine.modelAssignment) ∧
        ∀ x ∈ h, x.1.Honoured s'.engine.modelAssignment x.2) ∧
    (r = .unsat → ∀ σ, Models σ e.added → ∃ a ∈ as, ¬a.Holds σ) := by
  obtain ⟨hok, hkept⟩ := hs.ok
  obtain ⟨⟨r, s₁⟩, he₁, hpair⟩ := Option.map_eq_some_iff.mp he
  cases hpair
  rcases SatEngine.solve_answered (SatEngine.Run.holding hok.solver)
    he₁ with ⟨rfl, -⟩ | ⟨rfl, -, hsub, hun⟩ |
    ⟨rfl, -⟩ | ⟨rfl, -, m, hm, hvars, hdrain, hdec, hass, hmodel⟩
  · exact ⟨nofun, nofun⟩
  · refine ⟨nofun, fun _ σ hσ => ?_⟩
    by_contra! hall
    exact hun σ ((SatEngine.models_assuming ..).mpr ⟨hσ, fun a ha => hall a (hsub a ha)⟩)
  · exact ⟨nofun, nofun⟩
  · refine ⟨fun _ hdet => ?_, nofun⟩
    have htrail := hm.settled.core.trail
    have hall : ∀ v < m.numVars, m.value v ≠ none := by
      intro v hv
      rw [hvars] at hv
      rcases hdet v hv with hd | ⟨b, hb⟩
      · exact hdec v hv hd
      · intro hnone
        exact (htrail.value_none v).mp hnone _ (hm.settled.unit_assigned (mem_append_left _ hb)) rfl
    have hmodels : Models s₁.modelAssignment e.added := by
      intro C hC
      rcases hm.settled.satisfied hdrain hall (mem_append_left _ hC) with ht | ⟨l, hl, hlt⟩
      · exact SatEngine.holds_of_tautology ht
      · exact ⟨l, hl, SatEngine.holds_of_trail htrail hmodel hlt⟩
    exact ⟨hmodels, fun a ha => SatEngine.holds_of_trail htrail hmodel (hass a ha), hkept _ hmodels⟩

lemma emptyEncoder_isSome : (init (SatSolver.init SatEngine.SatOptions.default)).isSome := by
  decide

def emptyEncoder : CnfEncoder Rat :=
  (init (SatSolver.init SatEngine.SatOptions.default)).get emptyEncoder_isSome

lemma emptyEncoder_session : Session emptyEncoder [] :=
  .init (SatSolver.ok_init _) (some_get emptyEncoder_isSome).symm

lemma oneInput_isSome : (freshLit emptyEncoder).isSome := by decide

lemma twoInputs_isSome : (freshLit ((freshLit emptyEncoder).get oneInput_isSome).2).isSome := by
  decide

def twoInputs : CnfEncoder Rat :=
  ((freshLit ((freshLit emptyEncoder).get oneInput_isSome).2).get twoInputs_isSome).2

lemma twoInputs_session : Session twoInputs [] :=
  .freshLit (.freshLit emptyEncoder_session (some_get oneInput_isSome).symm)
    (some_get twoInputs_isSome).symm

def conjunction (p : GatePolarity) : Request := .and [⟨1, false⟩, ⟨2, false⟩] p

lemma halfDefined_isSome : ((conjunction .positive).run twoInputs).isSome := by decide +kernel

/-- The conjunction was requested as `g → a ∧ b` only. -/
@[irreducible] def halfDefined : List SatLit × CnfEncoder Rat :=
  ((conjunction .positive).run twoInputs).get halfDefined_isSome

lemma halfDefined_run : (conjunction .positive).run twoInputs = some (halfDefined.1,
      halfDefined.2) := by
  rw [Prod.mk.eta, halfDefined, some_get]

lemma halfDefined_session : Session halfDefined.2 [(conjunction .positive, halfDefined.1)] :=
  .request twoInputs_session (by decide) halfDefined_run

lemma completed_isSome : ((conjunction .negative).run halfDefined.2).isSome := by decide +kernel

@[irreducible] def completed : List SatLit × CnfEncoder Rat :=
  ((conjunction .negative).run halfDefined.2).get completed_isSome

lemma completed_run : (conjunction .negative).run halfDefined.2 =
    some (completed.1, completed.2) := by
  rw [Prod.mk.eta, completed, some_get]

def gateFalse (v : SatVar) : Bool := v != 3

lemma halfDefined_facts : halfDefined.1 = [⟨3, false⟩] ∧ halfDefined.2.numVars = 4 ∧
    Models gateFalse halfDefined.2.added ∧ Models (fun _ => true) halfDefined.2.added ∧
      (∀ g ∈ halfDefined.2.gates, g.out.eval (fun _ => true) = g.value fun _ => true) ∧
        [⟨3, false⟩, ⟨1, true⟩, ⟨2, true⟩] ∈ completed.2.added ∧
          (halfDefined.2.solver.solve 10 [⟨3, false⟩]).map Prod.fst = some .sat ∧
            ∀ v < halfDefined.2.numVars, halfDefined.2.solver.engine.decidable v = true ∨
              ∃ b, [⟨v, b⟩] ∈ halfDefined.2.added := by
  decide +kernel

lemma halfDefined_inputs : ∀ l ∈ (conjunction .negative).lits, l.var < halfDefined.2.numVars := by
  rw [halfDefined_facts.2.1]
  decide

/-- Completing a half-defined gate does constrain earlier variables: the
assignment above satisfies the first half alone. -/
theorem Session.extension_fails : ¬ ∀ (e : CnfEncoder Rat) h, Session e h → ∀ (r : Request) outs e',
      (∀ l ∈ r.lits, l.var < e.numVars) → r.run e = some (outs, e') →
        ∀ σ, Models σ e.added → ∃ τ, (∀ v < e.numVars, τ v = σ v) ∧ Models τ e'.added := by
  intro hall
  obtain ⟨-, hvars, hfalse, -, -, hclause, -⟩ := halfDefined_facts
  obtain ⟨τ, hold, hτ⟩ := hall _ _ halfDefined_session (conjunction .negative) _ _
    halfDefined_inputs completed_run gateFalse hfalse
  have := hτ _ hclause
  rw [hvars] at hold
  simp [Lit.Holds, hold, gateFalse] at this

theorem Session.encoding_exact_halfDefined :
    (∀ σ, Models σ halfDefined.2.added → GatePolarity.positive.Agrees (σ 3) (σ 1 && σ 2)) ∧
      ∃ τ : SatVar → Bool, (∀ v < 4, τ v = true) ∧ Models τ completed.2.added := by
  obtain ⟨hkept, hlift⟩ := Session.encoding_exact halfDefined_session
  obtain ⟨hlits, hvars, -, hmodels, hgates, -⟩ := halfDefined_facts
  constructor
  · intro σ hσ
    have hreq : (conjunction .positive).Honoured σ halfDefined.1 :=
      hkept σ hσ (conjunction .positive, halfDefined.1) (mem_singleton_self _)
    rw [hlits] at hreq
    simpa [conjunction, Request.Honoured, Lit.eval] using hreq
  · obtain ⟨τ, hold, hτ⟩ := hlift (conjunction .negative) completed.1 completed.2 halfDefined_inputs
      completed_run (fun _ => true) hmodels fun i g hg _ => hgates g (mem_of_getElem? hg)
    rw [hvars] at hold
    exact ⟨τ, hold, hτ⟩

theorem Session.solve_exact_halfDefined :
    ∃ s', halfDefined.2.solver.solve 10 [⟨3, false⟩] = some (.sat, s') ∧
    (conjunction .positive).Honoured s'.engine.modelAssignment halfDefined.1 := by
  obtain ⟨-, -, -, -, -, -, hanswer, hdet⟩ := halfDefined_facts
  obtain ⟨⟨_, s'⟩, he, rfl⟩ := Option.map_eq_some_iff.mp hanswer
  exact ⟨s', he,
    (((Session.solve_exact halfDefined_session he).1 rfl hdet).2.2 _ (mem_singleton_self _))⟩

end CnfEncoder

end NeverD.Cnf
