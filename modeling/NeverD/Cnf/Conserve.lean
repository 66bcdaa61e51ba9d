import NeverD.Cnf.Emit

namespace NeverD.Cnf
open Lib NeverD.Sat List Nat Bool Option

variable {g : Gate} {σ : SatVar → Bool} {table : List GateBucket}

namespace CnfEncoder

variable {R : Type} [FloatArith R]

def numVars (e : CnfEncoder R) : Nat := e.solver.numVars

def added (e : CnfEncoder R) : List (List SatLit) := e.solver.added

/-- The gates name existing variables, and the clauses define the halves that
are marked as emitted. -/
structure Ok (e : CnfEncoder R) : Prop where
  solver : e.solver.Ok
  trueLit : [e.trueLit] ∈ e.added
  fits : ∀ g ∈ e.gates, g.kind.Fits g.operands.length
  out : ∀ g ∈ e.gates, g.out.var < e.numVars
  operands : ∀ g ∈ e.gates, ∀ l ∈ g.operands, l.var < e.numVars
  defined : ∀ g ∈ e.gates, ∀ σ, Models σ e.added → g.Defined σ
  table : TableOk e.gateTable e.gates.length ∨ (e.gateTable = [] ∧ e.gates.length = 0)

structure Grown (e e' : CnfEncoder R) : Prop where
  vars : e.numVars ≤ e'.numVars
  added : e.added <+: e'.added
  trueLit : e'.trueLit = e.trueLit
  gates : ∀ (i : Nat) (g : Gate), e.gates[i]? = some g → ∃ g' : Gate, e'.gates[i]? = some g' ∧
    g'.Completes g

/-- An assignment gives every gate its value whose definition changes between
the two encoders. -/
def Prepared (e e' : CnfEncoder R) (σ : SatVar → Bool) : Prop :=
  ∀ (i : Nat) (g : Gate), e.gates[i]? = some g → e'.gates[i]? ≠ some g → g.out.eval σ = g.value σ

/-- The assignment `τ` of the later encoder continues `σ` of the earlier one and
gives the new gates their values. -/
structure Continues (e e' : CnfEncoder R) (σ τ : SatVar → Bool) : Prop where
  agrees : ∀ v < e.numVars, τ v = σ v
  models : Models τ e'.added
  gates : ∀ (i : Nat) (g : Gate), e.gates.length ≤ i → e'.gates[i]? = some g →
    g.out.eval τ = g.value τ

/-- Growing without constraining what was there: a model of the earlier clauses
has a continuation. -/
structure Conserves (e e' : CnfEncoder R) : Prop extends Grown e e' where
  lift : ∀ σ, Models σ e.added → Prepared e e' σ → ∃ τ, Continues e e' σ τ

omit [FloatArith R] in
lemma Grown.refl (e : CnfEncoder R) : Grown e e :=
  ⟨le_refl _, prefix_rfl, rfl, fun _ g h => ⟨g, h, .refl g⟩⟩

variable {e e' : CnfEncoder R}

omit [FloatArith R] in
lemma Grown.trans {e'' : CnfEncoder R} (h : Grown e e') (h' : Grown e' e'') : Grown e e'' := by
  refine ⟨h.vars.trans h'.vars, h.added.trans h'.added, h'.trueLit.trans h.trueLit, ?_⟩
  intro i g hg
  obtain ⟨g', hg', hc⟩ := h.gates i g hg
  obtain ⟨g'', hg'', hc'⟩ := h'.gates i g' hg'
  exact ⟨g'', hg'', hc'.trans hc⟩

omit [FloatArith R] in
lemma Grown.models (h : Grown e e')
    (hσ : Models σ e'.added) : Models σ e.added := hσ.mono fun _ hC => h.added.subset hC

omit [FloatArith R] in
lemma Conserves.refl (e : CnfEncoder R) : Conserves e e := by
  refine ⟨.refl e, fun σ hσ _ => ⟨σ, fun _ _ => rfl, hσ, fun i g hi hg => ?_⟩⟩
  rw [getElem?_eq_none hi] at hg
  cases hg

lemma Ok.value_continued {τ : SatVar → Bool} (h : e.Ok) (hc : Continues e e' σ τ)
    (hg : g ∈ e.gates) : g.out.eval τ = g.out.eval σ ∧ g.value τ = g.value σ :=
  ⟨Lit.eval_congr (hc.agrees _ (h.out g hg)),
    Gate.value_congr fun l hl => hc.agrees _ (h.operands g hg l hl)⟩

lemma Conserves.trans {e'' : CnfEncoder R} (ho : e.Ok) (ho' : e'.Ok) (h : Conserves e e')
    (h' : Conserves e' e'') : Conserves e e'' := by
  refine ⟨h.toGrown.trans h'.toGrown, fun σ hσ hp => ?_⟩
  have hp₁ : Prepared e e' σ := by
    intro i g hg hne
    refine hp i g hg fun hsame => hne ?_
    -- A gate that ends as it began was not completed in between.
    obtain ⟨g', hg', hc⟩ := h.gates i g hg
    obtain ⟨g'', hg'', hc'⟩ := h'.gates i g' hg'
    rw [hsame, some.injEq] at hg''
    subst hg''
    rw [hg', hc.antisymm hc']
  obtain ⟨τ, hτ⟩ := h.lift σ hσ hp₁
  have hp₂ : Prepared e' e'' τ := by
    intro i g' hg' hne
    by_cases hi : i < e.gates.length
    · obtain ⟨g₁, hg₁, hc⟩ := h.gates i e.gates[i] (getElem?_eq_getElem hi)
      have he : g₁ = g' := some.inj (hg₁.symm.trans hg')
      subst he
      have hold := ho.value_continued hτ (getElem_mem hi)
      have hneq : e''.gates[i]? ≠ some e.gates[i] := by
        intro hsame
        obtain ⟨g₂, hg₂, hc'⟩ := h'.gates i g₁ hg'
        rw [hsame, some.injEq] at hg₂
        subst hg₂
        rw [hsame, hc.antisymm hc'] at hne
        exact hne rfl
      rw [hc.out, hc.value τ, hold.1, hold.2]
      exact hp i _ (getElem?_eq_getElem hi) hneq
    · exact hτ.gates i g' (not_lt.mp hi) hg'
  obtain ⟨υ, hυ⟩ := h'.lift τ hτ.models hp₂
  refine ⟨υ, fun v hv => ?_, hυ.models, fun i g'' hi hg'' => ?_⟩
  · rw [hυ.agrees v (lt_of_lt_of_le hv h.vars), hτ.agrees v hv]
  · by_cases hi' : i < e'.gates.length
    · obtain ⟨g₁, hg₁, hc⟩ := h'.gates i e'.gates[i] (getElem?_eq_getElem hi')
      have he : g₁ = g'' := some.inj (hg₁.symm.trans hg'')
      subst he
      have hold := ho'.value_continued hυ (getElem_mem hi')
      rw [hc.out, hc.value υ, hold.1, hold.2]
      exact hτ.gates i _ hi (getElem?_eq_getElem hi')
    · exact hυ.gates i g'' (not_lt.mp hi') hg''

/-- Gate requests keep the encoder well formed and constrain nothing. -/
def requests : Growth (CnfEncoder R) where
  Ok := Ok
  Le := Conserves
  refl := Conserves.refl
  trans := Conserves.trans

lemma addClause_spec (h : e.solver.Ok) {C : List SatLit} (hC : ∀ l ∈ C, l.var < e.numVars) :
    ∃ ok s, addClause C e = some (ok, { e with solver := s }) ∧ s.Ok ∧ s.numVars = e.numVars ∧
      s.added = e.added ++ [C] := by
  obtain ⟨ok, s, he, h1, h2, h3⟩ := h.addClause hC
  refine ⟨ok, s, ?_, h1, h2, h3⟩
  rw [addClause, he]
  rfl

lemma addClauses_spec (Cs : List (List SatLit)) (h : e.solver.Ok)
    (hC : ∀ C ∈ Cs, ∀ l ∈ C, l.var < e.numVars) :
    ∃ s, addClauses Cs e = some ((), { e with solver := s }) ∧ s.Ok ∧ s.numVars = e.numVars ∧
      s.added = e.added ++ Cs := by
  induction Cs generalizing e with
  | nil => exact ⟨e.solver, rfl, h, rfl, (append_nil _).symm⟩
  | cons C Cs ih =>
    obtain ⟨ok, s, he, h1, h2, h3⟩ := addClause_spec h (hC C mem_cons_self)
    obtain ⟨s', he', h4, h5, h6⟩ := ih (e := { e with solver := s }) h1 fun D hD l hl => by
      have hlt := hC D (mem_cons_of_mem C hD) l hl
      rwa [← h2] at hlt
    refine ⟨s', ?_, h4, h5.trans h2, ?_⟩
    · change (addClause C e).bind _ = _
      rw [he]
      exact he'
    · rw [h6]
      change s.added ++ Cs = _
      rw [h3, append_assoc]
      rfl

variable {s : SatSolver R}

lemma Ok.withClauses (h : e.Ok) {Cs : List (List SatLit)}
    (hs : s.Ok) (hv : s.numVars = e.numVars) (ha : s.added = e.added ++ Cs) :
    Ok { e with solver := s } := by
  refine ⟨hs, ?_, h.fits, fun g hg => ?_, fun g hg l hl => ?_, fun g hg σ hσ => ?_, h.table⟩
  · change _ ∈ s.added
    rw [ha]
    exact mem_append_left _ h.trueLit
  · exact Nat.lt_of_lt_of_eq (h.out g hg) hv.symm
  · exact Nat.lt_of_lt_of_eq (h.operands g hg l hl) hv.symm
  · refine h.defined g hg σ (hσ.mono fun C hC => ?_)
    change _ ∈ s.added
    rw [ha]
    exact mem_append_left _ hC

lemma freshLit_spec {l : SatLit} (h : e.Ok)
    (he : freshLit e = some (l, e')) : ∃ s, e' = { e with solver := s } ∧ s.Ok ∧
      s.numVars = e.numVars + 1 ∧ s.added = e.added ∧ l = ⟨e.numVars, false⟩ := by
  unfold freshLit at he
  split at he
  · cases he
  next v s hs =>
    obtain ⟨h1, h2, h3, h4⟩ := h.solver.newVar hs
    simp only [some.injEq, Prod.mk.injEq] at he
    exact ⟨s, he.2.symm, h1, h3, h4, by rw [← he.1, h2]; rfl⟩

lemma Ok.models_update (h : e.Ok)
    (hσ : Models σ e.added) (b : Bool) : Models (Function.update σ e.numVars b) e.added := by
  intro C hC
  refine (hσ C hC).congr fun l hl => Function.update_of_ne ?_ ..
  exact Nat.ne_of_lt (h.solver.bound C hC l hl)

/-- A fresh variable constrains nothing, and may be given either value. -/
theorem Ok.fresh (h : e.Ok) (hs : s.Ok) (hv : s.numVars = e.numVars + 1) (ha : s.added = e.added) :
    Ok { e with solver := s } ∧ Conserves e { e with solver := s } := by
  have hvars : numVars { e with solver := s } = e.numVars + 1 := hv
  have hadded : added { e with solver := s } = e.added := ha
  refine ⟨⟨hs, ?_, h.fits, fun g hg => ?_, fun g hg l hl => ?_, ?_, h.table⟩,
    ⟨⟨?_, ?_, rfl, fun i g hg => ⟨g, hg, .refl g⟩⟩, fun σ hσ _ => ⟨σ, ?_, ?_, ?_⟩⟩⟩
  · rw [hadded]
    exact h.trueLit
  · exact (h.out g hg).trans (by omega)
  · exact (h.operands g hg l hl).trans (by omega)
  · rw [hadded]
    exact h.defined
  · omega
  · exact hadded ▸ prefix_rfl
  · exact fun _ _ => rfl
  · rw [hadded]
    exact hσ
  · intro i g hi hg
    rw [getElem?_eq_none hi] at hg
    cases hg

def withGate (e : CnfEncoder R) (s : SatSolver R) (kind : GateKind) (ins : List SatLit)
    (table : List GateBucket) : CnfEncoder R :=
  { e with
    solver := s
    gates := e.gates ++ [({ kind := kind, operands := ins, out := ⟨e.numVars, false⟩ } : Gate)]
    gateTable := table }

variable {ins : List SatLit} {kind : GateKind}

lemma Ok.withGate (h : e.Ok) (hs : s.Ok) (hv : s.numVars = e.numVars + 1) (ha : s.added = e.added)
    (hf : kind.Fits ins.length) (hb : ∀ l ∈ ins, l.var < e.numVars)
    (ht : TableOk table (e.gates.length + 1)) :
    (e.withGate s kind ins table).Ok ∧ Conserves e (e.withGate s kind ins table) := by
  have hvars : (e.withGate s kind ins table).numVars = e.numVars + 1 := hv
  have hadded : (e.withGate s kind ins table).added = e.added := ha
  have hgates : (e.withGate s kind ins table).gates =
    e.gates ++ [({ kind := kind, operands := ins, out := ⟨e.numVars, false⟩ } : Gate)] := rfl
  constructor
  · refine ⟨hs, ?_, ?_, ?_, ?_, ?_, .inl ?_⟩
    · rw [hadded]
      exact h.trueLit
    · intro g hg
      rcases mem_append.mp hg with hg | hg
      · exact h.fits g hg
      · rw [mem_singleton.mp hg]
        exact hf
    · intro g hg
      rw [hvars]
      rcases mem_append.mp hg with hg | hg
      · exact (h.out g hg).trans (lt_succ_self _)
      · rw [mem_singleton.mp hg]
        exact lt_succ_self _
    · intro g hg l hl
      rw [hvars]
      rcases mem_append.mp hg with hg | hg
      · exact (h.operands g hg l hl).trans (lt_succ_self _)
      · rw [mem_singleton.mp hg] at hl
        exact (hb l hl).trans (lt_succ_self _)
    · intro g hg σ hσ
      rw [hadded] at hσ
      rcases mem_append.mp hg with hg | hg
      · exact h.defined g hg σ hσ
      · rw [mem_singleton.mp hg]
        exact ⟨fun hp => (nomatch hp), fun hn => (nomatch hn)⟩
    · rw [hgates, length_append, length_singleton]
      exact ht
  · refine ⟨⟨by omega, hadded ▸ prefix_rfl, rfl, fun i g hg => ⟨g, ?_, .refl g⟩⟩, fun σ hσ _ => ?_⟩
    · rw [hgates, getElem?_append_left (List.getElem?_eq_some_iff.mp hg).1]
      exact hg
    · -- The new variable takes the value of its gate.
      let τ := Function.update σ e.numVars (gateValue kind (ins.map (Lit.eval σ)))
      have hold : ∀ v < e.numVars, τ v = σ v := fun v hv => Function.update_of_ne (by omega) ..
      refine ⟨τ, hold, ?_, fun i g hi hg => ?_⟩
      · rw [hadded]
        exact h.models_update hσ _
      · rw [hgates, getElem?_append_right hi, getElem?_singleton] at hg
        split at hg
        · cases hg
          have hins : ins.map (Lit.eval τ) = ins.map (Lit.eval σ) :=
            map_congr_left fun l hl => Lit.eval_congr (hold _ (hb l hl))
          simp [Gate.value, Lit.eval, hins, τ]
        · cases hg

def withHalves (e : CnfEncoder R) (s : SatSolver R) (i : Nat) (g : Gate) : CnfEncoder R :=
  { e with solver := s, gates := e.gates.set i g }

lemma Ok.withHalves (h : e.Ok) {i : Nat} (hg : e.gates[i]? = some g) {positive negative : Bool}
    (hs : s.Ok)
    (hv : s.numVars = e.numVars) (ha : s.added = e.added ++ missingClauses g positive negative) :
    (e.withHalves s i (g.emitted positive negative)).Ok := by
  have hvars : (e.withHalves s i (g.emitted positive negative)).numVars = e.numVars := hv
  have hadded : (e.withHalves s i (g.emitted positive negative)).added =
    e.added ++ missingClauses g positive negative := ha
  have hmem : g ∈ e.gates := mem_of_getElem? hg
  have hc : (g.emitted positive negative).Completes g := emitted_completes
  have hcases : ∀ x ∈ (e.withHalves s i (g.emitted positive negative)).gates,
      x ∈ e.gates ∨ x = g.emitted positive negative := fun x hx => mem_or_eq_of_mem_set hx
  refine ⟨hs, ?_, fun x hx => ?_, fun x hx => ?_, fun x hx l hl => ?_, fun x hx σ hσ => ?_, ?_⟩
  · rw [hadded]
    exact mem_append_left _ h.trueLit
  · rcases hcases x hx with hx | rfl
    · exact h.fits x hx
    · rw [hc.kind, hc.operands]
      exact h.fits g hmem
  · rw [hvars]
    rcases hcases x hx with hx | rfl
    · exact h.out x hx
    · rw [hc.out]
      exact h.out g hmem
  · rw [hvars]
    rcases hcases x hx with hx | rfl
    · exact h.operands x hx l hl
    · exact h.operands g hmem l (hc.operands ▸ hl)
  · rw [hadded, models_append] at hσ
    rcases hcases x hx with hx | rfl
    · exact h.defined x hx σ hσ.1
    · exact emitted_defined (h.fits g hmem) (h.defined g hmem σ hσ.1) hσ.2
  · simpa [CnfEncoder.withHalves] using h.table

lemma Ok.withHalves_conserves (h : e.Ok) {i : Nat} (hg : e.gates[i]? = some g)
    {positive negative : Bool} (hnew : g.emitted positive negative ≠ g) (hv : s.numVars = e.numVars)
    (ha : s.added = e.added ++ missingClauses g positive negative) :
    Conserves e (e.withHalves s i (g.emitted positive negative)) := by
  have hadded : (e.withHalves s i (g.emitted positive negative)).added =
    e.added ++ missingClauses g positive negative := ha
  obtain ⟨hi, -⟩ := List.getElem?_eq_some_iff.mp hg
  refine ⟨⟨le_of_eq hv.symm, ?_, rfl, fun j x hx => ?_⟩, fun σ hσ hp => ⟨σ, fun _ _ => rfl, ?_, ?_⟩⟩
  · rw [hadded]
    exact prefix_append ..
  · by_cases hij : i = j
    · subst hij
      rw [hg, some.injEq] at hx
      subst hx
      exact ⟨_, getElem?_set_self hi, emitted_completes⟩
    · refine ⟨x, ?_, .refl x⟩
      rw [CnfEncoder.withHalves, getElem?_set_ne hij]
      exact hx
  · -- The gate changes, so the assignment gives it its value already.
    have hchange : (e.withHalves s i (g.emitted positive negative)).gates[i]? ≠ some g := by
      rw [CnfEncoder.withHalves, getElem?_set_self hi]
      simpa using hnew
    rw [hadded, models_append]
    exact ⟨hσ, models_missingClauses_of_eq (h.fits g (mem_of_getElem? hg)) (hp i g hg hchange)⟩
  · intro j x hj hx
    rw [CnfEncoder.withHalves, getElem?_eq_none (by simpa using hj)] at hx
    cases hx

lemma emit_apply (i : Nat) (p : GatePolarity) : emit i p e = (match e.gates[i]? with
    | none => failure
    | some g =>
      let positive := p != .negative && !g.positiveEmitted
      let negative := p != .positive && !g.negativeEmitted
      if !positive && !negative then pure ()
      else do
        set { e with gates := e.gates.set i (g.emitted positive negative) }
        addClauses (missingClauses g positive negative) : Encode R Unit) e := rfl

lemma emit_spec (h : e.Ok) {i : Nat} (hg : e.gates[i]? = some g)
    (p : GatePolarity) : ∃ e' g', emit i p e = some ((), e') ∧ e'.Ok ∧ Conserves e e' ∧
      e'.gates[i]? = some g' ∧ g'.Completes g ∧ (p ≠ .negative → g'.positiveEmitted = true) ∧
      (p ≠ .positive → g'.negativeEmitted = true) := by
  have hmem : g ∈ e.gates := mem_of_getElem? hg
  obtain ⟨hi, -⟩ := List.getElem?_eq_some_iff.mp hg
  generalize hpos : (p != .negative && !g.positiveEmitted) = positive
  generalize hneg : (p != .positive && !g.negativeEmitted) = negative
  have hrun : emit i p e = if (!positive && !negative) = true then some ((), e) else
      addClauses (missingClauses g positive negative)
        { e with gates := e.gates.set i (g.emitted positive negative) } := by
    subst hpos hneg
    rw [emit_apply, hg]
    dsimp only
    split <;> rfl
  have hwant : (p ≠ .negative → g.positiveEmitted = true ∨ positive = true) ∧
      (p ≠ .positive → g.negativeEmitted = true ∨ negative = true) := by
    subst hpos hneg
    cases p <;> cases g.positiveEmitted <;> cases g.negativeEmitted <;> simp
  rw [hrun]
  split
  next hnone =>
    simp only [and_eq_true, not_eq_true'] at hnone
    rw [hnone.1, hnone.2] at hwant
    refine ⟨e, g, rfl, h, .refl e, hg, .refl g, ?_, ?_⟩
    · simpa using hwant.1
    · simpa using hwant.2
  next hsome =>
    obtain ⟨s, hs, h1, h2, h3⟩ := addClauses_spec (missingClauses g positive negative)
      (e := { e with gates := e.gates.set i (g.emitted positive negative) }) h.solver
      (missingClauses_vars (h.out g hmem) (h.operands g hmem))
    have hhalf : (positive = true → (g.emitted positive negative).positiveEmitted = true) ∧
      (negative = true → (g.emitted positive negative).negativeEmitted = true) := emitted_halves
    have hc : (g.emitted positive negative).Completes g := emitted_completes
    have hnew : g.emitted positive negative ≠ g := by
      intro heq
      rw [heq] at hhalf
      subst hpos hneg
      apply hsome
      cases p <;> cases hgp : g.positiveEmitted <;> cases hgn : g.negativeEmitted <;> simp_all
    refine ⟨e.withHalves s i (g.emitted positive negative), g.emitted positive negative, hs,
      h.withHalves hg h1 h2 h3, h.withHalves_conserves hg hnew h2 h3, getElem?_set_self hi,
      hc, fun hp => ?_, fun hp => ?_⟩
    · exact (hwant.1 hp).elim hc.positive hhalf.1
    · exact (hwant.2 hp).elim hc.negative hhalf.2

/-- In every model of the clauses the literal has the value `f` in the
directions `p` asks for. -/
def Yields (e : CnfEncoder R) (p : GatePolarity) (l : SatLit) (f : (SatVar → Bool) → Bool) : Prop :=
  l.var < e.numVars ∧ ∀ σ, Models σ e.added → p.Agrees (l.eval σ) (f σ)

def Gated (e : CnfEncoder R) (kind : GateKind) (ins : List SatLit) (p : GatePolarity) (l : SatLit) :
    Prop :=
  e.Yields p l fun σ => gateValue kind (ins.map (Lit.eval σ))

lemma Ok.gated (h : e.Ok) (hg : g ∈ e.gates) {p : GatePolarity}
    (hp : p ≠ .negative → g.positiveEmitted = true)
    (hn : p ≠ .positive → g.negativeEmitted = true) : e.Gated g.kind g.operands p g.out :=
  ⟨h.out g hg, fun σ hσ => ⟨fun hp' => (h.defined g hg σ hσ).1 (hp hp'),
    fun hn' => (h.defined g hg σ hσ).2 (hn hn')⟩⟩

def Requested (e : CnfEncoder R) (m : Encode R SatLit) (kind : GateKind) (ins : List SatLit)
    (p : GatePolarity) : Prop :=
  (freshLit e = none ∧ m e = none) ∨ ∃ l e', m e = some (l, e') ∧ e'.Ok ∧ Conserves e e' ∧
    e'.Gated kind ins p l

lemma pushGate_spec (h : e.Ok) (hf : kind.Fits ins.length) (hb : ∀ l ∈ ins, l.var < e.numVars)
    (p : GatePolarity) {slot : Nat} (fingerprint : UInt32)
    (ht : TableOk table e.gates.length) {x : GateBucket} (hx : table[slot]? = some x)
    (h0 : x.index = 0) (hroom : e.gates.length + 1 < table.length) :
    e.Requested (pushGate table slot fingerprint kind ins p) kind ins p := by
  cases hfresh : freshLit e with
  | none =>
    refine .inl ⟨hfresh, ?_⟩
    change (freshLit e).bind _ = _
    rw [hfresh]
    rfl
  | some r =>
    obtain ⟨out, e₁⟩ := r
    obtain ⟨s, rfl, h1, h2, h3, rfl⟩ := freshLit_spec h hfresh
    have hfile := ht.file (b := ⟨fingerprint, e.gates.length + 1⟩) hx h0 (succ_ne_zero _) hroom
    obtain ⟨hok, hcons⟩ := h.withGate h1 h2 h3 hf hb hfile
    have hg : (e.withGate s kind ins (table.set slot ⟨fingerprint, e.gates.length + 1⟩)).gates[
        e.gates.length]? = some { kind := kind, operands := ins, out := ⟨e.numVars, false⟩ } :=
      getElem?_concat_length
    obtain ⟨e', g', he, hok', hcons', hg', hc, hp, hn⟩ := emit_spec hok hg p
    have hgated := hok'.gated (mem_of_getElem? hg') hp hn
    rw [hc.kind, hc.operands, hc.out] at hgated
    refine .inr ⟨⟨e.numVars, false⟩, e', ?_, hok', hcons.trans h hok hcons', hgated⟩
    change (freshLit e).bind _ = _
    rw [hfresh]
    change (emit _ p (e.withGate s kind ins _)).bind _ = _
    rw [he]
    rfl

lemma gateAt_apply {slot : Nat} {fingerprint : UInt32} {b : GateBucket} {p : GatePolarity}
    (hget : table.getD slot ({} : GateBucket) = b) :
    gateAt table slot fingerprint kind ins p e = (if b.index ≠ 0 then (do
        emit (b.index - 1) p
        match e.gates[b.index - 1]? with
        | none => failure
        | some g => pure g.out : Encode R SatLit)
      else if table.length - table.length / 4 ≤ e.gates.length then
        match growGateTable table with
        | none => failure
        | some table =>
          match probeFor table (fun _ => false) fingerprint with
          | none => failure
          | some slot => pushGate table slot fingerprint kind ins p
      else pushGate table slot fingerprint kind ins p) e := by
  rw [← hget]
  rfl

lemma gateAt_spec (h : e.Ok) (hf : kind.Fits ins.length) (hb : ∀ l ∈ ins, l.var < e.numVars)
    (p : GatePolarity) (ht : TableOk table e.gates.length) {slot : Nat}
    {fingerprint : UInt32} {b : GateBucket} (hslot : table[slot]? = some b)
    (hhit : b.index = 0 ∨ e.gateHit kind ins fingerprint b = true) :
    e.Requested (gateAt table slot fingerprint kind ins p) kind ins p := by
  have hget : table.getD slot ({} : GateBucket) = b := by
    rw [List.getD, hslot]
    rfl
  have hlen : 64 ≤ table.length := by
    obtain ⟨k, hk, hk6⟩ := ht.size
    rw [hk]
    calc 64 = 2 ^ 6 := rfl
      _ ≤ 2 ^ k := Nat.pow_le_pow_right Nat.two_pos hk6
  unfold Requested
  simp only [gateAt_apply hget]
  split
  · -- The bucket names a gate that was compared operand by operand.
    rename_i hne
    have hmatch := hhit.resolve_left hne
    rw [gateHit, and_eq_true] at hmatch
    cases hg : e.gates[b.index - 1]? with
    | none =>
      rw [hg] at hmatch
      simp at hmatch
    | some g =>
      rw [hg] at hmatch
      simp only [and_eq_true, decide_eq_true_eq] at hmatch
      obtain ⟨-, rfl, rfl⟩ := hmatch
      obtain ⟨e', g', he, hok', hcons', hg', hc, hp, hn⟩ := emit_spec h hg p
      have hgated := hok'.gated (mem_of_getElem? hg') hp hn
      rw [hc.kind, hc.operands, hc.out] at hgated
      refine .inr ⟨g.out, e', ?_, hok', hcons', hgated⟩
      change (emit _ p e).bind _ = _
      rw [he]
      rfl
  next hzero =>
    rw [ne_eq, Decidable.not_not] at hzero
    split
    · obtain ⟨t, hgrow, hroom, hok⟩ := growGateTable_total (.inl ht)
      obtain ⟨slot', hslot'⟩ := probeFor_total hok (fun _ => false) fingerprint
      obtain ⟨x, hx, hx0⟩ := probe_some _ hslot'
      rw [hgrow]
      dsimp only
      rw [hslot']
      have hspace : e.gates.length + 1 < t.length := by omega
      exact pushGate_spec h hf hb p _ hok hx (by simpa using hx0) hspace
    next hload =>
      have hspace : e.gates.length + 1 < table.length := by omega
      exact pushGate_spec h hf hb p _ ht hslot hzero hspace

lemma gate_apply (p : GatePolarity) : gate kind ins p e = (match
      if e.gateTable.isEmpty then growGateTable e.gateTable else some e.gateTable with
    | none => failure
    | some table =>
      match probeFor table (e.gateHit kind ins (gateFingerprint (gateHash kind ins)))
          (gateFingerprint (gateHash kind ins)) with
      | none => failure
      | some slot => gateAt table slot (gateFingerprint (gateHash kind ins)) kind ins p :
          Encode R SatLit) e := rfl

lemma gate_spec (h : e.Ok) (hf : kind.Fits ins.length) (hb : ∀ l ∈ ins, l.var < e.numVars)
    (p : GatePolarity) : e.Requested (gate kind ins p) kind ins p := by
  obtain ⟨table, htab, ht⟩ : ∃ table, (if e.gateTable.isEmpty then growGateTable e.gateTable
      else some e.gateTable) = some table ∧ TableOk table e.gates.length := by
    by_cases hempty : e.gateTable.isEmpty = true
    · obtain ⟨t, ht, -, hok⟩ := growGateTable_total h.table
      exact ⟨t, by rw [if_pos hempty, ht], hok⟩
    · refine ⟨e.gateTable, by rw [if_neg hempty], h.table.resolve_right fun hn => hempty ?_⟩
      rw [hn.1]
      rfl
  obtain ⟨slot, hslot⟩ := probeFor_total ht
    (e.gateHit kind ins (gateFingerprint (gateHash kind ins))) (gateFingerprint (gateHash kind ins))
  obtain ⟨b, hb', hhit⟩ := probe_some _ hslot
  have hrun : gate kind ins p e = gateAt table slot (gateFingerprint (gateHash kind ins))
      kind ins p e := by
    rw [gate_apply, htab]
    dsimp only
    rw [hslot]
  have hspec := gateAt_spec h hf hb p ht hb' hhit
  unfold Requested at hspec ⊢
  rw [hrun]
  exact hspec

lemma Requested.triple {m : Encode R SatLit} {p : GatePolarity}
    (h : e.Ok → e.Requested m kind ins p) :
    requests.Triple e m fun l e' => e'.Gated kind ins p l := by
  intro hok l e' he
  rcases h hok with ⟨-, hn⟩ | ⟨l₁, e₁, he₁, h1, h2, h3⟩
  · rw [StateT.run, hn] at he
    cases he
  · rw [StateT.run, he₁, some.injEq, Prod.mk.injEq] at he
    obtain ⟨rfl, rfl⟩ := he
    exact ⟨h1, h2, h3⟩

end CnfEncoder

end NeverD.Cnf
