import NeverD.Sat.Build

namespace NeverD.Sat
open Lib List SatLit

variable {F F' : List (List SatLit)} {t : TrailState} {d : ClauseDb}

lemma Core.mono (h : Core F t d) (hs : ∀ C ∈ F, C ∈ F') : Core F' t d :=
  ⟨h.trail, h.reasons, h.db, fun r c hc => (h.stored r c hc).mono hs,
    fun l hl h0 hr => (h.roots l hl h0 hr).mono hs⟩

lemma Covered.mono (h : Covered F' t d) (hs : ∀ C ∈ F, C ∈ F') : Covered F t d :=
  fun C hC => h C (hs C hC)

/-- A clause all of whose literals are false at the root refutes the formula. -/
theorem Core.refuted (h : Core F t d) {C : List SatLit} (hC : Entails F C)
    (hfalse : ∀ l ∈ C, l.neg ∈ t.trail ∧ t.level l.var = 0) : Unsatisfiable F := by
  intro σ hσ
  obtain ⟨l, hl, hh⟩ := hC σ hσ
  obtain ⟨hm, h0⟩ := hfalse l hl
  have := h.root_entailed hm h0 σ hσ
  simp only [clauseHolds_cons, clauseHolds_nil, or_false, Lit.holds_neg] at this
  exact this hh

lemma Decided.of_root (h : t.Ok) (h0 : t.decisionLevel = 0) (as : List SatLit) : Decided as t := by
  constructor
  · intro l hl _ k a hk _
    have := h.level_le hl
    omega
  · intro k a hk
    omega

lemma Covered.push {C : List SatLit} (h : Covered F t d)
    (hC : (∃ l ∈ C, l.neg ∈ C) ∨ (∃ l ∈ C, l ∈ t.trail ∧ t.level l.var = 0) ∨
      ∃ r ∈ d.clauses, ∃ c, d.arena r = some c ∧ ∀ l ∈ c.lits, l ∈ C) : Covered (F ++ [C]) t d := by
  intro D hD
  rw [mem_append, mem_singleton] at hD
  rcases hD with hD | rfl
  · exact h D hD
  · exact hC

namespace SatEngine

variable {R : Type} {G G' : List (List SatLit)} {as : List SatLit} {n : Nat}

variable {s : SatEngine R}

lemma Settled.mono (h : Settled F G as n s) (hF : ∀ C ∈ F, C ∈ F') (hG : ∀ C ∈ G', C ∈ G) :
    Settled F' G' as n s :=
  ⟨h.core.mono hF, h.covered.mono hG, h.decided, h.registered, h.guarded, h.lims⟩

lemma Ready.mono (h : Ready F G as s) (hF : ∀ C ∈ F, C ∈ F') (hG : ∀ C ∈ G', C ∈ G) :
    Ready F' G' as s :=
  ⟨h.settled.mono hF hG, h.ordered, h.clean⟩

theorem Ordered.propagated {s' : SatEngine R} (h : Ordered s) (hs : s.toTrailState.Ok)
    (hs' : s'.toTrailState.Ok) (hf : s'.fixed = s.fixed) (hp : s.trail <+: s'.trail) :
    Ordered s' := by
  have horder : s'.order = s.order := congrArg Fixed.order hf
  have hvars : s'.numVars = s.numVars := congrArg Fixed.numVars hf
  have hdec : s'.decidable = s.decidable := congrArg Fixed.decidable hf
  refine ⟨horder ▸ h.ok, ?_, ?_⟩
  · intro v hv
    rw [hvars]
    exact h.known v (horder ▸ hv)
  · intro v hlt hd hv
    rw [horder]
    refine h.queued v (hvars ▸ hlt) (hdec ▸ hd) ?_
    rw [hs.value_none]
    exact fun l hl => (hs'.value_none v).mp hv l (hp.subset hl)

lemma Ready.propagate {s s' : SatEngine R} {fuel : Nat} {o : Option ClauseRef}
    (h : Ready F G as s) (he : SatEngine.propagate fuel s = some (o, s')) :
    Propagated F G as o s' ∧ Ordered s' ∧ (∀ v, s'.seen v = false) ∧ s'.fixed = s.fixed ∧
      s.trail <+: s'.trail := by
  obtain ⟨hp, hf, hpre⟩ := propagate_spec h.settled he
  have hok : s'.toTrailState.Ok := by
    cases o with
    | none => exact hp.1.core.trail
    | some r =>
      obtain ⟨⟨n, hn⟩, -⟩ := hp
      exact hn.core.trail
  have hseen : s'.seen = s.seen := congrArg Fixed.seen hf
  exact ⟨hp, h.ordered.propagated h.settled.core.trail hok hf hpre, fun v => hseen ▸ h.clean v,
    hf, hpre⟩

lemma Settled.root_conflict (h : Settled F G as n s) {r : ClauseRef}
    (hr : Falsifies s r) (h0 : s.decisionLevel = 0) : Unsatisfiable F := by
  obtain ⟨c, hc, -, hfalse, -⟩ := hr
  refine h.core.refuted (h.core.stored r c hc) fun l hl => ⟨hfalse l hl, ?_⟩
  have := h.core.trail.level_le (hfalse l hl)
  rw [h0] at this
  exact Nat.le_zero.mp this

lemma SatLit.index_lt {a b : SatLit} (h : index a ≤ index b) (hne : a ≠ b) (hneg : a ≠ b.neg) :
    a.var < b.var := by
  have hv : a.var ≠ b.var := by
    intro hv
    rcases Lit.eq_or_eq_neg hv with h1 | h1
    · exact hne h1
    · exact hneg h1
  have ha := Bool.toNat_le a.negated
  have hb := Bool.toNat_le b.negated
  simp only [index] at h
  omega

/-- The outcome of simplifying a clause with literals `C`. -/
def Simplified (s : SatEngine R) (C : List SatLit) : Option (List SatLit) → Prop
  | none => (∃ l ∈ C, s.litValue l = some true) ∨ ∃ l ∈ C, l.neg ∈ C
  | some out => (out.map Lit.var).Nodup ∧ (∀ l ∈ out, l ∈ C ∧ s.litValue l = none) ∧
      ∀ l ∈ C, l ∈ out ∨ s.litValue l = some false

variable {C : List SatLit}

lemma simplifyClause_spec (s : SatEngine R) (lits kept : List SatLit)
    (hsort : lits.Pairwise fun a b => SatLit.index a ≤ SatLit.index b)
    (hkept : kept.Pairwise fun a b => a.var < b.var)
    (hcross : ∀ a ∈ kept, ∀ l ∈ lits, SatLit.index a ≤ SatLit.index l)
    (hfree : ∀ l ∈ kept, l ∈ C ∧ s.litValue l = none) (hsub : ∀ l ∈ lits, l ∈ C)
    (hC : ∀ l ∈ C, l ∈ kept ∨ l ∈ lits ∨ s.litValue l = some false) :
    Simplified s C (s.simplifyClause lits kept.getLast? kept) := by
  induction lits generalizing kept with
  | nil =>
    refine ⟨?_, hfree, fun l hl => ?_⟩
    · rw [List.Nodup, pairwise_map]
      exact hkept.imp fun h => ne_of_lt h
    · simpa using hC l hl
  | cons l ls ih =>
    rw [pairwise_cons] at hsort
    unfold simplifyClause
    split
    next hv => exact .inl ⟨l, hsub l mem_cons_self, hv⟩
    split
    next hp => exact .inr ⟨l, hsub l mem_cons_self, (hfree _ (mem_of_getLast? hp)).1⟩
    split
    next hskip =>
      apply ih kept hsort.2 hkept (fun a ha x hx => hcross a ha x (mem_cons_of_mem _ hx)) hfree
        (fun x hx => hsub x (mem_cons_of_mem _ hx))
      intro x hx
      rcases hC x hx with h1 | h1 | h1
      · exact .inl h1
      · rcases mem_cons.mp h1 with rfl | h1
        · rcases hskip with h2 | h2
          · exact .inr (.inr h2)
          · exact .inl (mem_of_getLast? h2)
        · exact .inr (.inl h1)
      · exact .inr (.inr h1)
    next hv hneg hskip =>
      have hlast : (kept ++ [l]).getLast? = some l := by simp
      have hbelow : ∀ a ∈ kept, a.var < l.var := by
        intro a ha
        obtain ⟨p, hp⟩ : ∃ p, kept.getLast? = some p := by
          cases hk : kept.getLast? with
          | none => simp [getLast?_eq_none_iff.mp hk] at ha
          | some p => exact ⟨p, rfl⟩
        have hpl : p.var < l.var := by
          apply SatLit.index_lt (hcross p (mem_of_getLast? hp) l mem_cons_self)
          · rintro rfl
            exact hskip (.inr hp)
          · rintro rfl
            exact hneg hp
        have hsplit : kept.dropLast ++ [p] = kept := dropLast_append_getLast? p hp
        rw [← hsplit, mem_append, mem_singleton] at ha
        rcases ha with ha | rfl
        · rw [← hsplit, pairwise_append] at hkept
          exact (hkept.2.2 a ha p (mem_singleton_self p)).trans hpl
        · exact hpl
      have hres := ih (kept ++ [l]) hsort.2 ?_ ?_ ?_ ?_ ?_
      · rwa [hlast] at hres
      · refine pairwise_append.mpr ⟨hkept, pairwise_singleton _ _, ?_⟩
        intro a ha b hb
        rw [mem_singleton] at hb
        exact hb ▸ hbelow a ha
      · intro a ha x hx
        rw [mem_append, mem_singleton] at ha
        rcases ha with ha | rfl
        · exact hcross a ha x (mem_cons_of_mem _ hx)
        · exact hsort.1 x hx
      · intro x hx
        rw [mem_append, mem_singleton] at hx
        rcases hx with hx | rfl
        · exact hfree x hx
        · refine ⟨hsub x mem_cons_self, ?_⟩
          cases hl : s.litValue x with
          | none => rfl
          | some b => cases b <;> simp_all
      · exact fun x hx => hsub x (mem_cons_of_mem _ hx)
      · intro x hx
        rcases hC x hx with h1 | h1 | h1
        · exact .inl (mem_append_left _ h1)
        · rcases mem_cons.mp h1 with rfl | h1
          · exact .inl (mem_append_right _ (mem_singleton_self _))
          · exact .inr (.inl h1)
        · exact .inr (.inr h1)

lemma simplifyClause_sortLits (s : SatEngine R) (C : List SatLit) :
    Simplified s C (s.simplifyClause (sortLits C) none []) := by
  have hmem : ∀ l, l ∈ sortLits C ↔ l ∈ C := fun l => mem_insertionSort _
  apply simplifyClause_spec s (sortLits C) []
  · have htotal : Std.Total fun a b : SatLit => index a ≤ index b :=
      ⟨fun a b => Nat.le_total _ _⟩
    have htrans : IsTrans SatLit fun a b => index a ≤ index b :=
      ⟨fun a b c => le_trans⟩
    exact pairwise_insertionSort _ C
  · exact .nil
  · simp
  · simp
  · exact fun l hl => (hmem l).mp hl
  · exact fun l hl => .inr (.inl ((hmem l).mpr hl))

/-- What is known after the clauses `F`: they are refuted, or the engine stands at the root and has
stored all it had room for. -/
def Holding (F : List (List SatLit)) (s : SatEngine R) : Prop :=
  (s.falsified = true ∧ Unsatisfiable F ∧ ∃ n, Settled F [] [] n s) ∨
      (s.falsified = false ∧ s.decisionLevel = 0 ∧ Ready F (if s.outOfSpace then [] else F) [] s)

theorem Simplified.entails {out : List SatLit} (h : Core F s.toTrailState s.toClauseDb)
    (h0 : s.decisionLevel = 0) (hs : Simplified s C (some out)) : Entails (F ++ [C]) out := by
  intro σ hσ
  rw [models_append] at hσ
  obtain ⟨l, hl, hh⟩ := hσ.2 C (mem_singleton_self C)
  rcases hs.2.2 l hl with hm | hv
  · exact ⟨l, hm, hh⟩
  · exfalso
    have hm := (h.trail.value_false l).mp hv
    have hlev : s.level l.neg.var = 0 := by
      have := h.trail.level_le hm
      rw [h0] at this
      exact Nat.le_zero.mp this
    have := h.root_entailed hm hlev σ hσ.1
    simp only [clauseHolds_cons, clauseHolds_nil, or_false, Lit.holds_neg] at this
    exact this hh

lemma Ready.addUnit {l : SatLit} (h : Ready F F [] s)
    (h0 : s.decisionLevel = 0) (hl : l ∈ C) (hv : s.litValue l = none) (hb : l.var < s.numVars)
    (he : Entails (F ++ [C]) [l]) : Ready (F ++ [C]) (F ++ [C]) [] (s.enqueue l none) := by
  have hval : s.value l.var = none := (s.litValue_eq_none_iff l).mp hv
  have hF : Settled (F ++ [C]) F [] s.queueHead s :=
    h.settled.mono (fun D hD => mem_append_left _ hD) (fun D hD => hD)
  have hcore := hF.core.assign hval hb none (by simp) fun _ => .inl ⟨h0, he⟩
  refine ⟨⟨hcore, (hF.covered.assign hF.core.trail hval none).push ?_,
    hF.decided.assign hF.core.trail hval none (by intro _ k a hk; omega), hF.registered,
    hF.guarded.assign hF.core.trail h.settled.core.trail.head_le hval none, hF.lims⟩, ?_, h.clean⟩
  · refine .inr (.inl ⟨l, hl, ?_, ?_⟩)
    · exact mem_append_right _ (mem_singleton_self l)
    · exact (Function.update_self ..).trans h0
  · exact ordered_enqueue h.ordered.ok h.ordered.known fun v hlt hd hvv _ =>
      h.ordered.queued v hlt hd hvv

lemma Ready.addLong {c : Clause} (h : Ready F F [] s)
    (hd : c.deleted = false) (hl : c.learned = false) (hn : (c.lits.map Lit.var).Nodup)
    (hc : ∀ l ∈ c.lits, l ∈ C ∧ s.litValue l = none) (hb : ∀ l ∈ C, l.var < s.numVars)
    (he : Entails (F ++ [C]) c.lits) (ls : ClauseRef → Nat) (ca : ClauseRef → R) :
    Ready (F ++ [C]) (F ++ [C]) [] { s with
      toClauseDb := s.toClauseDb.store c, levelSpan := ls, clauseActivity := ca } := by
  have hF : Settled (F ++ [C]) F [] s.queueHead s :=
    h.settled.mono (fun D hD => mem_append_left _ hD) (fun D hD => hD)
  have hcb : ∀ l ∈ c.lits, l.var < s.numVars := fun l hl => hb l (hc l hl).1
  refine ⟨⟨hF.core.store hd hn hcb he, (hF.covered.store hF.core.db c).push ?_, hF.decided,
    hF.registered.store hF.core.db hd hn, hF.guarded.store ?_, hF.lims⟩,
    ⟨h.ordered.ok, h.ordered.known, h.ordered.queued⟩, h.clean⟩
  · refine .inr (.inr ⟨s.arenaSize, ?_, c, ClauseDb.store_new _ c, fun l hl => (hc l hl).1⟩)
    simp [ClauseDb.store, hl]
  · intro w hw hm
    have hwc : w ∈ c.lits := by rcases hw with rfl | rfl <;> simp [Clause.lits]
    have hfree := ((h.settled.core.trail.litValue_none w).mp (hc w hwc).2).2
    exact absurd (mem_of_mem_take hm) hfree

variable [FloatArith R]

lemma Ready.cancelUntil {s : SatEngine R} (h : Ready F G as s) (level : Nat) :
    Ready F G as (s.cancelUntil level) := by
  by_cases hl : s.decisionLevel ≤ level
  · rw [cancelUntil_of_le hl]
    exact h
  · exact cancelUntil_ready h.settled h.ordered h.clean (not_le.mp hl)

lemma cancelUntil_frame (h : s.order.Ok) (level : Nat) :
    ∃ t q, s.cancelUntil level = { s with toTrailState := t, order := q } ∧
      t.numVars = s.numVars ∧ t.decisionLevel = min level s.decisionLevel := by
  by_cases hl : s.decisionLevel ≤ level
  · rw [cancelUntil_of_le hl]
    exact ⟨s.toTrailState, s.order, rfl, rfl, (min_eq_right hl).symm⟩
  · obtain ⟨q, hq, -⟩ := cancelUntil_eq h (not_le.mp hl)
    refine ⟨_, q, hq, rfl, ?_⟩
    simp [TrailState.cut, TrailState.decisionLevel]

lemma Ready.toRoot (h : Ready F G as s) (as' : List SatLit) :
    Ready F G as' (s.cancelUntil 0) ∧ (s.cancelUntil 0).decisionLevel = 0 ∧
      (s.cancelUntil 0).numVars = s.numVars ∧ (s.cancelUntil 0).falsified = s.falsified ∧
      (s.cancelUntil 0).outOfSpace = s.outOfSpace := by
  have hr := h.cancelUntil 0
  obtain ⟨t, q, he, hv, hl⟩ := cancelUntil_frame h.ordered.ok 0
  rw [he] at hr ⊢
  rw [Nat.zero_min] at hl
  exact ⟨⟨⟨hr.settled.core, hr.settled.covered, .of_root hr.settled.core.trail hl as',
    hr.settled.registered, hr.settled.guarded, hr.settled.lims⟩, hr.ordered, hr.clean⟩, hl, hv,
    rfl, rfl⟩

lemma Ready.addClause {s s' : SatEngine R} {fuel : Nat} {C : List SatLit} {ok : Bool}
    (h : Ready F F as s) (hf : s.falsified = false) (ho : s.outOfSpace = false)
    (hC : ∀ l ∈ C, l.var < s.numVars) (he : s.addClause fuel C = some (ok, s')) :
    Holding (F ++ [C]) s' := by
  obtain ⟨h₁, h0, hvars, hf₁, ho₁⟩ := h.toRoot []
  have hgrow : ∀ D ∈ F, D ∈ F ++ [C] := fun D hD => mem_append_left _ hD
  unfold SatEngine.addClause at he
  simp only [hf, ho, Bool.or_self, Bool.false_eq_true, if_false] at he
  rw [hf] at hf₁
  rw [ho] at ho₁
  rw [← hvars] at hC
  generalize s.cancelUntil 0 = s₁ at *
  have hin : (C.any fun l => decide (s₁.numVars ≤ l.var)) = false := by
    simpa using hC
  rw [hin] at he
  simp only [Bool.false_eq_true, if_false] at he
  have hsimp := simplifyClause_sortLits s₁ C
  have hlevel : ∀ l ∈ s₁.trail, s₁.level l.var = 0 := by
    intro l hl
    have := h₁.settled.core.trail.level_le hl
    omega
  -- Storing the clause in one form or another covers it.
  have hdone : ∀ x : SatEngine R, x.falsified = false → x.outOfSpace = false →
      x.decisionLevel = 0 → Ready (F ++ [C]) (F ++ [C]) [] x → Holding (F ++ [C]) x := by
    intro x hx1 hx2 hx3 hx
    exact .inr ⟨hx1, hx3, by simpa [hx2] using hx⟩
  split at he
  next hnone =>
    rw [hnone] at hsimp
    simp only [Option.some.injEq, Prod.mk.injEq] at he
    obtain ⟨-, rfl⟩ := he
    refine hdone _ hf₁ ho₁ h0 ⟨⟨h₁.settled.core.mono hgrow, h₁.settled.covered.push ?_,
      h₁.settled.decided, h₁.settled.registered, h₁.settled.guarded, h₁.settled.lims⟩, h₁.ordered,
      h₁.clean⟩
    rcases hsimp with ⟨l, hl, hv⟩ | ht
    · have hm := (h₁.settled.core.trail.value l).mp hv
      exact .inr (.inl ⟨l, hl, hm, hlevel l hm⟩)
    · exact .inl ht
  next hnil =>
    rw [hnil] at hsimp
    simp only [Option.some.injEq, Prod.mk.injEq] at he
    obtain ⟨-, rfl⟩ := he
    refine .inl ⟨rfl, fun σ hσ => ?_, _, (h₁.settled.mono hgrow (by simp)).congr rfl rfl⟩
    exact clauseHolds_nil σ (hsimp.entails h₁.settled.core h0 σ hσ)
  next l hunit =>
    rw [hunit] at hsimp
    obtain ⟨hl, hv⟩ := hsimp.2.1 l (mem_singleton_self l)
    have hready := h₁.addUnit h0 hl hv (hC l hl) (hsimp.entails h₁.settled.core h0)
    split at he
    · cases he
    next r s₂ hp =>
      obtain ⟨⟨⟨n, hn⟩, hfal, -⟩, -, -, hfix, -⟩ := hready.propagate hp
      simp only [Option.some.injEq, Prod.mk.injEq] at he
      obtain ⟨-, rfl⟩ := he
      have hlim : s₂.trailLim = s₁.trailLim := congrArg Fixed.trailLim hfix
      have h0₂ : s₂.decisionLevel = 0 := (congrArg List.length hlim).trans h0
      exact .inl ⟨rfl, hn.root_conflict hfal h0₂, n,
        (hn.mono (fun D hD => hD) (by simp)).congr rfl rfl⟩
    next s₂ hp =>
      obtain ⟨⟨hset, -⟩, hord, hclean, hfix, -⟩ := hready.propagate hp
      simp only [Option.some.injEq, Prod.mk.injEq] at he
      obtain ⟨-, rfl⟩ := he
      have hlim : s₂.trailLim = s₁.trailLim := congrArg Fixed.trailLim hfix
      exact hdone _ ((congrArg Fixed.falsified hfix).trans hf₁)
        ((congrArg Fixed.outOfSpace hfix).trans ho₁) ((congrArg List.length hlim).trans h0)
        ⟨hset, hord, hclean⟩
  next a b rest hlong =>
    rw [hlong] at hsimp
    have hent := hsimp.entails h₁.settled.core h0
    split at he
    · simp only [Option.some.injEq, Prod.mk.injEq] at he
      obtain ⟨-, rfl⟩ := he
      refine .inr ⟨hf₁, h0, ?_⟩
      exact ⟨(h₁.settled.mono hgrow (by simp)).congr rfl rfl, h₁.ordered.congr rfl rfl rfl,
        h₁.clean⟩
    next ref s₂ halloc =>
      simp only [allocClause] at halloc
      split at halloc
      · cases halloc
      · simp only [Option.some.injEq, Prod.mk.injEq] at halloc he
        obtain ⟨rfl, rfl⟩ := halloc
        obtain ⟨-, rfl⟩ := he
        exact hdone _ hf₁ ho₁ h0
          (h₁.addLong (c := ⟨a, b, rest, false, false⟩) rfl rfl hsimp.1 hsimp.2.1 hC hent _ _)

end SatEngine

end NeverD.Sat
