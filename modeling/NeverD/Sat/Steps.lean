import NeverD.Sat.Run

namespace NeverD.Sat
open Lib List

namespace SatEngine

variable {R : Type} {F G : List (List SatLit)} {as : List SatLit}

def Outcome.engine : Outcome R → SatEngine R
  | .done _ s => s
  | .next _ s => s

variable [FloatArith R]

/-- The engines that the operations on clauses, watches and the trail produce in any order, with the
clauses given so far and the reported conflict. As in the search loop, a conflict is answered before
anything else, and levels are opened on drained queues only. -/
inductive Steps : List (List SatLit) → Option ClauseRef → SatEngine R → Prop
  | init (opts : SatOptions R) : Steps [] none (SatEngine.init opts)
  | newVar {F s s' decision v} : Steps F none s → s.newVar decision = (v, s') → Steps F none s'
  | addClause {F s s' fuel C ok} : Steps F none s → (∀ l ∈ C, l.var < s.numVars) →
      s.addClause fuel C = some (ok, s') → Steps (F ++ [C]) none s'
  | propagate {F s s' fuel o} : Steps F none s → s.falsified = false →
      SatEngine.propagate fuel s = some (o, s') → Steps F o s'
  | resolveConflict {F s r fuel here out} : Steps F (some r) s → s.falsified = false →
      s.outOfSpace = false → s.resolveConflict fuel r here = some out → Steps F none out.engine
  | cancelUntil {F o s} (level : Nat) : Steps F o s → s.falsified = false →
      Steps F (if level < s.decisionLevel then none else o) (s.cancelUntil level)
  | reduceDatabase {F s} : Steps F none s → s.falsified = false → Steps F none s.reduceDatabase
  | openLevel {F s} : Steps F none s → s.falsified = false → s.queueHead = s.trail.length →
      Steps F none s.openLevel
  | assume {F s l} : Steps F none s → s.falsified = false → s.queueHead = s.trail.length →
      l.var < s.numVars → s.value l.var = none → Steps F none (s.openLevel.enqueue l none)
  | branch {F s s' l} : Steps F none s → s.falsified = false → s.queueHead = s.trail.length →
      s.pickBranchLit = (some l, s') → Steps F none (s'.openLevel.enqueue l none)
  | exhaust {F s s'} : Steps F none s → s.falsified = false → s.pickBranchLit = (none, s') →
      Steps F none s'
  /-- Budgets, options, counters, activities and reported results. -/
  | tune {F o s s'} : Steps F o s → s'.toTrailState = s.toTrailState →
      s'.toClauseDb = s.toClauseDb → s'.order = s.order → s'.decidable = s.decidable →
      s'.falsified = s.falsified → s'.outOfSpace = s.outOfSpace →
      (s.falsified = false → ∀ v, s'.seen v = false) → Steps F o s'

def Pending (s : SatEngine R) (n : Nat) : Option ClauseRef → Prop
  | none => n = s.queueHead
  | some r => Falsifies s r

def held (F : List (List SatLit)) (s : SatEngine R) : List (List SatLit) :=
  if s.outOfSpace then [] else F

def Stepping (F : List (List SatLit)) (o : Option ClauseRef) (s : SatEngine R) : Prop :=
  ∃ n, Settled F [] [] n s ∧ (s.falsified = false →
    Settled F (s.held F) [] n s ∧ Ordered s ∧ (∀ v, s.seen v = false) ∧ s.Pending n o)

variable {s : SatEngine R}

omit [FloatArith R] in
lemma Stepping.ready (h : Stepping F none s) (hf : s.falsified = false) :
    Ready F (s.held F) [] s := by
  obtain ⟨n, -, hn⟩ := h
  obtain ⟨h1, h2, h3, rfl⟩ := hn hf
  exact ⟨h1, h2, h3⟩

omit [FloatArith R] in
lemma Ready.stepping (h : Ready F (s.held F) [] s) : Stepping F none s :=
  ⟨s.queueHead, h.settled.mono (fun _ hD => hD) (by simp),
    fun _ => ⟨h.settled, h.ordered, h.clean, rfl⟩⟩

omit [FloatArith R] in
lemma Holding.stepping (h : Holding F s) : Stepping F none s := by
  rcases h with ⟨hf, -, n, hn⟩ | ⟨-, -, hr⟩
  · exact ⟨n, hn, fun hff => by simp [hf] at hff⟩
  · exact Ready.stepping hr

omit [FloatArith R] in
theorem Stepped.stepping {k : Config R} {out : Outcome R} (h : Stepped F F [] k out) :
    Stepping F none out.engine := by
  have hready : ∀ x : SatEngine R, Ready F F [] x → Stepping F none x := by
    intro x hx
    apply Ready.stepping
    refine hx.mono (fun _ hD => hD) fun D hD => ?_
    rw [held] at hD
    split at hD
    · cases hD
    · exact hD
  cases out with
  | next here x => exact hready x h.1
  | done r x =>
    cases r with
    | invalid => exact absurd h id
    | unknown => exact hready x h.1
    | sat => exact hready x h.1
    | unsat =>
      rcases h with ⟨-, hc, -, n, hn⟩ | ⟨hr, -⟩
      · have hx : x.falsified = true := congrArg Config.falsified hc
        refine ⟨n, hn.mono (fun _ hD => hD) (by simp), fun hff => ?_⟩
        rw [Outcome.engine, hx] at hff
        cases hff
      · exact hready x hr

lemma Steps.stepping {o : Option ClauseRef} (h : Steps F o s) : Stepping F o s := by
  induction h with
  | init opts => exact Ready.stepping (ready_init opts)
  | @newVar F s s' decision v _ he ih =>
    have hflags : s'.falsified = s.falsified ∧ s'.outOfSpace = s.outOfSpace := by
      unfold SatEngine.newVar at he
      split at he <;> · simp only [Prod.mk.injEq] at he; rw [← he.2]; exact ⟨rfl, rfl⟩
    cases hf : s.falsified with
    | true =>
      obtain ⟨n, hn, -⟩ := ih
      exact ⟨n, hn.newVar he, fun hff => by simp [hflags.1, hf] at hff⟩
    | false =>
      have hr := (ih.ready hf).newVar he
      apply Ready.stepping
      rwa [held, hflags.2]
  | @addClause F s s' fuel C ok _ hC he ih =>
    have hgrow : ∀ D ∈ F, D ∈ F ++ [C] := fun D hD => mem_append_left _ hD
    by_cases hstop : (s.falsified || s.outOfSpace) = true
    · -- The clause is refused and nothing changes.
      rw [SatEngine.addClause, if_pos hstop] at he
      simp only [Option.some.injEq, Prod.mk.injEq] at he
      rw [← he.2]
      obtain ⟨n, hn, hr⟩ := ih
      refine ⟨n, hn.mono hgrow fun _ hD => hD, fun hf => ?_⟩
      obtain ⟨h1, h2⟩ := hr hf
      rw [hf, Bool.false_or] at hstop
      rw [held, hstop] at h1 ⊢
      exact ⟨h1.mono hgrow fun _ hD => hD, h2⟩
    · rw [Bool.or_eq_true, not_or, Bool.not_eq_true, Bool.not_eq_true] at hstop
      have hr := ih.ready hstop.1
      rw [held, hstop.2] at hr
      exact (hr.addClause hstop.1 hstop.2 hC he).stepping
  | @propagate F s s' fuel o _ hf he ih =>
    obtain ⟨hp, hord, hclean, hfix, -⟩ := (ih.ready hf).propagate he
    have hspace : s'.outOfSpace = s.outOfSpace := congrArg Fixed.outOfSpace hfix
    have hheld : s'.held F = s.held F := by rw [held, held, hspace]
    cases o with
    | none =>
      apply Ready.stepping
      rw [hheld]
      exact ⟨hp.1, hord, hclean⟩
    | some r =>
      obtain ⟨⟨n, hn⟩, hfal, -⟩ := hp
      exact ⟨n, hn.mono (fun _ hD => hD) (by simp), fun _ => ⟨hheld ▸ hn, hord, hclean, hfal⟩⟩
  | @resolveConflict F s r fuel here out _ hf ho he ih =>
    obtain ⟨n, -, hr⟩ := ih
    obtain ⟨h1, h2, h3, h4⟩ := hr hf
    rw [held, ho] at h1
    exact (resolveConflict_spec h1 h2 h3 h4 he).stepping
  | @cancelUntil F o s level _ hf ih =>
    by_cases hl : level < s.decisionLevel
    · obtain ⟨n, -, hr⟩ := ih
      obtain ⟨h1, h2, h3, -⟩ := hr hf
      have hready := cancelUntil_ready h1 h2 h3 hl
      have hspace : (s.cancelUntil level).outOfSpace = s.outOfSpace :=
        congrArg Config.outOfSpace (cancelUntil_config h2.ok level)
      rw [if_pos hl]
      apply Ready.stepping
      rwa [held, hspace]
    · rw [if_neg hl, cancelUntil_of_le (not_lt.mp hl)]
      exact ih
  | @reduceDatabase F s _ hf ih =>
    have hr := ih.ready hf
    obtain ⟨-, arena, watches, wasted, learnt, st, hred⟩ := reduceDatabase_eq hr.settled
    have hr' := hr.reduceDatabase
    apply Ready.stepping
    have hspace : s.reduceDatabase.outOfSpace = s.outOfSpace := by rw [hred]
    rwa [held, hspace]
  | openLevel _ hf hd ih => exact Ready.stepping ((ih.ready hf).openLevel hd (by simp))
  | assume _ hf hd hb hv ih =>
    have hr := ih.ready hf
    have hset := hr.settled.decide hd hb hv (by simp)
    apply Ready.stepping
    exact ⟨hset, ordered_enqueue hr.ordered.ok hr.ordered.known
      fun v hlt hdec hv _ => hr.ordered.queued v hlt hdec hv, hr.clean⟩
  | @branch F s s' l _ hf hd hp ih =>
    have hr := ih.ready hf
    obtain ⟨⟨q, rfl⟩, h1, h2, h3, h4, h5⟩ := pickBranchLit_spec hr.ordered hp
    apply Ready.stepping
    exact ⟨(hr.settled.decide hd h1 h2 (by simp)).congr rfl rfl, ordered_enqueue h3 h4 h5, hr.clean⟩
  | @exhaust F s s' _ hf hp ih =>
    have hr := ih.ready hf
    obtain ⟨⟨q, rfl⟩, -, hord⟩ := pickBranchLit_spec hr.ordered hp
    apply Ready.stepping
    exact ⟨hr.settled.congr rfl rfl, hord, hr.clean⟩
  | @tune F o s s' _ ht hd ho hdec hfl hsp hseen ih =>
    obtain ⟨n, hn, hr⟩ := ih
    refine ⟨n, hn.congr ht hd, fun hf => ?_⟩
    obtain ⟨h1, h2, -, h4⟩ := hr (hfl.symm.trans hf)
    have hheld : s'.held F = s.held F := by rw [held, held, hsp]
    refine ⟨hheld ▸ h1.congr ht hd, h2.congr ht ho hdec, hseen (hfl.symm.trans hf), ?_⟩
    cases o with
    | none => exact h4.trans (congrArg TrailState.queueHead ht).symm
    | some r =>
      rw [Pending, Falsifies] at h4 ⊢
      rwa [ht, hd]

omit [FloatArith R] in
lemma Settled.not_all_false (h : Settled F G as s.queueHead s)
    (hd : s.queueHead = s.trail.length) {r : ClauseRef} {c : Clause} (hc : s.arena r = some c)
    (hdel : c.deleted = false) {w : SatLit} (hw : w = c.lit0 ∨ w = c.lit1)
    (hneg : s.litValue w = some false) : ∃ b ∈ c.lits, s.litValue b = some true := by
  have hm := (h.core.trail.value_false w).mp hneg
  have htake : w.neg ∈ s.trail.take s.queueHead := by
    rw [hd, take_length]
    exact hm
  obtain ⟨b, hb, hbt, -⟩ := h.guarded r c hc hdel w hw htake
  exact ⟨b, hb, (h.core.trail.value b).mpr hbt⟩

/-- In every order of operations a live clause is filed under exactly its first
two literals, an implied literal stands in slot zero of the clause that implies
it, and a queue drained without conflict leaves no clause falsified or unit. -/
theorem Steps.watch_invariant {s : SatEngine R} {o : Option ClauseRef} (h : Steps F o s) :
    Registered s.arena s.watches ∧ (∀ l ∈ s.trail, ∀ r, s.reason l.var = some r →
        ∃ c, s.arena r = some c ∧
        c.deleted = false ∧ c.lit0 = l ∧ ∀ q ∈ c.lit1 :: c.rest, s.litValue q = some false) ∧
      (o = none → s.falsified = false → s.queueHead = s.trail.length → ∀ r c, s.arena r = some c →
          c.deleted = false → (¬ ∀ l ∈ c.lits, s.litValue l = some false) ∧
          ¬ ∃ l ∈ c.lits, s.litValue l = none ∧ ∀ q ∈ c.lits, q ≠ l →
          s.litValue q = some false) := by
  have hinv := h.stepping
  obtain ⟨n, hn, -⟩ := h.stepping
  refine ⟨hn.registered, ?_, ?_⟩
  · intro l hl r hr
    obtain ⟨i, hi⟩ := mem_iff_getElem?.mp hl
    obtain ⟨c, hc, hdel, h0, hrest⟩ := hn.core.reasons.forced i l r hi hr
    refine ⟨c, hc, hdel, h0, fun q hq => ?_⟩
    exact (hn.core.trail.value_false q).mpr (mem_of_mem_take (hrest q hq))
  · rintro rfl hf hd r c hc hdel
    have hset := (hinv.ready hf).settled
    have h0 : c.lit0 ∈ c.lits := by simp [Clause.lits]
    have h1 : c.lit1 ∈ c.lits := by simp [Clause.lits]
    constructor
    · intro hall
      obtain ⟨b, hb, hbv⟩ := hset.not_all_false hd hc hdel (Or.inl rfl) (hall _ h0)
      rw [hall b hb] at hbv
      cases hbv
    · rintro ⟨l, -, hv, hall⟩
      -- The two watches differ, so one of them is false.
      have hw : ∃ w, (w = c.lit0 ∨ w = c.lit1) ∧ s.litValue w = some false := by
        by_cases he : c.lit0 = l
        · exact ⟨c.lit1, Or.inr rfl, hall _ h1 fun h =>
            Clause.lit0_ne_lit1 (hset.core.db.vars r c hc) (he.trans h.symm)⟩
        · exact ⟨c.lit0, Or.inl rfl, hall _ h0 he⟩
      obtain ⟨w, hw, hwv⟩ := hw
      obtain ⟨b, hb, hbv⟩ := hset.not_all_false hd hc hdel hw hwv
      by_cases he : b = l
      · rw [he, hv] at hbv
        cases hbv
      · rw [hall b hb he] at hbv
        cases hbv

def Assumed.engine : Assumed R → SatEngine R
  | .exhausted s => s
  | .failed _ s => s
  | .decide _ s => s

lemma placeAssumptions_steps (rest : List SatLit) (h : Steps F none s)
    (hf : s.falsified = false) (hd : s.queueHead = s.trail.length) :
    Steps F none (s.placeAssumptions rest).engine := by
  induction rest generalizing s with
  | nil => exact h
  | cons a rest ih =>
    unfold placeAssumptions
    split
    · exact ih (.openLevel h hf hd) hf hd
    · exact h
    · exact h

variable (h : Steps F none s)
include h

lemma decideNext_steps {here : Nat} {out : Outcome R}
    (hr : Ready F G as s) (hf : s.falsified = false) (hd : s.queueHead = s.trail.length)
    (hb : ∀ a ∈ as, a.var < s.numVars) (he : s.decideNext as here = some out) :
    Steps F none out.engine := by
  have hplace := placeAssumptions_spec _ hr hd rfl
  have hsteps := placeAssumptions_steps (as.drop s.decisionLevel) h hf hd
  unfold decideNext at he
  split at he
  · rename_i a s₁ hp
    rw [hp] at hplace hsteps
    obtain ⟨h1, h2, h3, h4, h5⟩ := hplace
    obtain ⟨sn, o, hfin, h6, -⟩ := analyzeFinal_spec h1.settled h1.clean h3 h4 h5
    rw [hfin] at he
    cases he
    exact .tune hsteps rfl rfl rfl rfl rfl rfl fun _ => h6
  · rename_i a s₁ hp
    rw [hp] at hplace hsteps
    obtain ⟨-, h2, h3, h4, -, h6⟩ := hplace
    cases he
    have hvars : s₁.numVars = s.numVars := congrArg Config.numVars h2
    exact .assume hsteps ((congrArg Config.falsified h2).trans hf) h3 (hvars ▸ hb a h4) h6
  · rename_i s₁ hp
    rw [hp] at hplace hsteps
    obtain ⟨h1, h2, h3, -⟩ := hplace
    have hf₁ : s₁.falsified = false := (congrArg Config.falsified h2).trans hf
    cases hpick : s₁.pickBranchLit with
    | mk o s₂ =>
      obtain ⟨⟨q, hs₂⟩, -⟩ := pickBranchLit_spec h1.ordered hpick
      have hclean : ∀ v, s₂.seen v = false := by
        rw [hs₂]
        exact h1.clean
      rw [hpick] at he
      cases o with
      | none =>
        cases he
        exact .tune (.exhaust hsteps hf₁ hpick) rfl rfl rfl rfl rfl rfl fun _ => hclean
      | some l =>
        cases he
        exact .tune (.branch hsteps hf₁ h3 hpick) rfl rfl rfl rfl rfl rfl fun _ => hclean

lemma Steps.toRoot (hf : s.falsified = false) : Steps F none (s.cancelUntil 0) := by
  have := Steps.cancelUntil 0 h hf
  rwa [ite_self] at this

variable (hr : Ready F G as s)
include hr

lemma searchStep_steps {fuel budget here : Nat} {out : Outcome R} (hf : s.falsified = false)
    (ho : s.outOfSpace = false) (hb : ∀ a ∈ as, a.var < s.numVars)
    (he : searchStep fuel budget as here s = some out) : Steps F none out.engine := by
  unfold searchStep at he
  split at he
  · cases he
  · rename_i r s₁ hp
    obtain ⟨-, -, -, hfix, -⟩ := hr.propagate hp
    exact .resolveConflict (.propagate h hf hp) ((congrArg Fixed.falsified hfix).trans hf)
      ((congrArg Fixed.outOfSpace hfix).trans ho) he
  · rename_i s₁ hp
    obtain ⟨⟨hset, hdrain⟩, hord, hclean, hfix, -⟩ := hr.propagate hp
    have h₁ : Steps F none s₁ := .propagate h hf hp
    have hf₁ : s₁.falsified = false := (congrArg Fixed.falsified hfix).trans hf
    split at he
    · cases he
      exact h₁
    · rename_i hbud
      split at he
      · cases he
        exact h₁.toRoot hf₁
      · have hd : s₁.queueHead = s₁.trail.length := by
          refine hdrain.resolve_right fun hout => ?_
          rcases Bool.or_eq_true _ _ ▸ hout with hout | hout <;> simp [outOfBudget, hout] at hbud
        have hvars : s₁.numVars = s.numVars := congrArg Fixed.numVars hfix
        rw [← hvars] at hb
        have hr₁ : Ready F G as s₁ := ⟨hset, hord, hclean⟩
        dsimp only at he
        split at he
        · have hr₂ := hr₁.reduceDatabase
          have h₂ := Steps.reduceDatabase h₁ hf₁
          obtain ⟨-, arena, watches, wasted, learnt, st, hred⟩ := reduceDatabase_eq hr₁.settled
          rw [hred] at he hr₂ h₂
          have hnext := decideNext_steps h₂ hr₂ hf₁ hd hb he
          exact hnext
        · exact decideNext_steps h₁ hr₁ hf₁ hd hb he

lemma search_steps {s' : SatEngine R} {fuel budget here : Nat} {r : SatResult}
    (hf : s.falsified = false) (ho : s.outOfSpace = false) (hb : ∀ a ∈ as, a.var < s.numVars)
    (he : search fuel budget as here s = some (r, s')) : Steps F none s' := by
  induction fuel generalizing s here with
  | zero => cases he
  | succ fuel ih =>
    unfold search at he
    cases hstep : searchStep fuel budget as here s with
    | none =>
      rw [hstep] at he
      cases he
    | some out =>
      have hs := searchStep_steps h hr hf ho hb hstep
      have hspec := searchStep_spec hr hb hstep
      rw [hstep] at he
      cases out with
      | done r' s₁ =>
        cases he
        exact hs
      | next here' s₁ =>
        obtain ⟨h1, h2⟩ := hspec
        have hvars : s₁.numVars = s.numVars := congrArg Config.numVars h2
        exact ih hs h1 ((congrArg Config.falsified h2).trans hf)
          ((congrArg Config.outOfSpace h2).trans ho) (hvars ▸ hb) he

lemma restartLoop_steps {s' : SatEngine R} {fuel restart : Nat} {r : SatResult}
    (hf : s.falsified = false)
    (hb : ∀ a ∈ as, a.var < s.numVars) (he : restartLoop as fuel restart s = some (r, s')) :
    Steps F none s' := by
  induction fuel generalizing s restart with
  | zero => cases he
  | succ fuel ih =>
    unfold restartLoop at he
    split at he
    · cases he
      exact h
    · rename_i hgo
      simp only [Bool.or_eq_true, not_or, Bool.not_eq_true] at hgo
      dsimp only at he
      generalize (if s.opts.restartInterval = 0 then 0
        else s.opts.restartInterval * restartTerm restart % 2 ^ 64) = budget at he
      split at he
      · cases he
      · rename_i r₁ s₁ hsearch
        have h₁ := search_steps h hr hf hgo.2 hb hsearch
        split at he
        · rename_i hunk
          subst hunk
          obtain ⟨h1, h2⟩ := search_spec hr hb hsearch
          have hvars : s₁.numVars = s.numVars := congrArg Config.numVars h2
          have hf₁ : s₁.falsified = false := (congrArg Config.falsified h2).trans hf
          have hloop := fun hsteps hready hfl hbound => ih hsteps hready hfl hbound he
          exact hloop (.tune h₁ rfl rfl rfl rfl rfl rfl fun _ => h1.clean)
            (h1.congr rfl rfl rfl rfl rfl) hf₁ (hvars ▸ hb)
        · cases he
          exact h₁

omit hr

omit h

lemma Steps.finish {s : SatEngine R} (h : Steps F none s)
    (hroot : s.falsified = true → s.decisionLevel = 0) : Steps F none s.finish := by
  cases hf : s.falsified with
  | true =>
    have he : s.cancelUntil 0 = s := cancelUntil_of_le (le_of_eq (hroot hf))
    have h' : Steps F none (s.cancelUntil 0) := by
      rw [he]
      exact h
    exact .tune h' rfl rfl rfl rfl rfl rfl fun hff => by simp [he, hf] at hff
  | false =>
    have h' := h.toRoot hf
    exact .tune h' rfl rfl rfl rfl rfl rfl fun hff => (h'.stepping.ready hff).clean

lemma Steps.solve {s' : SatEngine R} {fuel : Nat} {r : SatResult} (h : Steps F none s)
    (he : s.solve fuel as = some (r, s')) : Steps F none s' := by
  have h₀ : Steps F none { s with searchAttempted := true, model := [], failedAssumptions := [] } :=
    .tune h rfl rfl rfl rfl rfl rfl fun hf => (h.stepping.ready hf).clean
  unfold SatEngine.solve at he
  dsimp only at he
  split at he
  · simp only [Option.some.injEq, Prod.mk.injEq] at he
    rw [← he.2]
    exact h₀
  · rename_i hvalid
    simp only [any_eq_true, decide_eq_true_eq, not_exists, not_and, not_le] at hvalid
    split at he
    · simp only [Option.some.injEq, Prod.mk.injEq] at he
      rw [← he.2]
      exact h₀
    · rename_i hf
      rw [Bool.not_eq_true] at hf
      split at he
      · simp only [Option.some.injEq, Prod.mk.injEq] at he
        rw [← he.2]
        exact h₀
      · have hready := h₀.stepping.ready hf
        obtain ⟨h1, h2, -, h4, -⟩ := hready.prepare as
        have h₁ : Steps F none ({ s with
            searchAttempted := true, model := [], failedAssumptions :=
              [] } : SatEngine R).prepare :=
          .tune (h₀.toRoot hf) rfl rfl rfl rfl rfl rfl fun hff =>
            ((h₀.toRoot hf).stepping.ready hff).clean
        split at he
        · cases he
        · rename_i r₁ s₁ hloop
          simp only [Option.some.injEq, Prod.mk.injEq] at he
          obtain ⟨rfl, rfl⟩ := he
          have hb := fun a ha => h2 ▸ hvalid a ha
          refine (restartLoop_steps h₁ h1 (h4.trans hf) hb hloop).finish fun hf₁ => ?_
          have hans := restartLoop_spec h1 hb hloop
          have hkeep : ∀ k : Config R, s₁.config = k → k.falsified = false →
              s₁.decisionLevel = 0 := by
            intro k hk hkf
            rw [← hk] at hkf
            simp [config, hf₁] at hkf
          cases r₁ with
          | invalid => exact absurd hans id
          | unknown => exact hkeep _ hans.2 (h4.trans hf)
          | sat => exact hkeep _ hans.2.1 (h4.trans hf)
          | unsat =>
            rcases hans with ⟨-, -, hl, -⟩ | ⟨-, hc, -⟩
            · exact hl
            · exact hkeep _ hc (h4.trans hf)

theorem Run.steps (h : Run F s) : Steps F none s := by
  induction h with
  | init opts => exact .init opts
  | newVar _ he ih => exact .newVar ih he
  | addClause _ hC he ih => exact .addClause ih hC he
  | setOptions opts _ ih =>
    exact .tune ih rfl rfl rfl rfl rfl rfl fun hf => (ih.stepping.ready hf).clean
  | solve _ he ih => exact ih.solve he

def eitherDecided : SatEngine Rat := eitherVar.openLevel.enqueue ⟨0, true⟩ none

lemma eitherDecided_propagate_isSome : (propagate 5 eitherDecided).isSome := by decide

def eitherPropagated : Option ClauseRef × SatEngine Rat :=
  (propagate 5 eitherDecided).get eitherDecided_propagate_isSome

lemma eitherPropagated_steps :
    Steps [[⟨0, false⟩, ⟨1, false⟩]] eitherPropagated.1 eitherPropagated.2 :=
  .propagate (.assume eitherVar_run.steps (by decide) (by decide)
    (by decide) (by decide)) (by decide)
    (Option.some_get eitherDecided_propagate_isSome).symm

theorem Steps.watch_invariant_eitherPropagated :
      Registered eitherPropagated.2.arena eitherPropagated.2.watches ∧
      eitherPropagated.2.trail = [⟨0, true⟩, ⟨1, false⟩] ∧
      ∀ r c, eitherPropagated.2.arena r = some c → c.deleted = false →
        ¬ ∀ l ∈ c.lits, eitherPropagated.2.litValue l = some false := by
  have hinv := eitherPropagated_steps.watch_invariant
  refine ⟨hinv.1, by decide, fun r c hc hd => ?_⟩
  exact (hinv.2.2 (by decide) (by decide) (by decide) r c hc hd).1

end SatEngine

end NeverD.Sat
