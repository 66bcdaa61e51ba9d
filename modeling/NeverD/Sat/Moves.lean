import NeverD.Sat.Propagate

namespace NeverD.Sat
open Lib List TrailState

namespace SatEngine

variable {R : Type} {F G : List (List SatLit)} {as : List SatLit}

/-- The queue holds every variable that can still be decided. -/
structure Ordered (s : SatEngine R) : Prop where
  ok : s.order.Ok
  known : ∀ v, s.order.contains v = true → v < s.numVars
  queued : ∀ v < s.numVars, s.decidable v = true → s.value v = none → s.order.contains v = true

structure Ready (F G : List (List SatLit)) (as : List SatLit) (s : SatEngine R) : Prop where
  settled : Settled F G as s.queueHead s
  ordered : Ordered s
  clean : ∀ v, s.seen v = false

variable {s s' : SatEngine R}

theorem Settled.congr {n : Nat} (h : Settled F G as n s)
    (ht : s'.toTrailState = s.toTrailState) (hd : s'.toClauseDb = s.toClauseDb) :
    Settled F G as n s' := by
  obtain ⟨h1, h2, h3, h4, h5, h6⟩ := h
  rw [← ht, ← hd] at h1 h2
  rw [← ht] at h3
  rw [← hd] at h4
  rw [← ht, ← hd] at h5
  rw [← ht] at h6
  exact ⟨h1, h2, h3, h4, h5, h6⟩

lemma Ordered.congr (h : Ordered s) (ht : s'.toTrailState = s.toTrailState)
    (ho : s'.order = s.order) (hd : s'.decidable = s.decidable) : Ordered s' := by
  obtain ⟨h1, h2, h3⟩ := h
  rw [← ho] at h1 h2 h3
  rw [← ht] at h2 h3
  rw [← hd] at h3
  exact ⟨h1, h2, h3⟩

lemma Ready.congr (h : Ready F G as s) (ht : s'.toTrailState = s.toTrailState)
    (hd : s'.toClauseDb = s.toClauseDb)
    (ho : s'.order = s.order) (hdec : s'.decidable = s.decidable) (hs : s'.seen = s.seen) :
    Ready F G as s' :=
  ⟨by rw [ht]; exact h.settled.congr ht hd, h.ordered.congr ht ho hdec, fun v => hs ▸ h.clean v⟩

variable [FloatArith R]

lemma foldl_unassign (ls : List SatLit) (s : SatEngine R) (h : s.order.Ok) :
    ∃ q, ls.foldl unassign s = { s with
        value := fun v => if v ∈ ls.map Lit.var then none else s.value v
        reason := fun v => if v ∈ ls.map Lit.var then none else s.reason v
        order := q } ∧ q.Ok ∧
      ∀ v, q.contains v = (s.order.contains v ||
        (s.decidable v && decide (v ∈ ls.map Lit.var))) := by
  induction ls generalizing s with
  | nil => exact ⟨s.order, by simp, h, by simp⟩
  | cons l ls ih =>
    have hok : (s.unassign l).order.Ok ∧ ∀ v, (s.unassign l).order.contains v =
        (s.order.contains v || (s.decidable v && v == l.var)) := by
      simp only [unassign]
      split
      next hd =>
        obtain ⟨ho, hc⟩ := ActivityQueue.insert_ok (higher s.activity) h l.var
        refine ⟨ho, fun v => ?_⟩
        rw [hc]
        by_cases hv : v = l.var
        · subst hv
          simp_all
        · have : (v == l.var) = false := by simpa using hv
          simp [this]
      next hd =>
        refine ⟨h, fun v => ?_⟩
        by_cases hv : v = l.var
        · subst hv
          cases hdec : s.decidable l.var <;> simp_all
        · have : (v == l.var) = false := by simpa using hv
          simp [this]
    obtain ⟨q, hq, hqok, hqc⟩ := ih (s.unassign l) hok.1
    refine ⟨q, ?_, hqok, fun v => ?_⟩
    · rw [foldl_cons, hq]
      have update_if : ∀ {α : Type} (f : SatVar → Option α),
          (fun v => if v ∈ ls.map Lit.var then none else Function.update f l.var none v) =
            fun v => if v ∈ (l :: ls).map Lit.var then none else f v := by
        intro α f
        funext v
        by_cases hv : v = l.var
        · subst hv
          simp
        · simp [hv]
      simp only [unassign, update_if]
    · rw [hqc, hok.2]
      have hdec : (s.unassign l).decidable = s.decidable := rfl
      rw [hdec]
      cases s.order.contains v <;> cases s.decidable v <;> simp [Bool.beq_eq_decide_eq]

lemma cancelUntil_of_le {level : Nat} (h : s.decisionLevel ≤ level) : s.cancelUntil level = s :=
  if_pos h

lemma cancelUntil_eq {level : Nat} (h : s.order.Ok) (hl : level < s.decisionLevel) :
    ∃ q, s.cancelUntil level = { s with
        toTrailState := s.cut (s.trailLim.getD level 0) level, order := q } ∧ q.Ok ∧
      ∀ v, q.contains v = (s.order.contains v || (s.decidable v &&
        decide (v ∈ (s.trail.drop (s.trailLim.getD level 0)).map Lit.var))) := by
  obtain ⟨q, hq, hqok, hqc⟩ := foldl_unassign (s.trail.drop (s.trailLim.getD level 0)).reverse s h
  refine ⟨q, ?_, hqok, fun v => ?_⟩
  · rw [cancelUntil, if_neg (by omega)]
    simp only [hq, cut, map_reverse, mem_reverse]
  · rw [hqc]
    simp only [map_reverse, mem_reverse]

theorem cancelUntil_ready {n level : Nat} (h : Settled F G as n s)
    (ho : Ordered s) (hs : ∀ v, s.seen v = false) (hl : level < s.decisionLevel) :
    Ready F G as (s.cancelUntil level) := by
  obtain ⟨q, hq, hqok, hqc⟩ := cancelUntil_eq ho.ok hl
  have hb : s.trailLim[level]? = some (s.trailLim.getD level 0) := by
    rw [decisionLevel] at hl
    simp [List.getD, hl]
  rw [hq]
  generalize s.trailLim.getD level 0 = b at hb hq hqc
  have hbn : b ≤ n := h.lims b (mem_iff_getElem?.mpr ⟨level, hb⟩)
  have hcore := h.core.cut hb
  refine ⟨⟨hcore, h.covered.cut h.core.trail hb, h.decided.cut h.core.trail hb, h.registered,
    h.guarded.cut h.core.trail hb hbn, hcore.trail.lim_le⟩, ⟨hqok, ?_, ?_⟩, hs⟩
  · intro v hv
    rw [hqc, Bool.or_eq_true, Bool.and_eq_true, decide_eq_true_eq] at hv
    rcases hv with hv | ⟨-, hv⟩
    · exact ho.known v hv
    · obtain ⟨l, hm, rfl⟩ := mem_map.mp hv
      exact h.core.trail.bound l (mem_of_mem_drop hm)
  · intro v hlt hd hv
    rw [hqc, Bool.or_eq_true, Bool.and_eq_true, decide_eq_true_eq]
    by_cases hm : v ∈ (s.trail.drop b).map Lit.var
    · exact .inr ⟨hd, hm⟩
    · refine .inl (ho.queued v hlt hd ?_)
      simpa only [cut, if_neg hm] using hv

lemma pickLoop_spec (s : SatEngine R) {k : Nat} {q : ActivityQueue} (h : q.Ok) (hk : q.size = k) :
    (s.pickLoop k q).2.Ok ∧ (∀ w, (s.pickLoop k q).2.contains w = true → q.contains w = true) ∧
      (∀ w, q.contains w = true → s.value w = none → s.decidable w = true →
        (s.pickLoop k q).1 = some w ∨ (s.pickLoop k q).2.contains w = true) ∧
      (match (s.pickLoop k q).1 with
        | none => ∀ w, (s.pickLoop k q).2.contains w = false
        | some v => q.contains v = true ∧ s.value v = none ∧ s.decidable v = true) := by
  induction k generalizing q with
  | zero =>
    have hempty : ∀ w, q.contains w = false := by
      intro w
      have hlen := h.front_le
      rw [ActivityQueue.size] at hk
      rw [Bool.eq_false_iff, Ne, ActivityQueue.contains_iff h]
      rintro ⟨i, hi, he⟩
      have := (List.getElem?_eq_some_iff.mp he).1
      omega
    exact ⟨h, fun _ hw => hw, fun _ hw _ _ => .inr hw, hempty⟩
  | succ k ih =>
    have hne : q.empty = false := by
      rw [ActivityQueue.size] at hk
      simp only [ActivityQueue.empty, beq_eq_false_iff_ne]
      omega
    obtain ⟨hok, htop, hcont, hsize⟩ := ActivityQueue.removeMax_ok (higher s.activity) h hne
    simp only [pickLoop]
    generalize q.removeMax (higher s.activity) = x at hok htop hcont hsize ⊢
    split
    next hskip =>
      obtain ⟨h1, h2, h3, h4⟩ := ih hok (by omega)
      refine ⟨h1, fun w hw => ?_, fun w hw hv hd => ?_, ?_⟩
      · have := h2 w hw
        rw [hcont, Bool.and_eq_true] at this
        exact this.2
      · apply h3 w _ hv hd
        have hwx : w ≠ x.1 := by
          rintro rfl
          simp [hv, hd] at hskip
        rw [hcont, hw]
        simpa using hwx
      · revert h4
        cases (s.pickLoop k x.2).1 with
        | none => exact id
        | some v =>
          rintro ⟨h5, h6⟩
          rw [hcont, Bool.and_eq_true] at h5
          exact ⟨h5.2, h6⟩
    next hstop =>
      simp only [Bool.or_eq_true, Option.isSome_iff_ne_none, Bool.not_eq_true', not_or,
        Decidable.not_not, Bool.not_eq_false, ne_eq] at hstop
      refine ⟨hok, fun w hw => ?_, fun w hw _ _ => ?_, htop, hstop⟩
      · rw [hcont, Bool.and_eq_true] at hw
        exact hw.2
      · by_cases hwx : w = x.1
        · exact .inl (congrArg some hwx.symm)
        · refine .inr ?_
          rw [hcont, hw]
          simpa using hwx

/-- Nothing is left to decide, or the literal picked is free and all other free
variables stay queued. -/
def Picked (s s' : SatEngine R) : Option SatLit → Prop
  | none => (∀ v < s.numVars, s.decidable v = true → s.value v ≠ none) ∧ Ordered s'
  | some l => l.var < s.numVars ∧ s.value l.var = none ∧ s'.order.Ok ∧
      (∀ v, s'.order.contains v = true → v < s.numVars) ∧
      ∀ v < s.numVars, s.decidable v = true → s.value v = none → v ≠ l.var →
        s'.order.contains v = true

lemma pickBranchLit_spec {o : Option SatLit} (h : Ordered s)
    (he : s.pickBranchLit = (o, s')) : (∃ q, s' = { s with order := q }) ∧ Picked s s' o := by
  obtain ⟨h1, h2, h3, h4⟩ := pickLoop_spec s h.ok rfl
  simp only [pickBranchLit, Prod.mk.injEq] at he
  obtain ⟨rfl, rfl⟩ := he
  refine ⟨⟨_, rfl⟩, ?_⟩
  generalize s.pickLoop s.order.size s.order = x at h1 h2 h3 h4 ⊢
  obtain ⟨o, q⟩ := x
  cases o with
  | none =>
    have hall : ∀ v < s.numVars, s.decidable v = true → s.value v ≠ none := by
      intro v hlt hd hv
      rcases h3 v (h.queued v hlt hd hv) hv hd with hx | hx
      · cases hx
      · simp [h4 v] at hx
    exact ⟨hall, h1, fun v hv => h.known v (h2 v hv), fun v hlt hd hv => absurd hv (hall v hlt hd)⟩
  | some v =>
    obtain ⟨h5, h6, h7⟩ := h4
    refine ⟨h.known v h5, h6, h1, fun w hw => h.known w (h2 w hw), fun w hlt hd hv hne => ?_⟩
    rcases h3 w (h.queued w hlt hd hv) hv hd with hx | hx
    · simp only [Option.some.injEq] at hx
      exact absurd hx.symm hne
    · exact hx

end SatEngine

lemma Core.newDecisionLevel {F : List (List SatLit)} {t : TrailState} {d : ClauseDb}
    (h : Core F t d) (hd : t.queueHead = t.trail.length) : Core F t.newDecisionLevel d :=
  ⟨newDecisionLevel_ok h.trail hd, newDecisionLevel_reasoned h.reasons, h.db, h.stored, h.roots⟩

namespace SatEngine

variable {R : Type} {F G : List (List SatLit)} {as : List SatLit}

variable {s : SatEngine R}

lemma Settled.openLevel (h : Settled F G as s.queueHead s) (hd : s.queueHead = s.trail.length)
    (ha : ∀ a, as[s.decisionLevel]? = some a → a ∈ s.trail) :
    Settled F G as s.queueHead s.openLevel := by
  refine ⟨h.core.newDecisionLevel hd, h.covered, h.decided.open h.core.trail ha, h.registered,
    h.guarded, ?_⟩
  intro k hk
  rcases mem_append.mp hk with hk | hk
  · exact h.lims k hk
  · rw [mem_singleton] at hk
    omega

lemma Ready.openLevel (h : Ready F G as s) (hd : s.queueHead = s.trail.length)
    (ha : ∀ a, as[s.decisionLevel]? = some a → a ∈ s.trail) : Ready F G as s.openLevel :=
  ⟨h.settled.openLevel hd ha, ⟨h.ordered.ok, h.ordered.known, h.ordered.queued⟩, h.clean⟩

lemma Settled.decide (h : Settled F G as s.queueHead s)
    (hd : s.queueHead = s.trail.length) {l : SatLit} (hb : l.var < s.numVars)
    (hv : s.value l.var = none) (ha : ∀ a, as[s.decisionLevel]? = some a → l = a) :
    Settled F G as s.queueHead (s.openLevel.enqueue l none) := by
  have hopen := h.core.newDecisionLevel hd
  have hcore : Core F (s.newDecisionLevel.assign l none) s.toClauseDb := by
    apply hopen.assign hv hb
    · simp
    · intro _
      refine .inr ⟨?_, ?_⟩ <;> simp [newDecisionLevel, decisionLevel]
  have hguard : Guarded s.newDecisionLevel s.arena s.queueHead := h.guarded
  have hcov : Covered G s.newDecisionLevel s.toClauseDb := h.covered
  refine ⟨hcore, hcov.assign hopen.trail hv _, h.decided.decide h.core.trail hv ha, h.registered,
    hguard.assign hopen.trail (le_of_eq hd) hv _, ?_⟩
  intro k hk
  rcases mem_append.mp hk with hk | hk
  · exact h.lims k hk
  · rw [mem_singleton] at hk
    omega

theorem ordered_enqueue {l : SatLit} {src : Option ClauseRef}
    (hok : s.order.Ok) (hknown : ∀ v, s.order.contains v = true → v < s.numVars)
    (hq : ∀ v < s.numVars, s.decidable v = true → s.value v = none → v ≠ l.var →
      s.order.contains v = true) : Ordered (s.enqueue l src) := by
  refine ⟨hok, hknown, fun v hlt hd hv => ?_⟩
  by_cases hvl : v = l.var
  · subst hvl
    simp [SatEngine.enqueue, assign] at hv
  · apply hq v hlt hd _ hvl
    simpa [SatEngine.enqueue, assign, Function.update_of_ne hvl] using hv

end SatEngine

end NeverD.Sat
