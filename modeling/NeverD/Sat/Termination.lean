import NeverD.Sat.Run

namespace NeverD.Sat
open Lib List Nat TrailState

def TrailState.rootCount (t : TrailState) : Nat := t.trailLim.headD t.trail.length

lemma TrailState.rootCount_cut {t : TrailState} (h : t.Ok) {n b : Nat}
    (hb : t.trailLim[n]? = some b) : (t.cut b n).rootCount = t.rootCount := by
  have hlen := (h.lim_bounds hb).1
  simp only [rootCount, cut]
  cases hl : t.trailLim with
  | nil => simp [hl] at hb
  | cons x xs =>
    cases n with
    | zero =>
      simp only [hl, getElem?_cons_zero, Option.some.injEq] at hb
      simp [hb, hlen]
    | succ n => simp

lemma TrailState.rootCount_assign (t : TrailState) (l : SatLit) (src : Option ClauseRef) :
    t.rootCount ≤ (t.assign l src).rootCount := by
  simp only [rootCount, assign]
  cases t.trailLim <;> simp

namespace SatEngine

variable {R : Type} {F G : List (List SatLit)} {as : List SatLit}

/-- What conflicts use up: room in the arena, and variables not yet fixed at the root. -/
def potential (s : SatEngine R) : Nat :=
  (kMaxArenaWords - s.arenaSize) + (s.numVars - s.rootCount)

/-- What decisions use up between conflicts. -/
def slack (s : SatEngine R) : Nat := s.numVars - s.trail.length

variable {s s' : SatEngine R} {fuel fuel' : Nat}

lemma propagated_potential (hf : s'.fixed = s.fixed)
    (hp : s.trail <+: s'.trail) : s'.potential ≤ s.potential ∧ s'.slack ≤ s.slack := by
  have hn : s'.numVars = s.numVars := congrArg Fixed.numVars hf
  have ha : s'.arenaSize = s.arenaSize := congrArg Fixed.arenaSize hf
  have hl : s'.trailLim = s.trailLim := congrArg Fixed.trailLim hf
  have hlen := hp.length_le
  have hroot : s.rootCount ≤ s'.rootCount := by
    simp only [rootCount, hl]
    cases s.trailLim <;> simp [hlen]
  simp only [potential, slack, hn, ha]
  omega

variable [FloatArith R]

lemma cancelUntil_potential (level : Nat) (h : s.toTrailState.Ok)
    (ho : s.order.Ok) : (s.cancelUntil level).rootCount = s.rootCount ∧
      (s.cancelUntil level).potential = s.potential := by
  by_cases hl : s.decisionLevel ≤ level
  · rw [cancelUntil_of_le hl]
    exact ⟨rfl, rfl⟩
  · obtain ⟨q, hq, -⟩ := cancelUntil_eq ho (not_le.mp hl)
    have hb : s.trailLim[level]? = some (s.trailLim.getD level 0) := by
      have hlt := not_le.mp hl
      rw [decisionLevel] at hlt
      simp [List.getD, hlt]
    have hroot := rootCount_cut h hb
    rw [hq]
    refine ⟨hroot, ?_⟩
    simp only [potential]
    rw [hroot]
    rfl

theorem learnClause_potential {n : Nat} {l : Learned}
    (h : Settled F G as n s) (ho : Ordered s) (hs : ∀ v, s.seen v = false)
    (hl : Derived F s.toTrailState l) (he : s.learnClause l = some s') :
    s'.potential < s.potential := by
  have hok := (learnClause_spec h ho hs hl he).1.settled.core.trail
  have hjump := hl.jumped h ho.ok
  obtain ⟨hroot, hpot⟩ := cancelUntil_potential l.backtrackLevel h.core.trail ho.ok
  rw [← hpot]
  unfold learnClause at he
  generalize s.cancelUntil l.backtrackLevel = s₁ at *
  dsimp only at he
  split at he
  next hnil =>
    cases he
    have h0 : s₁.trailLim = [] := length_eq_zero_iff.mp (hjump.level.trans (hl.unit hnil))
    have hlen := trail_length_le hok
    simp only [enqueue, assign_trail, length_append, length_singleton] at hlen
    have hvars : (s₁.assign l.assert none).numVars = s₁.numVars := rfl
    rw [hvars] at hlen
    simp only [potential, enqueue, rootCount, assign_trail,
      assign_trailLim, h0, headD_nil, length_append, length_singleton,
      hvars]
    omega
  · split at he
    · cases he
    next b rest hcons _ ref s₂ halloc =>
      simp only [allocClause] at halloc
      split at halloc
      · cases halloc
      next hroom =>
        simp only [Option.some.injEq, Prod.mk.injEq] at halloc he
        obtain ⟨rfl, rfl⟩ := halloc
        subst he
        have hr := s₁.rootCount_assign l.assert (some s₁.arenaSize)
        have hw : 0 < (⟨l.assert, b, rest, true, false⟩ : Clause).words := by
          simp only [Clause.words, kHeaderWords]
          omega
        change kMaxArenaWords - (s₁.arenaSize + (⟨l.assert, b, rest, true, false⟩ : Clause).words) +
          (s₁.numVars - (s₁.assign l.assert (some s₁.arenaSize)).rootCount) <
          kMaxArenaWords - s₁.arenaSize + (s₁.numVars - s₁.rootCount)
        omega

def Progress (s : SatEngine R) (here : Nat) : Outcome R → Prop
  | .next here' s' => s'.potential < s.potential ∨
    (here' = here ∧ s'.potential ≤ s.potential ∧ s'.slack < s.slack)
  | .done r s' => r = .unknown → s'.potential ≤ s.potential ∧
      (s'.outOfBudget = true ∨ s'.outOfSpace = true ∨ here ≠ 0)

lemma resolveConflict_progress {n : Nat} (here : Nat) {r : ClauseRef}
    (h : Settled F G as n s) (ho : Ordered s) (hs : ∀ v, s.seen v = false) (hr : Falsifies s r)
    (hf : s.numVars + 1 < fuel) : ∃ out, s.resolveConflict fuel r here = some out ∧
    Progress s here out := by
  unfold resolveConflict
  dsimp only
  split
  · exact ⟨_, rfl, fun hr => nomatch hr⟩
  next h0 =>
    have h₀ : Settled F G as n { s with stats := { s.stats with
        conflicts := (s.stats.conflicts + 1) % 2 ^ 64 } } := h.congr rfl rfl
    have ho₀ : Ordered { s with stats := { s.stats with
        conflicts := (s.stats.conflicts + 1) % 2 ^ 64 } } := ho.congr rfl rfl rfl
    obtain ⟨⟨l, s₁⟩, han⟩ := analyze_total h₀ ho₀.ok hs (Nat.pos_of_ne_zero h0) hr hf
    obtain ⟨hl, hset, hord, hseen, hconf, ht, hd⟩ :=
      analyze_ready h₀ ho₀ hs (Nat.pos_of_ne_zero h0) hr han
    rw [han]
    have hpot : s₁.potential = s.potential := by
      simp only [potential, ht, hd]
    cases hlearn : s₁.learnClause l with
    | none =>
      simp only [hlearn]
      refine ⟨_, rfl, fun _ => ⟨?_, .inr (.inl rfl)⟩⟩
      have := (cancelUntil_potential l.backtrackLevel hset.core.trail hord.ok).2
      exact le_of_eq (this.trans hpot)
    | some s₂ =>
      simp only [hlearn]
      refine ⟨_, rfl, .inl ?_⟩
      have := learnClause_potential hset hord hseen hl hlearn
      rw [hpot] at this
      exact this

def Assumed.state : Assumed R → SatEngine R
  | .exhausted s => s
  | .failed _ s => s
  | .decide _ s => s

omit [FloatArith R] in
lemma placeAssumptions_frame (rest : List SatLit) (s : SatEngine R) :
    (s.placeAssumptions rest).state.potential = s.potential ∧
    (s.placeAssumptions rest).state.slack = s.slack := by
  induction rest generalizing s with
  | nil => exact ⟨rfl, rfl⟩
  | cons a rest ih =>
    unfold placeAssumptions
    split
    · obtain ⟨h1, h2⟩ := ih s.openLevel
      have hroot : s.openLevel.rootCount = s.rootCount := by
        simp only [openLevel, newDecisionLevel, rootCount]
        cases s.trailLim <;> simp
      have hpot : s.openLevel.potential = s.potential := by
        simp only [potential, hroot]
        rfl
      exact ⟨h1.trans hpot, h2⟩
    · exact ⟨rfl, rfl⟩
    · exact ⟨rfl, rfl⟩

omit [FloatArith R] in
theorem decision_progress {l : SatLit} (hok : s'.toTrailState.Ok)
    (ht : s'.toTrailState = s.newDecisionLevel.assign l none) (ha : s'.arenaSize = s.arenaSize) :
    s'.potential ≤ s.potential ∧ s'.slack < s.slack := by
  have hlen := trail_length_le hok
  have hroot : s.rootCount ≤ (s.newDecisionLevel.assign l none).rootCount := by
    simp only [rootCount, assign_trailLim, newDecisionLevel]
    cases s.trailLim <;> simp
  have hn : (s.newDecisionLevel.assign l none).numVars = s.numVars := rfl
  have htr : (s.newDecisionLevel.assign l none).trail.length = s.trail.length + 1 := by
    simp [newDecisionLevel]
  rw [ht] at hlen
  simp only [potential, slack, ht, ha, hn, htr] at hlen ⊢
  omega

lemma decideNext_progress (here : Nat) (h : Ready F G as s)
    (hd : s.queueHead = s.trail.length) (hb : ∀ a ∈ as, a.var < s.numVars) :
    ∃ out, s.decideNext as here = some out ∧ Progress s here out := by
  have hplace := placeAssumptions_spec _ h hd rfl
  have hframe := placeAssumptions_frame (as.drop s.decisionLevel) s
  have hspec : ∀ out, s.decideNext as here = some out → Stepped F G as s.config out :=
    fun out ho => decideNext_spec h hd hb ho
  unfold decideNext at hspec ⊢
  cases hp : s.placeAssumptions (as.drop s.decisionLevel) with
  | failed a s₁ =>
    rw [hp] at hplace
    obtain ⟨h1, h2, h3, h4, h5⟩ := hplace
    obtain ⟨sn, o, hf, -⟩ := analyzeFinal_spec h1.settled h1.clean h3 h4 h5
    simp only [hf]
    exact ⟨_, rfl, fun hr => nomatch hr⟩
  | decide a s₁ =>
    rw [hp] at hframe hspec
    refine ⟨_, rfl, .inr ⟨rfl, ?_⟩⟩
    have hr := (hspec _ rfl).1
    obtain ⟨h1, h2⟩ := decision_progress hr.settled.core.trail rfl rfl
    exact ⟨h1.trans (le_of_eq hframe.1), lt_of_lt_of_eq h2 hframe.2⟩
  | exhausted s₁ =>
    rw [hp] at hframe hspec hplace
    cases hpick : s₁.pickBranchLit with
    | mk o s₂ =>
      obtain ⟨⟨q, rfl⟩, -⟩ := pickBranchLit_spec hplace.1.ordered hpick
      simp only [hpick] at hspec ⊢
      cases o with
      | none => exact ⟨_, rfl, fun hr => nomatch hr⟩
      | some l =>
        refine ⟨_, rfl, .inr ⟨rfl, ?_⟩⟩
        have hr := (hspec _ rfl).1
        obtain ⟨h1, h2⟩ := decision_progress (s := s₁) hr.settled.core.trail rfl rfl
        exact ⟨h1.trans (le_of_eq hframe.1), lt_of_lt_of_eq h2 hframe.2⟩

lemma searchStep_progress (budget here : Nat)
    (h : Ready F G as s) (hb : ∀ a ∈ as, a.var < s.numVars) (hf : s.numVars + 2 ≤ fuel) :
    ∃ out, searchStep fuel budget as here s = some out ∧ Progress s here out := by
  obtain ⟨o, s₁, hp⟩ := propagate_total h.settled (by omega : s.numVars + 2 ≤ fuel + s.queueHead)
  obtain ⟨hpost, hord, hclean, hfix, hpre⟩ := h.propagate hp
  obtain ⟨hpot, hslack⟩ := propagated_potential hfix hpre
  have hn : s₁.numVars = s.numVars := congrArg Fixed.numVars hfix
  have hweak : ∀ out, Progress s₁ here out → Progress s here out := by
    intro out ho
    cases out with
    | done r s' =>
      intro hr
      obtain ⟨h1, h2⟩ := ho hr
      exact ⟨h1.trans hpot, h2⟩
    | next here' s' =>
      rcases ho with h1 | ⟨h1, h2, h3⟩
      · exact .inl (h1.trans_le hpot)
      · exact .inr ⟨h1, h2.trans hpot, h3.trans_le hslack⟩
  unfold searchStep
  rw [hp]
  cases o with
  | some r =>
    obtain ⟨⟨n, hset⟩, hfal, -⟩ := hpost
    obtain ⟨out, he, hprog⟩ :=
      resolveConflict_progress here hset hord hclean hfal (by omega : s₁.numVars + 1 < fuel)
    exact ⟨out, he, hweak out hprog⟩
  | none =>
    obtain ⟨hset, hdrain⟩ := hpost
    have h₁ : Ready F G as s₁ := ⟨hset, hord, hclean⟩
    dsimp only
    split
    next hbud => exact ⟨_, rfl, fun _ => ⟨hpot, .inl hbud⟩⟩
    next hbud =>
      split
      next hrestart =>
        refine ⟨_, rfl, fun _ => ⟨?_, .inr (.inr (by omega))⟩⟩
        exact (le_of_eq (cancelUntil_potential 0 hset.core.trail hord.ok).2).trans hpot
      · have hd : s₁.queueHead = s₁.trail.length := by
          refine hdrain.resolve_right fun ho => ?_
          rcases Bool.or_eq_true _ _ ▸ ho with ho | ho <;> simp [outOfBudget, ho] at hbud
        rw [← hn] at hb
        split
        · have h₂ := h₁.reduceDatabase
          obtain ⟨-, arena, watches, wasted, learnt, st, hred⟩ := reduceDatabase_eq hset
          rw [hred] at h₂ ⊢
          obtain ⟨out, he, hprog⟩ := decideNext_progress here h₂ hd hb
          refine ⟨out, he, hweak out ?_⟩
          exact hprog
        · obtain ⟨out, he, hprog⟩ := decideNext_progress here h₁ hd hb
          exact ⟨out, he, hweak out hprog⟩

def measure (s : SatEngine R) : Nat := s.potential * (s.numVars + 1) + s.slack

omit [FloatArith R] in
lemma measure_le (s : SatEngine R) : s.measure ≤ (s.potential + 1) * (s.numVars + 1) := by
  have : s.slack ≤ s.numVars := sub_le _ _
  simp only [measure, Nat.add_mul, Nat.one_mul]
  omega

omit [FloatArith R] in
lemma measure_lt (hn : s'.numVars = s.numVars)
    (h : s'.potential < s.potential ∨ (s'.potential ≤ s.potential ∧ s'.slack < s.slack)) :
    s'.measure < s.measure := by
  rcases h with h | ⟨h1, h2⟩
  · calc s'.measure ≤ s'.potential * (s'.numVars + 1) + s'.numVars :=
          Nat.add_le_add_left (sub_le _ _) _
      _ < (s'.potential + 1) * (s'.numVars + 1) := by
          rw [Nat.add_mul, Nat.one_mul]
          omega
      _ ≤ s.potential * (s.numVars + 1) := by
          rw [hn]
          exact Nat.mul_le_mul_right _ h
      _ ≤ s.measure := Nat.le_add_right _ _
  · have := Nat.mul_le_mul_right (s.numVars + 1) h1
    simp only [measure, hn]
    omega

/-- The search ends, and when it gives up without spending the caller's budget
or the arena, it has used up potential. -/
theorem search_total (budget here : Nat) (h : Ready F G as s)
    (hb : ∀ a ∈ as, a.var < s.numVars) (hf : s.measure + s.numVars + 3 ≤ fuel) :
    ∃ r s', search fuel budget as here s = some (r, s') ∧ (r = .unknown →
      s'.potential ≤ s.potential ∧ (s'.outOfBudget = true ∨ s'.outOfSpace = true ∨ here ≠ 0 ∨
        s'.potential < s.potential)) := by
  induction fuel generalizing s here with
  | zero => omega
  | succ fuel ih =>
    obtain ⟨out, he, hprog⟩ :=
      searchStep_progress budget here h hb (by omega : s.numVars + 2 ≤ fuel)
    have hstep := searchStep_spec h hb he
    unfold search
    rw [he]
    cases out with
    | done r s' =>
      refine ⟨r, s', rfl, fun hr => ⟨(hprog hr).1, ?_⟩⟩
      rcases (hprog hr).2 with h1 | h1 | h1
      · exact .inl h1
      · exact .inr (.inl h1)
      · exact .inr (.inr (.inl h1))
    | next here' s₁ =>
      obtain ⟨h1, hc⟩ := hstep
      have hn : s₁.numVars = s.numVars := congrArg Config.numVars hc
      have hlt := measure_lt hn (hprog.imp id And.right)
      obtain ⟨r, s', hs, hr⟩ := ih here' h1 (hn ▸ hb) (by omega)
      refine ⟨r, s', hs, fun hu => ?_⟩
      obtain ⟨h2, h3⟩ := hr hu
      rcases hprog with h4 | ⟨rfl, h4, -⟩
      · have h5 := h2.trans_lt h4
        exact ⟨le_of_lt h5, .inr (.inr (.inr h5))⟩
      · refine ⟨h2.trans h4, h3.imp id (.imp id (.imp id fun h5 => h5.trans_le h4))⟩

lemma restartLoop_total (restart : Nat) (h : Ready F G as s) (hb : ∀ a ∈ as, a.var < s.numVars)
    (hf : s.potential + (s.potential + 1) * (s.numVars + 1) + s.numVars + 5 ≤ fuel) :
    ∃ x, restartLoop as fuel restart s = some x := by
  induction fuel generalizing s restart with
  | zero => omega
  | succ fuel ih =>
    unfold restartLoop
    split
    · exact ⟨_, rfl⟩
    next hgo =>
      have hm := s.measure_le
      obtain ⟨r, s', he, hr⟩ := search_total (if s.opts.restartInterval = 0 then 0
        else s.opts.restartInterval * restartTerm restart % 2 ^ 64) 0 h hb
        (by omega : s.measure + s.numVars + 3 ≤ fuel)
      have hans := search_spec h hb he
      simp only [he]
      split
      next hu =>
        subst hu
        obtain ⟨h1, hc⟩ := hans
        obtain ⟨hle, hcase⟩ := hr rfl
        have hn : s'.numVars = s.numVars := congrArg Config.numVars hc
        -- Either the next round stops at once, or there is less left to do.
        by_cases hstop : (s'.outOfBudget || s'.outOfSpace) = true
        · obtain ⟨k, rfl⟩ : ∃ k, fuel = k + 1 := ⟨fuel - 1, by omega⟩
          exact ⟨_, if_pos hstop⟩
        · have hlt : s'.potential < s.potential := by
            simp only [Bool.or_eq_true, not_or] at hstop
            rcases hcase with h2 | h2 | h2 | h2
            · exact absurd h2 hstop.1
            · exact absurd h2 hstop.2
            · exact absurd rfl h2
            · exact h2
          have hless : s'.potential + (s'.potential + 1) * (s'.numVars + 1) + s'.numVars + 5 ≤
              fuel := by
            have hmul := Nat.mul_le_mul_right (s.numVars + 1) (succ_le_succ hlt)
            rw [hn]
            simp only [Nat.add_mul, Nat.one_mul, succ_eq_add_one] at hf hmul ⊢
            omega
          refine ih ((restart + 1) % 2 ^ 64) ?_ ?_ hless
          · exact h1.congr rfl rfl rfl rfl rfl
          · exact hn ▸ hb
      · exact ⟨_, rfl⟩

variable (hf : fuel ≤ fuel')
include hf

omit [FloatArith R] in
lemma propagate_mono {x : Option ClauseRef × SatEngine R}
    (h : propagate fuel s = some x) : propagate fuel' s = some x := by
  induction fuel generalizing fuel' s with
  | zero => cases h
  | succ fuel ih =>
    obtain ⟨k, rfl⟩ : ∃ k, fuel' = k + 1 := ⟨fuel' - 1, by omega⟩
    unfold propagate at h ⊢
    split at h
    · exact h
    · split at h
      next hb =>
        rw [if_pos hb]
        exact h
      next hb =>
        rw [if_neg hb]
        dsimp only at h ⊢
        split at h
        · cases h
        · exact h
        · exact ih (by omega) h

omit [FloatArith R] in
lemma coverLoop_mono {mask : Nat} {m : Marks} {x : Option Marks}
    (h : s.coverLoop mask fuel m = some x) : s.coverLoop mask fuel' m = some x := by
  induction fuel generalizing fuel' m with
  | zero => cases h
  | succ fuel ih =>
    obtain ⟨k, rfl⟩ : ∃ k, fuel' = k + 1 := ⟨fuel' - 1, by omega⟩
    unfold coverLoop at h ⊢
    split at h
    · exact h
    · split at h
      · cases h
      · split at h
        · exact h
        · exact ih (by omega) h

omit [FloatArith R] in
lemma minimizeLoop_mono {mask : Nat} {ls kept : List SatLit} {m : Marks} {x : List SatLit × Marks}
    (h : s.minimizeLoop fuel mask ls kept m = some x) :
    s.minimizeLoop fuel' mask ls kept m = some x := by
  induction ls generalizing kept m with
  | nil => exact h
  | cons l ls ih =>
    unfold minimizeLoop at h ⊢
    split at h
    next hr =>
      rw [if_pos hr]
      exact ih h
    next hr =>
      rw [if_neg hr]
      unfold isRedundant at h ⊢
      cases hc : s.coverLoop mask fuel { m with stack := [l] } with
      | none =>
        rw [hc] at h
        cases h
      | some o =>
        rw [hc] at h
        rw [coverLoop_mono hf hc]
        cases o with
        | none => exact ih h
        | some m' => exact ih h

lemma analyze_mono {r : ClauseRef}
    {x : Learned × SatEngine R} (h : s.analyze fuel r = some x) : s.analyze fuel' r = some x := by
  unfold analyze at h ⊢
  split at h
  · cases h
  · split at h
    · cases h
    next a s₁ hw =>
      simp only
      cases hm : s₁.minimize fuel a.learnt a.toClear with
      | none =>
        rw [hm] at h
        cases h
      | some y =>
        have hm' : s₁.minimize fuel' a.learnt a.toClear = some y := by
          unfold minimize at hm ⊢
          split at hm
          next ho =>
            rw [if_pos ho]
            exact minimizeLoop_mono hf hm
          next ho =>
            rw [if_neg ho]
            exact hm
        rw [hm] at h
        rw [hm']
        exact h

lemma searchStep_mono {budget here : Nat} {out : Outcome R}
    (h : searchStep fuel budget as here s = some out) :
    searchStep fuel' budget as here s = some out := by
  unfold searchStep at h ⊢
  cases hp : propagate fuel s with
  | none =>
    rw [hp] at h
    cases h
  | some y =>
    obtain ⟨o, s₁⟩ := y
    rw [hp] at h
    rw [propagate_mono hf hp]
    cases o with
    | none => exact h
    | some r =>
      dsimp only at h ⊢
      unfold resolveConflict at h ⊢
      dsimp only at h ⊢
      split at h
      next h0 =>
        rw [if_pos h0]
        exact h
      next h0 =>
        rw [if_neg h0]
        split at h
        · cases h
        next l s₂ han =>
          rw [analyze_mono hf han]
          exact h

omit hf

variable {x : SatResult × SatEngine R}

variable (hf : fuel ≤ fuel')
include hf

lemma search_mono {budget here : Nat} (h : search fuel budget as here s = some x) :
    search fuel' budget as here s = some x := by
  induction fuel generalizing fuel' s here with
  | zero => cases h
  | succ fuel ih =>
    obtain ⟨k, rfl⟩ : ∃ k, fuel' = k + 1 := ⟨fuel' - 1, by omega⟩
    unfold search at h ⊢
    split at h
    · cases h
    next r s₁ hs =>
      rw [searchStep_mono (by omega) hs]
      exact h
    next here' s₁ hs =>
      rw [searchStep_mono (by omega) hs]
      exact ih (by omega) h

lemma restartLoop_mono {restart : Nat} (h : restartLoop as fuel restart s = some x) :
    restartLoop as fuel' restart s = some x := by
  induction fuel generalizing fuel' s restart with
  | zero => cases h
  | succ fuel ih =>
    obtain ⟨k, rfl⟩ : ∃ k, fuel' = k + 1 := ⟨fuel' - 1, by omega⟩
    unfold restartLoop at h ⊢
    split at h
    next hstop =>
      rw [if_pos hstop]
      exact h
    next hstop =>
      rw [if_neg hstop]
      dsimp only at h ⊢
      split at h
      · cases h
      next r s₁ hs =>
        have hk : fuel ≤ k := by omega
        simp only [search_mono hk hs]
        split at h
        next hu =>
          rw [if_pos hu]
          exact ih (by omega) h
        next hu =>
          rw [if_neg hu]
          exact h

lemma solve_mono (h : s.solve fuel as = some x) : s.solve fuel' as = some x := by
  unfold SatEngine.solve at h ⊢
  dsimp only at h ⊢
  split at h
  next h1 =>
    rw [if_pos h1]
    exact h
  next h1 =>
    rw [if_neg h1]
    split at h
    next h2 =>
      rw [if_pos h2]
      exact h
    next h2 =>
      rw [if_neg h2]
      split at h
      next h3 =>
        rw [if_pos h3]
        exact h
      next h3 =>
        rw [if_neg h3]
        split at h
        · cases h
        next r s₁ hl =>
          rw [restartLoop_mono hf hl]
          exact h

omit hf

lemma Holding.solve_total (h : Holding F s) (as : List SatLit) :
    ∃ fuel x, s.solve fuel as = some x := by
  unfold SatEngine.solve
  dsimp only
  split
  · exact ⟨0, _, rfl⟩
  next hvalid =>
    simp only [any_eq_true, decide_eq_true_eq, not_exists, not_and, not_le] at hvalid
    split
    · exact ⟨0, _, rfl⟩
    next hnf =>
      rcases h with ⟨hfl, -⟩ | ⟨-, h0, hready⟩
      · exact absurd hfl hnf
      split
      · exact ⟨0, _, rfl⟩
      · obtain ⟨h1, h2, -⟩ := Ready.prepare (s := { s with
          searchAttempted := true, model := [], failedAssumptions := [] })
          (hready.congr rfl rfl rfl rfl rfl) as
        obtain ⟨fuel, ⟨r, s'⟩, he⟩ : ∃ fuel x, restartLoop as fuel 0 ({ s with
            searchAttempted := true, model := [], failedAssumptions := [] } : SatEngine R).prepare =
              some x :=
          ⟨_, restartLoop_total 0 h1 (fun a ha => h2 ▸ hvalid a ha) le_rfl⟩
        refine ⟨fuel, ?_⟩
        rw [he]
        exact ⟨_, rfl⟩

/-- Whatever was done to the solver before, a call to `solve` returns: all large
enough step counts give one and the same answer. -/
theorem Run.solve_terminates {s : SatEngine R} (h : Run F s) (as : List SatLit) :
    ∃ bound r s', ∀ fuel ≥ bound, s.solve fuel as = some (r, s') := by
  obtain ⟨bound, ⟨r, s'⟩, he⟩ := h.holding.solve_total as
  exact ⟨bound, r, s', fun fuel hf => solve_mono hf he⟩

theorem Run.solve_terminates_eitherVar :
    ∃ bound r s', ∀ fuel ≥ bound, eitherVar.solve fuel [⟨0, true⟩] = some (r, s') :=
  eitherVar_run.solve_terminates [⟨0, true⟩]

end SatEngine

end NeverD.Sat
