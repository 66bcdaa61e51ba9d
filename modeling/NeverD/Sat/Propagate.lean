import NeverD.Sat.Watch

namespace NeverD.Sat
open Lib List Function TrailState Option Clause

variable {c c' : Clause} {r : ClauseRef}

lemma mem_watchRefs {ws : List Watcher} : r ∈ watchRefs ws ↔ ∃ w ∈ ws, w.clause = r := by
  simp [watchRefs]

section
variable {arena : ClauseRef → Option Clause} {watches : SatLit → List Watcher}

variable (h : Registered arena watches)
include h

theorem Registered.watched {p : SatLit} {w : Watcher} (hw : w ∈ watches p)
    (hc : arena w.clause = some c) :
    c.deleted = false ∧ (c.lit0 = p.neg ∨ c.lit1 = p.neg) ∧ w.blocker ∈ c.lits := by
  obtain ⟨c', hc', hd, hb⟩ := h.entry p w hw
  rw [hc, some.injEq] at hc'
  subst hc'
  refine ⟨hd, ?_, hb⟩
  have hcount := h.live _ c hc hd p
  have hpos : 0 < (watchRefs (watches p)).count w.clause :=
    count_pos_iff.mpr (mem_watchRefs.mpr ⟨w, hw, rfl⟩)
  split at hcount
  next ho =>
    rcases ho with ho | ho
    · exact .inl (Lit.neg_eq_iff.mp ho.symm)
    · exact .inr (Lit.neg_eq_iff.mp ho.symm)
  · omega

theorem Registered.set_perm (hc : arena r = some c) (hp : c'.lits.Perm c.lits)
    (hd : c'.deleted = c.deleted)
    (hw : ∀ q, (q = c'.lit0.neg ∨ q = c'.lit1.neg) ↔ (q = c.lit0.neg ∨ q = c.lit1.neg)) :
    Registered (Function.update arena r (some c')) watches := by
  constructor
  · intro r' c'' he hdel q
    by_cases hr : r' = r
    · subst hr
      rw [update_self, some.injEq] at he
      subst he
      rw [h.live _ c hc (hd.symm.trans hdel) q]
      simp only [hw q]
    · rw [update_of_ne hr] at he
      exact h.live r' c'' he hdel q
  · intro q w hq
    obtain ⟨c₀, hc₀, hdel, hb⟩ := h.entry q w hq
    by_cases hr : w.clause = r
    · rw [hr, hc, some.injEq] at hc₀
      subst hc₀
      exact ⟨c', by rw [hr, update_self], hd.trans hdel, hp.mem_iff.mpr hb⟩
    · exact ⟨c₀, by rw [update_of_ne hr, hc₀], hdel, hb⟩

theorem Registered.congr {watches' : SatLit → List Watcher}
    (hr : ∀ q, (watchRefs (watches' q)).Perm (watchRefs (watches q)))
    (hb : ∀ q, ∀ w ∈ watches' q, w ∉ watches q → ∃ c, arena w.clause = some c ∧
      c.deleted = false ∧ w.blocker ∈ c.lits) : Registered arena watches' := by
  constructor
  · intro r c hc hd q
    rw [(hr q).count_eq, h.live r c hc hd q]
  · intro q w hw
    by_cases hm : w ∈ watches q
    · exact h.entry q w hm
    · exact hb q w hw hm

omit h

theorem Registered.move {p : SatLit} {kept todo : List Watcher} {w : Watcher}
    {b : SatLit} (h : Registered arena (Function.update watches p (kept ++ w :: todo)))
    (hc : arena w.clause = some c) (hd : c.deleted = false) (h1 : c.lit1 = p.neg)
    (hn : (c.lits.map Lit.var).Nodup) (hp : c'.lits.Perm c.lits) (h0 : c'.lit0 = c.lit0)
    (hd' : c'.deleted = c.deleted) (hne : c'.lit1.neg ≠ p) (hb : b ∈ c'.lits) :
    Registered (Function.update arena w.clause (some c'))
        (Function.update (Function.update watches c'.lit1.neg
        (watches c'.lit1.neg ++ [⟨w.clause, b⟩])) p (kept ++ todo)) := by
  have hn' : (c'.lits.map Lit.var).Nodup := (hp.map Lit.var).nodup_iff.mpr hn
  have h01 : c'.lit0 ≠ c'.lit1 := lit0_ne_lit1 hn'
  have hp0 : c.lit0.neg ≠ p := by
    intro he
    exact lit0_ne_lit1 hn ((Lit.neg_eq_iff.mp he).trans h1.symm)
  -- The count of each reference in each list, before and after.
  have hcount : ∀ q r, (watchRefs (Function.update (Function.update watches c'.lit1.neg
        (watches c'.lit1.neg ++ [⟨w.clause, b⟩])) p (kept ++ todo) q)).count r +
        (if q = p ∧ r = w.clause then 1 else 0) =
      (watchRefs (Function.update watches p (kept ++ w :: todo) q)).count r +
        (if q = c'.lit1.neg ∧ r = w.clause then 1 else 0) := by
    intro q r
    by_cases hq : q = p
    · subst hq
      simp only [update_self, watchRefs, map_append, map_cons,
        count_append, count_cons, hne.symm, false_and, if_false, true_and]
      by_cases hr : r = w.clause
      · subst hr
        simp
        omega
      · have hr' : w.clause ≠ r := fun he => hr he.symm
        simp [hr, hr']
    · by_cases hq' : q = c'.lit1.neg
      · subst hq'
        simp only [update_of_ne hq, update_self, watchRefs, map_append,
          map_cons, map_nil, count_append, count_cons, count_nil]
        by_cases hr : r = w.clause
        · subst hr
          simp [hne]
        · have hr' : w.clause ≠ r := fun he => hr he.symm
          simp [hr, hr']
      · simp [hq, hq']
  constructor
  · intro r c'' he hdel q
    have hcq := hcount q r
    by_cases hr : r = w.clause
    · subst hr
      rw [update_self, some.injEq] at he
      subst he
      rw [h.live _ c hc hd q, h1, Lit.neg_neg] at hcq
      simp only [and_true] at hcq
      rw [h0]
      have h01' : c.lit0.neg ≠ c'.lit1.neg := fun hx => h01 (h0.trans (Lit.neg_inj.mp hx))
      by_cases hqp : q = p
      · subst hqp
        simp [hne.symm, hp0.symm] at hcq ⊢
        exact hcq
      · by_cases hq0 : q = c.lit0.neg
        · subst hq0
          simpa [hqp, h01'] using hcq
        · simpa [hqp, hq0] using hcq
    · rw [update_of_ne hr] at he
      rw [← h.live r c'' he hdel q]
      simpa [hr] using hcq
  · intro q v hv
    have hsplit : v ∈ Function.update watches p (kept ++ w :: todo) q ∨ v = ⟨w.clause, b⟩ := by
      by_cases hq : q = p
      · subst hq
        rw [update_self] at hv ⊢
        refine .inl ?_
        rcases mem_append.mp hv with hv | hv
        · exact mem_append_left _ hv
        · exact mem_append_right _ (mem_cons_of_mem _ hv)
      · rw [update_of_ne hq] at hv ⊢
        by_cases hq' : q = c'.lit1.neg
        · subst hq'
          rwa [update_self, mem_append, mem_singleton] at hv
        · rw [update_of_ne hq'] at hv
          exact .inl hv
    rcases hsplit with hv' | rfl
    · obtain ⟨c₀, hc₀, hdel, hb₀⟩ := h.entry q v hv'
      by_cases hvw : v.clause = w.clause
      · rw [hvw, hc, some.injEq] at hc₀
        subst hc₀
        exact ⟨c', by rw [hvw, update_self], hd'.trans hd, hp.mem_iff.mpr hb₀⟩
      · exact ⟨c₀, by rw [update_of_ne hvw, hc₀], hdel, hb₀⟩
    · exact ⟨c', update_self .., hd'.trans hd, hb⟩

end

/-- Each assumption holds by the time its level is open, and nothing else is decided there. -/
structure Decided (as : List SatLit) (t : TrailState) : Prop where
  source : ∀ l ∈ t.trail, t.reason l.var = none → ∀ k a, t.level l.var = k + 1 → as[k]? = some a →
    l = a
  opened : ∀ k a, k < t.decisionLevel → as[k]? = some a → a ∈ t.trail ∧ t.level a.var ≤ k + 1

variable {t : TrailState} {as : List SatLit}

variable (h : Decided as t)
include h

lemma Decided.assign (ht : t.Ok) {l : SatLit} (hv : t.value l.var = none) (src : Option ClauseRef)
    (hl : src = none → ∀ k a, t.decisionLevel = k + 1 → as[k]? = some a → l = a) :
    Decided as (t.assign l src) := by
  have hfree := (ht.value_none l.var).mp hv
  constructor
  · intro q hq hr k a hk ha
    rw [TrailState.assign_trail, mem_append, mem_singleton] at hq
    rcases hq with hq | rfl
    · have hne := hfree q hq
      simp only [TrailState.assign, update_of_ne hne] at hr hk
      exact h.source q hq hr k a hk ha
    · simp only [TrailState.assign, update_self] at hr hk
      exact hl hr k a hk ha
  · intro k a hk ha
    obtain ⟨hm, hlev⟩ := h.opened k a hk ha
    refine ⟨mem_append_left _ hm, ?_⟩
    simpa only [TrailState.assign, update_of_ne (hfree a hm)] using hlev

lemma Decided.cut (ht : t.Ok) {n b : Nat} (hb : t.trailLim[n]? = some b) :
    Decided as (t.cut b n) := by
  constructor
  · intro l hl hr k a hk ha
    have hl' : l ∈ t.trail := mem_of_mem_take hl
    have hm := (ht.mem_drop_iff (b := b) hl').not.mpr (not_not.mpr hl)
    exact h.source l hl' (by simpa only [TrailState.cut, if_neg hm] using hr) k a hk ha
  · intro k a hk ha
    have hkn : k < n ∧ k < t.decisionLevel := by
      rw [TrailState.decisionLevel, TrailState.cut, length_take] at hk
      exact Nat.lt_min.mp hk
    obtain ⟨hm, hlev⟩ := h.opened k a hkn.2 ha
    exact ⟨TrailState.mem_take_of_level_le ht hb hm (by omega), hlev⟩

lemma Decided.requeue (k : Nat) : Decided as { t with queueHead := k } := ⟨h.source, h.opened⟩

lemma Decided.open (ht : t.Ok)
    (ha : ∀ a, as[t.decisionLevel]? = some a → a ∈ t.trail) : Decided as t.newDecisionLevel := by
  refine ⟨h.source, fun k a hk hka => ?_⟩
  have hlen : t.newDecisionLevel.decisionLevel = t.decisionLevel + 1 := by
    simp [newDecisionLevel, decisionLevel]
  rw [hlen] at hk
  rcases Nat.lt_succ_iff_lt_or_eq.mp hk with hk | rfl
  · exact h.opened k a hk hka
  · have hm := ha a hka
    exact ⟨hm, (ht.level_le hm).trans (Nat.le_succ _)⟩

lemma Decided.decide (ht : t.Ok)
    {l : SatLit} (hv : t.value l.var = none) (ha : ∀ a, as[t.decisionLevel]? = some a → l = a) :
    Decided as (t.newDecisionLevel.assign l none) := by
  have hfree := (ht.value_none l.var).mp hv
  have hlen : t.newDecisionLevel.decisionLevel = t.decisionLevel + 1 := by
    simp [TrailState.newDecisionLevel, TrailState.decisionLevel]
  constructor
  · intro q hq hr k a hk hka
    rw [TrailState.assign_trail, mem_append, mem_singleton] at hq
    rcases hq with hq | rfl
    · have hne := hfree q hq
      simp only [TrailState.assign, update_of_ne hne] at hr hk
      exact h.source q hq hr k a hk hka
    · simp only [TrailState.assign, update_self, hlen, Nat.add_right_cancel_iff] at hk
      exact ha a (hk ▸ hka)
  · intro k a hk hka
    have hk' : k < t.decisionLevel + 1 := hlen ▸ hk
    rcases Nat.lt_succ_iff_lt_or_eq.mp hk' with hk | rfl
    · obtain ⟨hm, hlev⟩ := h.opened k a hk hka
      refine ⟨mem_append_left _ hm, ?_⟩
      exact (le_of_eq (update_of_ne (hfree a hm) ..)).trans hlev
    · obtain rfl := ha a hka
      refine ⟨mem_append_right _ (mem_singleton_self _), ?_⟩
      simp only [TrailState.assign, update_self, hlen, Nat.le_refl]

omit h

lemma Guarded.set {arena : ClauseRef → Option Clause} {n : Nat} (h : Guarded t arena n)
    (hc : arena r = some c) (hp : c'.lits.Perm c.lits) (hd : c'.deleted = c.deleted)
    (hw : ∀ w, w = c'.lit0 ∨ w = c'.lit1 → w.neg ∈ t.trail.take n → w = c.lit0 ∨ w = c.lit1) :
    Guarded t (Function.update arena r (some c')) n := by
  intro r' c'' he hdel w hw' hm
  by_cases hr : r' = r
  · subst hr
    rw [update_self, some.injEq] at he
    subst he
    obtain ⟨b, hb, hrest⟩ := h _ c hc (hd.symm.trans hdel) w (hw w hw' hm) hm
    exact ⟨b, hp.mem_iff.mpr hb, hrest⟩
  · rw [update_of_ne hr] at he
    exact h r' c'' he hdel w hw' hm

namespace SatEngine

variable {R : Type} {F G : List (List SatLit)} {as : List SatLit}

/-- `F` is the formula, `G` the part that the clause database covers; the watch lists of the first
`n` trail entries are settled. -/
structure Settled (F G : List (List SatLit)) (as : List SatLit) (n : Nat) (s : SatEngine R) :
    Prop where
  core : Core F s.toTrailState s.toClauseDb
  covered : Covered G s.toTrailState s.toClauseDb
  decided : Decided as s.toTrailState
  registered : Registered s.arena s.watches
  guarded : Guarded s.toTrailState s.arena n
  lims : ∀ k ∈ s.trailLim, k ≤ n

structure Scanning (F G : List (List SatLit)) (as : List SatLit) (n : Nat) (p : SatLit)
    (todo kept : List Watcher) (s : SatEngine R) : Prop where
  core : Core F s.toTrailState s.toClauseDb
  covered : Covered G s.toTrailState s.toClauseDb
  decided : Decided as s.toTrailState
  registered : Registered s.arena (Function.update s.watches p (kept ++ todo))
  guarded : Guarded s.toTrailState s.arena n
  lims : ∀ k ∈ s.trailLim, k ≤ n
  head : s.queueHead = n + 1
  entry : s.trail[n]? = some p
  satisfied : ∀ w ∈ kept, ∃ c, s.arena w.clause = some c ∧ ∃ b ∈ c.lits, b ∈ s.trail

/-- A live clause that the trail falsifies, with a literal of the current level. -/
def Falsifies (s : SatEngine R) (r : ClauseRef) : Prop :=
  ∃ c, s.arena r = some c ∧ c.deleted = false ∧ (∀ l ∈ c.lits, l.neg ∈ s.trail) ∧
    ∃ l ∈ c.lits, s.level l.var = s.decisionLevel

/-- The part of the engine that propagation leaves alone. -/
structure Fixed (R : Type) where
  numVars : Nat
  trailLim : List Nat
  arenaSize : Nat
  clauses : List ClauseRef
  learnt : List ClauseRef
  decidable : SatVar → Bool
  activity : SatVar → R
  order : ActivityQueue
  budgets : Budgets
  opts : SatOptions R
  maxLearnt : R
  searchAttempted : Bool
  falsified : Bool
  outOfSpace : Bool
  seen : SatVar → Bool
  model : List (Option Bool)
  failedAssumptions : List SatLit

def fixed (s : SatEngine R) : Fixed R :=
  ⟨s.numVars, s.trailLim, s.arenaSize, s.clauses, s.learnt, s.decidable, s.activity, s.order,
    s.toBudgets, s.opts, s.maxLearnt, s.searchAttempted, s.falsified, s.outOfSpace, s.seen, s.model,
    s.failedAssumptions⟩

lemma scan_fixed {p : SatLit} {todo kept : List Watcher} {s s' : SatEngine R}
    {o : Option ClauseRef} (h : scan p todo kept s = some (o, s')) : s'.fixed = s.fixed := by
  induction todo generalizing kept s with
  | nil =>
    simp only [scan, some.injEq, Prod.mk.injEq] at h
    rw [← h.2]
    rfl
  | cons w todo ih =>
    simp only [scan] at h
    repeat' split at h
    all_goals first
      | exact (ih h).trans rfl
      | (simp only [some.injEq, Prod.mk.injEq] at h; rw [← h.2]; rfl)
      | simp at h

section
variable {n : Nat} {p : SatLit} {w : Watcher} {todo kept : List Watcher} {s : SatEngine R}

lemma Scanning.entry_mem (h : Scanning F G as n p todo kept s) : p ∈ s.trail :=
  mem_iff_getElem?.mpr ⟨n, h.entry⟩

lemma Scanning.entry_level (h : Scanning F G as n p todo kept s) :
    s.level p.var = s.decisionLevel := by
  rw [h.core.trail.level n p h.entry, decisionLevel, countP_eq_length]
  intro k hk
  simpa using h.lims k hk

lemma Scanning.stored (h : Scanning F G as n p (w :: todo) kept s) :
    ∃ c, s.arena w.clause = some c ∧ c.deleted = false ∧ (c.lit0 = p.neg ∨ c.lit1 = p.neg) ∧
      w.blocker ∈ c.lits := by
  have hw : w ∈ Function.update s.watches p (kept ++ w :: todo) p := by simp
  obtain ⟨c, hc, -⟩ := h.registered.entry p w hw
  exact ⟨c, hc, h.registered.watched hw hc⟩

lemma Scanning.normalize (h : Scanning F G as n p (w :: todo) kept s)
    (hc : s.arena w.clause = some c) (hw : c.lit0 = p.neg ∨ c.lit1 = p.neg) :
        Scanning F G as n p (w :: todo) kept
        (s.setClause w.clause (if c.lit0 = p.neg then c.swap01 else c)) ∧
      (if c.lit0 = p.neg then c.swap01 else c).lit1 = p.neg := by
  split
  next h0 =>
    have hperm := swap01_lits c
    have hoff : c.lit0 ∉ s.trail := by
      rw [h0]
      exact h.core.trail.not_both h.entry_mem
    refine ⟨⟨h.core.set_perm hc hperm rfl rfl fun hm => absurd hm hoff,
      h.covered.set_perm hc hperm, h.decided, ?_, ?_, h.lims, h.head, h.entry, ?_⟩, h0⟩
    · exact h.registered.set_perm hc hperm rfl fun q => or_comm
    · exact h.guarded.set hc hperm rfl fun v hv _ => hv.symm
    · intro v hv
      obtain ⟨c₀, hc₀, b, hb, hbt⟩ := h.satisfied v hv
      by_cases hr : v.clause = w.clause
      · rw [hr, hc, some.injEq] at hc₀
        subst hc₀
        exact ⟨_, by rw [hr]; exact update_self .., b, hperm.mem_iff.mpr hb, hbt⟩
      · exact ⟨c₀, (update_of_ne hr ..).trans hc₀, b, hb, hbt⟩
  next h0 =>
    have hsame : s.setClause w.clause c = s := by
      simp only [setClause, ← hc, update_eq_self]
    rw [hsame]
    exact ⟨h, hw.resolve_left h0⟩

lemma Scanning.refile (h : Scanning F G as n p (w :: todo) kept s) {b : SatLit}
    (hc : s.arena w.clause = some c) (hd : c.deleted = false) (hb : b ∈ c.lits) : Registered s.arena
      (Function.update s.watches p ((kept ++ [⟨w.clause, b⟩]) ++ todo)) := by
  apply h.registered.congr
  · intro q
    by_cases hq : q = p
    · subst hq
      simp [watchRefs]
    · simp [update_of_ne hq]
  · intro q v hv hnot
    by_cases hq : q = p
    · subst hq
      simp only [update_self, append_assoc, singleton_append, mem_append, mem_cons] at hv hnot
      rcases hv with hv | rfl | hv
      · exact absurd (.inl hv) hnot
      · exact ⟨c, hc, hd, hb⟩
      · exact absurd (.inr (.inr hv)) hnot
    · rw [update_of_ne hq] at hv hnot
      exact absurd hv hnot

theorem Scanning.keep (h : Scanning F G as n p (w :: todo) kept s) {b x : SatLit}
    (hc : s.arena w.clause = some c) (hd : c.deleted = false) (hb : b ∈ c.lits)
    (hx : x ∈ c.lits) (hxt : x ∈ s.trail) :
    Scanning F G as n p todo (kept ++ [⟨w.clause, b⟩]) s := by
  refine ⟨h.core, h.covered, h.decided, h.refile hc hd hb, h.guarded, h.lims, h.head, h.entry, ?_⟩
  intro v hv
  rcases mem_append.mp hv with hv | hv
  · exact h.satisfied v hv
  · rw [mem_singleton] at hv
    subst hv
    exact ⟨c, hc, x, hx, hxt⟩

lemma Scanning.replace (h : Scanning F G as n p (w :: todo) kept s)
    (hc : s.arena w.clause = some c) (hd : c.deleted = false) (h1 : c.lit1 = p.neg)
    (hr : c.replaceWatch (fun l => s.litValue l != some false) = some c') :
      Scanning F G as n p todo kept
      ((s.setClause w.clause c').pushWatch c'.lit1.neg ⟨w.clause, c.lit0⟩) := by
  obtain ⟨hfree, h0, htail, hl, hd'⟩ := replaceWatch_some hr
  have hperm : c'.lits.Perm c.lits := by
    simp only [lits, h0]
    exact htail.cons _
  have hoff : c'.lit1.neg ∉ s.trail := by
    rw [← h.core.trail.value_false]
    simpa using hfree
  have hne : c'.lit1.neg ≠ p := fun he => hoff (he ▸ h.entry_mem)
  refine ⟨(h.core.set_perm hc hperm hl hd' fun _ => h0).rewatch _, h.covered.set_perm hc hperm,
    h.decided, ?_, ?_, h.lims, h.head, h.entry, ?_⟩
  · exact h.registered.move hc hd h1 (h.core.db.vars _ c hc) hperm h0 hd' hne (h0 ▸ mem_cons_self)
  · apply h.guarded.set hc hperm hd'
    rintro v (rfl | rfl) hm
    · exact .inl h0
    · exact absurd (mem_of_mem_take hm) hoff
  · intro v hv
    obtain ⟨c₀, hc₀, b, hb, hbt⟩ := h.satisfied v hv
    by_cases hrw : v.clause = w.clause
    · rw [hrw, hc, some.injEq] at hc₀
      subst hc₀
      exact ⟨c', by rw [hrw]; exact update_self .., b, hperm.mem_iff.mpr hb, hbt⟩
    · exact ⟨c₀, (update_of_ne hrw ..).trans hc₀, b, hb, hbt⟩

lemma Scanning.force (h : Scanning F G as n p (w :: todo) kept s)
    (hc : s.arena w.clause = some c) (hd : c.deleted = false) (hv : s.litValue c.lit0 = none)
    (hrest : ∀ q ∈ c.lit1 :: c.rest, q.neg ∈ s.trail) :
      Scanning F G as n p todo (kept ++ [⟨w.clause, c.lit0⟩])
      (s.enqueue c.lit0 (some w.clause)) := by
  have hval : s.value c.lit0.var = none := (s.litValue_eq_none_iff c.lit0).mp hv
  have hlen : n < s.trail.length := (List.getElem?_eq_some_iff.mp h.entry).1
  have hcore : Core F (s.assign c.lit0 (some w.clause)) s.toClauseDb := by
    apply h.core.assign hval (h.core.db.bound _ c hc _ mem_cons_self)
    · rintro r ⟨⟩
      exact ⟨c, hc, hd, rfl, hrest⟩
    · simp
  have hstep : Scanning F G as n p (w :: todo) kept (s.enqueue c.lit0 (some w.clause)) := by
    refine ⟨hcore, h.covered.assign h.core.trail hval _,
      h.decided.assign h.core.trail hval _ (by simp), h.registered,
      h.guarded.assign h.core.trail (le_of_lt hlen) hval _, h.lims, h.head, ?_, ?_⟩
    · exact (getElem?_append_left hlen).trans h.entry
    · intro v hv
      obtain ⟨c₀, hc₀, b, hb, hbt⟩ := h.satisfied v hv
      exact ⟨c₀, hc₀, b, hb, mem_append_left _ hbt⟩
  exact hstep.keep hc hd mem_cons_self mem_cons_self (mem_append_right _ (mem_singleton_self _))

lemma Scanning.finish (h : Scanning F G as n p [] kept s) :
    Settled F G as (n + 1) { s with watches := Function.update s.watches p kept } := by
  refine ⟨h.core.rewatch _, h.covered, h.decided, by simpa using h.registered, ?_,
    fun k hk => (h.lims k hk).trans (Nat.le_succ n)⟩
  intro r c hc hd v hv hm
  rw [take_add_one, h.entry] at hm
  rcases mem_append.mp hm with hm | hm
  · exact h.guarded r c hc hd v hv hm
  -- The entry just settled: every clause filed under it was kept for a true literal.
  have hp : v.neg = p := by simpa using hm
  have hcount := h.registered.live r c hc hd p
  have hif : p = c.lit0.neg ∨ p = c.lit1.neg := by
    rcases hv with rfl | rfl
    · exact .inl hp.symm
    · exact .inr hp.symm
  rw [if_pos hif, update_self, append_nil] at hcount
  have hmem : r ∈ watchRefs kept := count_pos_iff.mp (by omega)
  obtain ⟨x, hx, rfl⟩ := mem_watchRefs.mp hmem
  obtain ⟨c₀, hc₀, b, hb, hbt⟩ := h.satisfied x hx
  rw [hc, some.injEq] at hc₀
  subst hc₀
  refine ⟨b, hb, hbt, ?_⟩
  have hlev : s.level v.var = s.decisionLevel := by
    rw [← h.entry_level, ← hp]
    rfl
  exact (h.core.trail.level_le hbt).trans (le_of_eq hlev.symm)

lemma Scanning.pause (h : Scanning F G as n p todo kept s) :
    Settled F G as n { s with
      watches := Function.update s.watches p (kept ++ todo), queueHead := s.queueHead - 1 } := by
  have hlen : n < s.trail.length := (List.getElem?_eq_some_iff.mp h.entry).1
  have hhead : s.queueHead - 1 = n := by
    rw [h.head]
    rfl
  refine ⟨(h.core.rewatch _).requeue ?_ ?_, h.covered, h.decided.requeue _, h.registered,
    h.guarded, h.lims⟩
  · intro k hk
    rw [hhead]
    exact h.lims k hk
  · rw [hhead]
    exact le_of_lt hlen

/-- How a scan ends: the list is settled, or the visits ran out and the entry
will be replayed, or a clause is falsified. -/
def Scanned (F G : List (List SatLit)) (as : List SatLit) (n : Nat) :
    Option ClauseRef → SatEngine R → Prop
  | none, s => Settled F G as s.queueHead s ∧
    (s.queueHead = n + 1 ∨ (s.queueHead = n ∧ s.outOfWatchVisitBudget = true))
  | some r, s => Settled F G as n s ∧ Falsifies s r ∧ s.queueHead = s.trail.length

lemma Scanning.conflict (h : Scanning F G as n p (w :: todo) kept s) {c : Clause}
    (hc : s.arena w.clause = some c) (hd : c.deleted = false) (h1 : c.lit1 = p.neg)
    (hfalse : ∀ l ∈ c.lits, l.neg ∈ s.trail) :
    Scanned F G as n (some w.clause) { s with
      watches := Function.update s.watches p ((kept ++ [⟨w.clause, c.lit0⟩]) ++ todo)
      queueHead := s.trail.length } := by
  refine ⟨⟨(h.core.rewatch _).requeue ?_ le_rfl, h.covered, h.decided.requeue _,
    h.refile hc hd mem_cons_self, h.guarded, h.lims⟩,
    ⟨c, hc, hd, hfalse, c.lit1, by simp [lits], ?_⟩, rfl⟩
  · exact fun k hk => (h.core.trail.lim_le k hk).trans h.core.trail.head_le
  · rw [h1]
    exact h.entry_level

lemma scan_spec (h : Scanning F G as n p todo kept s) :
    ∃ o s', scan p todo kept s = some (o, s') ∧ s.trail <+: s'.trail ∧ Scanned F G as n o s' := by
  induction todo generalizing kept s with
  | nil =>
    refine ⟨none, _, rfl, prefix_rfl, ?_, .inl h.head⟩
    rw [h.head]
    exact h.finish
  | cons w todo ih =>
    have hsub : s.queueHead - 1 = n := by
      rw [h.head]
      rfl
    unfold scan
    split
    next hb =>
      refine ⟨none, _, rfl, prefix_rfl, ?_, .inr ⟨hsub, hb⟩⟩
      have hset := h.pause
      rwa [← hsub] at hset
    · have h₁ : Scanning F G as n p (w :: todo) kept { s with stats := { s.stats with
          watchVisits := (s.stats.watchVisits + 1) % 2 ^ 64 } } :=
        ⟨h.core, h.covered, h.decided, h.registered, h.guarded, h.lims, h.head, h.entry,
          h.satisfied⟩
      have ht₁ : s.trail = { s with stats := { s.stats with
          watchVisits := (s.stats.watchVisits + 1) % 2 ^ 64 } }.trail := rfl
      rw [ht₁]
      generalize { s with stats := { s.stats with
        watchVisits := (s.stats.watchVisits + 1) % 2 ^ 64 } } = s₁ at h₁ ⊢
      dsimp only
      obtain ⟨c, hc, hd, hw, hbl⟩ := h₁.stored
      split
      next hv => exact ih (h₁.keep hc hd hbl hbl ((h₁.core.trail.value _).mp hv))
      next hblock =>
        simp only [hc]
        obtain ⟨h₂, h1⟩ := h₁.normalize hc hw
        have hbl' : w.blocker ∈ (if c.lit0 = p.neg then c.swap01 else c).lits := by
          split
          · exact (swap01_lits c).mem_iff.mpr hbl
          · exact hbl
        have hd' : (if c.lit0 = p.neg then c.swap01 else c).deleted = false := by
          split <;> exact hd
        generalize (if c.lit0 = p.neg then c.swap01 else c) = c₂ at h₂ h1 hbl' hd' ⊢
        have hc₂ : (s₁.setClause w.clause c₂).arena w.clause = some c₂ := update_self ..
        have ht₂ : s₁.trail = (s₁.setClause w.clause c₂).trail := rfl
        have hblock₂ : (s₁.setClause w.clause c₂).litValue w.blocker ≠ some true := hblock
        rw [ht₂]
        generalize s₁.setClause w.clause c₂ = s₂ at h₂ hc₂ hblock₂ ⊢
        split
        next hsat =>
          exact ih (h₂.keep hc₂ hd' mem_cons_self mem_cons_self ((h₂.core.trail.value _).mp hsat.2))
        next hsat =>
          split
          next c' hrep => exact ih (h₂.replace hc₂ hd' h1 hrep)
          next hrep =>
            have hrest : ∀ q ∈ c₂.lit1 :: c₂.rest, q.neg ∈ s₂.trail := by
              intro q hq
              rcases mem_cons.mp hq with rfl | hq
              · rw [h1, Lit.neg_neg]
                exact h₂.entry_mem
              · rw [← h₂.core.trail.value_false]
                simpa using replaceWatch_none hrep q hq
            split
            next hfirst =>
              refine ⟨some w.clause, _, rfl, prefix_rfl, h₂.conflict hc₂ hd' h1 ?_⟩
              intro l hl
              rcases mem_cons.mp hl with rfl | hl
              · exact (h₂.core.trail.value_false _).mp hfirst
              · exact hrest l hl
            next hfirst =>
              have hnone : s₂.litValue c₂.lit0 = none := by
                have htrue : s₂.litValue c₂.lit0 ≠ some true := by
                  intro ht
                  by_cases he : c₂.lit0 = w.blocker
                  · exact hblock₂ (he ▸ ht)
                  · exact hsat ⟨he, ht⟩
                cases hl : s₂.litValue c₂.lit0 with
                | none => rfl
                | some b => cases b <;> simp_all
              obtain ⟨o, s', he, hpre, hpost⟩ := ih (h₂.force hc₂ hd' hnone hrest)
              exact ⟨o, s', he, (prefix_append _ _).trans hpre, hpost⟩

end

lemma Scanning.start {n : Nat} {p : SatLit} {s : SatEngine R} (h : Settled F G as n s)
    (hh : s.queueHead = n) (hp : s.trail[n]? = some p) (st : SatStats) :
    Scanning F G as n p (s.watches p) [] { s with queueHead := s.queueHead + 1, stats := st } := by
  have hlen : n < s.trail.length := (List.getElem?_eq_some_iff.mp hp).1
  refine ⟨h.core.requeue ?_ ?_, h.covered, h.decided.requeue _, ?_, h.guarded, h.lims,
    congrArg _ hh, hp, by simp⟩
  · intro k hk
    have := h.lims k hk
    omega
  · omega
  · simpa [update_eq_self] using h.registered

/-- How propagation ends: drained, out of budget, or at a falsified clause. -/
def Propagated (F G : List (List SatLit)) (as : List SatLit) : Option ClauseRef → SatEngine R → Prop
  | none, s => Settled F G as s.queueHead s ∧
      (s.queueHead = s.trail.length ∨ (s.outOfPropagationBudget || s.outOfWatchVisitBudget) = true)
  | some r, s => (∃ n, Settled F G as n s) ∧ Falsifies s r ∧ s.queueHead = s.trail.length

lemma propagate_spec {fuel : Nat} {s s' : SatEngine R} {o : Option ClauseRef}
    (h : Settled F G as s.queueHead s) (he : propagate fuel s = some (o, s')) :
    Propagated F G as o s' ∧ s'.fixed = s.fixed ∧ s.trail <+: s'.trail := by
  induction fuel generalizing s with
  | zero => simp [propagate] at he
  | succ fuel ih =>
    simp only [propagate] at he
    split at he
    next hnone =>
      simp only [some.injEq, Prod.mk.injEq] at he
      obtain ⟨rfl, rfl⟩ := he
      have hlen : s.trail.length ≤ s.queueHead := List.getElem?_eq_none_iff.mp hnone
      exact ⟨⟨h, .inl (le_antisymm h.core.trail.head_le hlen)⟩, rfl, prefix_rfl⟩
    next p hp =>
      split at he
      next hb =>
        cases he
        exact ⟨⟨h, .inr hb⟩, rfl, prefix_rfl⟩
      · obtain ⟨o₁, s₁, hscan, hpre, hpost⟩ := scan_spec (.start h rfl hp
          { s.stats with propagations := (s.stats.propagations + 1) % 2 ^ 64 })
        have hfix := scan_fixed hscan
        rw [hscan] at he
        cases o₁ with
        | some r =>
          cases he
          exact ⟨⟨⟨_, hpost.1⟩, hpost.2⟩, hfix, hpre⟩
        | none =>
          obtain ⟨hres, hfix', hpre'⟩ := ih hpost.1 he
          exact ⟨hres, hfix'.trans hfix, hpre.trans hpre'⟩

lemma trail_length_le {t : TrailState} (h : t.Ok) : t.trail.length ≤ t.numVars := by
  have hsub : (t.trail.map Lit.var) ⊆ List.range t.numVars := by
    intro v hv
    obtain ⟨l, hl, rfl⟩ := mem_map.mp hv
    exact mem_range.mpr (h.bound l hl)
  simpa using List.Nodup.length_le_of_subset h.nodup hsub

/-- Propagation visits each trail entry at most once before it stops. -/
theorem propagate_total {fuel : Nat} {s : SatEngine R} (h : Settled F G as s.queueHead s)
    (hf : s.numVars + 2 ≤ fuel + s.queueHead) : ∃ o s', propagate fuel s = some (o, s') := by
  induction fuel generalizing s with
  | zero =>
    have := h.core.trail.head_le
    have := trail_length_le h.core.trail
    omega
  | succ fuel ih =>
    simp only [propagate]
    split
    · exact ⟨_, _, rfl⟩
    next p hp =>
      split
      · exact ⟨_, _, rfl⟩
      · obtain ⟨o₁, s₁, hscan, hpre, hpost⟩ := scan_spec (.start h rfl hp
          { s.stats with propagations := (s.stats.propagations + 1) % 2 ^ 64 })
        have hfix := scan_fixed hscan
        have hvars : s₁.numVars = s.numVars := congrArg Fixed.numVars hfix
        rw [hscan]
        cases o₁ with
        | some r => exact ⟨_, _, rfl⟩
        | none =>
          rcases hpost.2 with hh | ⟨hh, hb⟩
          · apply ih hpost.1
            omega
          · -- The visits ran out, so the next iteration stops at once.
            have hlen : s.queueHead < s.trail.length := (List.getElem?_eq_some_iff.mp hp).1
            have := trail_length_le h.core.trail
            obtain ⟨k, rfl⟩ : ∃ k, fuel = k + 1 := ⟨fuel - 1, by omega⟩
            simp only [propagate]
            split
            · exact ⟨_, _, rfl⟩
            · simp [hb]

end SatEngine

end NeverD.Sat
