import Mathlib.Data.List.Perm.Basic
import NeverD.Sat.Trail

namespace NeverD.Sat
open Lib List Function

variable {c : Clause} {n : Nat} {l : SatLit}

namespace Clause

variable {free : SatLit → Bool}

lemma exchangeFirst_some {w x : SatLit} {l l' : List SatLit}
    (h : exchangeFirst free w l = some (x, l')) : free x = true ∧ (x :: l').Perm (w :: l) := by
  induction l generalizing x l' with
  | nil => simp [exchangeFirst] at h
  | cons y l ih =>
    unfold exchangeFirst at h
    split at h
    next hy =>
      cases h
      exact ⟨hy, .swap _ _ _⟩
    · obtain ⟨⟨z, l''⟩, hz, he⟩ := Option.map_eq_some_iff.mp h
      simp only [Prod.mk.injEq] at he
      obtain ⟨rfl, rfl⟩ := he
      obtain ⟨hf, hp⟩ := ih hz
      refine ⟨hf, ?_⟩
      exact (List.Perm.swap _ _ _).trans ((hp.cons y).trans (.swap _ _ _))

lemma exchangeFirst_none {w : SatLit} {l : List SatLit}
    (h : exchangeFirst free w l = none) : ∀ y ∈ l, free y = false := by
  induction l with
  | nil => simp
  | cons y l ih =>
    unfold exchangeFirst at h
    split at h
    · simp at h
    next hy =>
      intro z hz
      rcases mem_cons.mp hz with rfl | hz
      · simpa using hy
      · exact ih (by simpa using h) z hz

lemma replaceWatch_some {c' : Clause} (h : c.replaceWatch free = some c') :
    free c'.lit1 = true ∧ c'.lit0 = c.lit0 ∧ (c'.lit1 :: c'.rest).Perm (c.lit1 :: c.rest) ∧
      c'.learned = c.learned ∧ c'.deleted = c.deleted := by
  obtain ⟨⟨x, l'⟩, hx, rfl⟩ := Option.map_eq_some_iff.mp h
  obtain ⟨hf, hp⟩ := exchangeFirst_some hx
  exact ⟨hf, rfl, hp, rfl, rfl⟩

lemma replaceWatch_none (h : c.replaceWatch free = none) : ∀ l ∈ c.rest, free l = false := by
  exact exchangeFirst_none (by simpa [replaceWatch] using h)

lemma swap01_lits (c : Clause) : c.swap01.lits.Perm c.lits := .swap _ _ _

end Clause

def watchRefs (ws : List Watcher) : List ClauseRef := ws.map Watcher.clause

/-- Every live clause is filed exactly once under each of its two watched
literals' complements, and the lists hold nothing else. -/
structure Registered (arena : ClauseRef → Option Clause) (watches : SatLit → List Watcher) :
    Prop where
  live : ∀ r c, arena r = some c → c.deleted = false →
    ∀ q, (watchRefs (watches q)).count r = if q = c.lit0.neg ∨ q = c.lit1.neg then 1 else 0
  entry : ∀ q, ∀ w ∈ watches q, ∃ c, arena w.clause = some c ∧ c.deleted = false ∧
    w.blocker ∈ c.lits

/-- A watched literal falsified among the first `n` trail entries is excused by
a literal of its clause that was true no later. -/
def Guarded (t : TrailState) (arena : ClauseRef → Option Clause) (n : Nat) : Prop :=
  ∀ r c, arena r = some c → c.deleted = false → ∀ w, w = c.lit0 ∨ w = c.lit1 →
    w.neg ∈ t.trail.take n → ∃ b ∈ c.lits, b ∈ t.trail ∧ t.level b.var ≤ t.level w.var

/-- Stored clauses name known variables once each, and the two clause lists
hold live clauses of their own kind. -/
structure ClauseDb.Ok (d : ClauseDb) (numVars : Nat) : Prop where
  fresh : ∀ r c, d.arena r = some c → r < d.arenaSize
  vars : ∀ r c, d.arena r = some c → (c.lits.map Lit.var).Nodup
  bound : ∀ r c, d.arena r = some c → ∀ l ∈ c.lits, l.var < numVars
  input : ∀ r ∈ d.clauses, ∃ c, d.arena r = some c ∧ c.deleted = false ∧ c.learned = false
  derived : ∀ r ∈ d.learnt, ∃ c, d.arena r = some c ∧ c.deleted = false ∧ c.learned = true
  nodup : d.learnt.Nodup

structure Core (F : List (List SatLit)) (t : TrailState) (d : ClauseDb) : Prop where
  trail : t.Ok
  reasons : t.Reasoned d.arena
  db : d.Ok t.numVars
  stored : ∀ r c, d.arena r = some c → Entails F c.lits
  roots : ∀ l ∈ t.trail, t.level l.var = 0 → t.reason l.var = none → Entails F [l]

/-- A clause of the formula is a tautology, true at the root, or stored. -/
def Covered (F : List (List SatLit)) (t : TrailState) (d : ClauseDb) : Prop :=
  ∀ C ∈ F, (∃ l ∈ C, l.neg ∈ C) ∨ (∃ l ∈ C, l ∈ t.trail ∧ t.level l.var = 0) ∨
    ∃ r ∈ d.clauses, ∃ c, d.arena r = some c ∧ ∀ l ∈ c.lits, l ∈ C

variable {F : List (List SatLit)} {t : TrailState} {d : ClauseDb}

lemma Clause.lit0_ne_lit1 (h : (c.lits.map Lit.var).Nodup) : c.lit0 ≠ c.lit1 := by
  intro he
  simp [Clause.lits, he] at h

lemma Core.root_entailed (h : Core F t d) (hl : l ∈ t.trail) (h0 : t.level l.var = 0) :
    Entails F [l] := by
  obtain ⟨i, hi⟩ := mem_iff_getElem?.mp hl
  -- Induction on the trail position: a reason only names earlier entries.
  induction i using Nat.strong_induction_on generalizing l with
  | _ i ih =>
    cases hr : t.reason l.var with
    | none => exact h.roots l hl h0 hr
    | some r =>
      obtain ⟨c, hc, -, rfl, hrest⟩ := h.reasons.forced i l r hi hr
      intro σ hσ
      obtain ⟨q, hq, hh⟩ := h.stored r c hc σ hσ
      rcases mem_cons.mp hq with rfl | hq
      · simpa using hh
      exfalso
      have hm := hrest q hq
      obtain ⟨j, hj⟩ := mem_iff_getElem?.mp hm
      obtain ⟨hji, hj'⟩ := TrailState.getElem?_take_some hj
      have hlev := h.trail.level_mono hj' hi (le_of_lt hji)
      have := ih j hji (mem_of_mem_take hm) (by omega) hj' σ hσ
      simp only [clauseHolds_cons, clauseHolds_nil, or_false, Lit.holds_neg] at this
      exact this hh

lemma Core.rewatch (h : Core F t d) (ws : SatLit → List Watcher) :
    Core F t { d with watches := ws } :=
  ⟨h.trail, h.reasons, ⟨h.db.fresh, h.db.vars, h.db.bound, h.db.input, h.db.derived, h.db.nodup⟩,
    h.stored, h.roots⟩

theorem Core.requeue (h : Core F t d) {k : Nat} (hl : ∀ x ∈ t.trailLim, x ≤ k)
    (hk : k ≤ t.trail.length) : Core F { t with queueHead := k } d :=
  ⟨⟨h.trail.nodup, h.trail.value, h.trail.bound, h.trail.sorted, hl, hk, h.trail.level⟩,
    ⟨h.reasons.forced, h.reasons.decision⟩, h.db, h.stored, h.roots⟩

lemma Core.set_perm (h : Core F t d) {r : ClauseRef} {c' : Clause} (hc : d.arena r = some c)
    (hp : c'.lits.Perm c.lits) (hl : c'.learned = c.learned) (hd : c'.deleted = c.deleted)
    (hlock : c.lit0 ∈ t.trail → c'.lit0 = c.lit0) :
    Core F t { d with arena := Function.update d.arena r (some c') } := by
  have back : ∀ r' c'', Function.update d.arena r (some c') r' = some c'' →
      ∃ c₀, d.arena r' = some c₀ ∧ c''.lits.Perm c₀.lits ∧ c''.deleted = c₀.deleted := by
    intro r' c'' he
    by_cases hr : r' = r
    · subst hr
      rw [update_self, Option.some.injEq] at he
      subst he
      exact ⟨c, hc, hp, hd⟩
    · rw [update_of_ne hr] at he
      exact ⟨c'', he, .refl _, rfl⟩
  have fwd : ∀ r' c₀, d.arena r' = some c₀ → ∃ c'',
      Function.update d.arena r (some c') r' = some c'' ∧ c''.deleted = c₀.deleted ∧
      c''.learned = c₀.learned := by
    intro r' c₀ he
    by_cases hr : r' = r
    · subst hr
      rw [hc, Option.some.injEq] at he
      subst he
      exact ⟨c', update_self .., hd, hl⟩
    · exact ⟨c₀, by rw [update_of_ne hr, he], rfl, rfl⟩
  refine ⟨h.trail, ⟨?_, h.reasons.decision⟩, ⟨?_, ?_, ?_, ?_, ?_, h.db.nodup⟩, ?_, h.roots⟩
  · intro i l r' hi hr'
    obtain ⟨c₀, hc₀, hdel, hl0, hrest⟩ := h.reasons.forced i l r' hi hr'
    by_cases hr : r' = r
    · subst hr
      rw [hc, Option.some.injEq] at hc₀
      subst hc₀
      have h0 : c'.lit0 = c.lit0 := hlock (hl0 ▸ mem_iff_getElem?.mpr ⟨i, hi⟩)
      refine ⟨c', update_self .., hd.trans hdel, h0.trans hl0, fun q hq => ?_⟩
      have hpt : (c'.lit1 :: c'.rest).Perm (c.lit1 :: c.rest) := by
        have := hp
        simp only [Clause.lits, h0] at this
        exact this.cons_inv
      exact hrest q (hpt.mem_iff.mp hq)
    · exact ⟨c₀, by simpa only [update_of_ne hr] using hc₀, hdel, hl0, hrest⟩
  · intro r' c'' he
    obtain ⟨c₀, hc₀, -⟩ := back r' c'' he
    exact h.db.fresh r' c₀ hc₀
  · intro r' c'' he
    obtain ⟨c₀, hc₀, hp₀, -⟩ := back r' c'' he
    exact (hp₀.map Lit.var).nodup_iff.mpr (h.db.vars r' c₀ hc₀)
  · intro r' c'' he l hl
    obtain ⟨c₀, hc₀, hp₀, -⟩ := back r' c'' he
    exact h.db.bound r' c₀ hc₀ l (hp₀.mem_iff.mp hl)
  · intro r' hr'
    obtain ⟨c₀, hc₀, h1, h2⟩ := h.db.input r' hr'
    obtain ⟨c'', hc'', h3, h4⟩ := fwd r' c₀ hc₀
    exact ⟨c'', hc'', h3.trans h1, h4.trans h2⟩
  · intro r' hr'
    obtain ⟨c₀, hc₀, h1, h2⟩ := h.db.derived r' hr'
    obtain ⟨c'', hc'', h3, h4⟩ := fwd r' c₀ hc₀
    exact ⟨c'', hc'', h3.trans h1, h4.trans h2⟩
  · intro r' c'' he
    obtain ⟨c₀, hc₀, hp₀, -⟩ := back r' c'' he
    exact (h.stored r' c₀ hc₀).weaken fun l hl => hp₀.mem_iff.mpr hl

lemma Covered.set_perm (h : Covered F t d) {r : ClauseRef} {c' : Clause}
    (hc : d.arena r = some c) (hp : c'.lits.Perm c.lits) :
    Covered F t { d with arena := Function.update d.arena r (some c') } := by
  intro C hC
  rcases h C hC with h1 | h1 | ⟨r', hr', c₀, hc₀, hs⟩
  · exact .inl h1
  · exact .inr (.inl h1)
  · refine .inr (.inr ⟨r', hr', ?_⟩)
    by_cases hr : r' = r
    · subst hr
      rw [hc, Option.some.injEq] at hc₀
      subst hc₀
      exact ⟨c', update_self .., fun l hl => hs l (hp.mem_iff.mp hl)⟩
    · exact ⟨c₀, by simpa only [update_of_ne hr] using hc₀, hs⟩

theorem Core.assign (h : Core F t d) (hv : t.value l.var = none) (hb : l.var < t.numVars)
    (src : Option ClauseRef)
    (hsome : ∀ r, src = some r → ∃ c, d.arena r = some c ∧ c.deleted = false ∧ c.lit0 = l ∧
      ∀ q ∈ c.lit1 :: c.rest, q.neg ∈ t.trail)
      (hnone : src = none → (t.decisionLevel = 0 ∧ Entails F [l]) ∨
      (t.decisionLevel ≠ 0 ∧ t.trail.length ∈ t.trailLim)) : Core F (t.assign l src) d := by
  have hfree := (h.trail.value_none l.var).mp hv
  refine ⟨TrailState.assign_ok h.trail hv hb src, ?_, h.db, h.stored, ?_⟩
  · apply TrailState.assign_reasoned h.trail h.reasons hv src hsome
    intro hn
    rcases hnone hn with h0 | h0
    · exact .inl h0.1
    · exact .inr h0.2
  · intro q hq hlev hr
    rw [TrailState.assign_trail, mem_append, mem_singleton] at hq
    rcases hq with hq | rfl
    · have hne := hfree q hq
      simp only [TrailState.assign, update_of_ne hne] at hlev hr
      exact h.roots q hq hlev hr
    · simp only [TrailState.assign, update_self] at hlev hr
      rcases hnone hr with h0 | h0
      · exact h0.2
      · exact absurd hlev h0.1

lemma Covered.assign (h : Covered F t d) (ht : t.Ok) (hv : t.value l.var = none)
    (src : Option ClauseRef) : Covered F (t.assign l src) d := by
  have hfree := (ht.value_none l.var).mp hv
  intro C hC
  rcases h C hC with h1 | ⟨q, hq, hm, h0⟩ | h1
  · exact .inl h1
  · refine .inr (.inl ⟨q, hq, by simp [hm], ?_⟩)
    simp only [TrailState.assign, update_of_ne (hfree q hm), h0]
  · exact .inr (.inr h1)

variable {arena : ClauseRef → Option Clause}

lemma Guarded.assign (h : Guarded t arena n) (ht : t.Ok) (hn : n ≤ t.trail.length)
    (hv : t.value l.var = none) (src : Option ClauseRef) : Guarded (t.assign l src) arena n := by
  have hfree := (ht.value_none l.var).mp hv
  intro r c hc hd w hw hm
  rw [TrailState.assign_trail, take_append_of_le_length hn] at hm
  obtain ⟨b, hb, hbt, hlev⟩ := h r c hc hd w hw hm
  refine ⟨b, hb, by simp [hbt], ?_⟩
  have hwv : w.var ≠ l.var := hfree w.neg (mem_of_mem_take hm)
  simpa only [TrailState.assign, update_of_ne hwv, update_of_ne (hfree b hbt)] using hlev

lemma Guarded.mono {m : Nat} (h : Guarded t arena n) (hmn : m ≤ n) : Guarded t arena m := by
  intro r c hc hd w hw hm
  have hsub : t.trail.take m = (t.trail.take n).take m := by
    rw [take_take, min_eq_left hmn]
  exact h r c hc hd w hw (mem_of_mem_take (hsub ▸ hm))

lemma Guarded.cut {m b : Nat} (h : Guarded t arena m)
    (ht : t.Ok) (hb : t.trailLim[n]? = some b) (hbm : b ≤ m) : Guarded (t.cut b n) arena b := by
  intro r c hc hd w hw hm
  have hm' : w.neg ∈ t.trail.take b := by simpa [TrailState.cut, take_take] using hm
  obtain ⟨x, hx, hxt, hlev⟩ := h.mono hbm r c hc hd w hw hm'
  have hwl : t.level w.neg.var ≤ n := TrailState.level_le_of_mem_take ht hb hm'
  exact ⟨x, hx, TrailState.mem_take_of_level_le ht hb hxt (hlev.trans hwl), hlev⟩

lemma Core.cut (h : Core F t d) {b : Nat} (hb : t.trailLim[n]? = some b) :
    Core F (t.cut b n) d := by
  refine ⟨TrailState.cut_ok h.trail hb, TrailState.cut_reasoned h.trail h.reasons hb, h.db,
    h.stored, ?_⟩
  intro l hl h0 hr
  have hl' : l ∈ t.trail := mem_of_mem_take hl
  have hm := (h.trail.mem_drop_iff (b := b) hl').not.mpr (not_not.mpr hl)
  exact h.roots l hl' h0 (by simpa only [TrailState.cut, if_neg hm] using hr)

lemma Covered.cut (h : Covered F t d) (ht : t.Ok) {b : Nat} (hb : t.trailLim[n]? = some b) :
    Covered F (t.cut b n) d := by
  intro C hC
  rcases h C hC with h1 | ⟨q, hq, hm, h0⟩ | h1
  · exact .inl h1
  · exact .inr (.inl ⟨q, hq, TrailState.mem_take_of_level_le ht hb hm (by omega), h0⟩)
  · exact .inr (.inr h1)

end NeverD.Sat
