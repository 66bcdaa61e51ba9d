import NeverD.Sat.Add

namespace NeverD.Sat
open Lib List Function

variable {l : SatLit} {a : Analysis} {seen : SatVar → Bool}

/-- Marking one more variable of a trail segment raises the number of marked entries by one. -/
theorem countP_mark {L : List SatLit} {f : SatVar → Bool} (g : SatLit → Bool)
    (hn : (L.map Lit.var).Nodup) (hl : l ∈ L) (hf : f l.var = false) (hg : g l = true) :
    L.countP (fun x => Function.update f l.var true x.var && g x) =
      L.countP (fun x => f x.var && g x) + 1 := by
  induction L with
  | nil => cases hl
  | cons y L ih =>
    rw [map_cons, nodup_cons] at hn
    rw [countP_cons, countP_cons]
    rcases mem_cons.mp hl with rfl | hl
    · have hsame : L.countP (fun x => Function.update f l.var true x.var && g x) =
          L.countP (fun x => f x.var && g x) := by
        apply countP_congr
        intro x hx
        have hne : x.var ≠ l.var := fun he => hn.1 (he ▸ mem_map_of_mem hx)
        rw [update_of_ne hne]
      rw [hsame]
      simp [hf, hg]
    · have hne : y.var ≠ l.var := fun he => hn.1 (he ▸ mem_map_of_mem hl)
      rw [ih hn.2 hl, update_of_ne hne]
      omega

namespace SatEngine

variable {R : Type}

structure Bumped (s s' : SatEngine R) : Prop where
  same : ∃ sn act ord vi ca ci, s' = { s with
    seen := sn, activity := act, order := ord, varInc := vi, clauseActivity := ca, clauseInc := ci }
  ok : s'.order.Ok
  members : ∀ v, s'.order.contains v = s.order.contains v

namespace Bumped

variable {s s' s'' : SatEngine R}

lemma refl (h : s.order.Ok) : Bumped s s := ⟨⟨_, _, _, _, _, _, rfl⟩, h, fun _ => rfl⟩

variable (h : Bumped s s')
include h

lemma trans (h' : Bumped s' s'') : Bumped s s'' := by
  obtain ⟨⟨_, _, _, _, _, _, rfl⟩, -, h1⟩ := h
  obtain ⟨⟨_, _, _, _, _, _, rfl⟩, h2, h3⟩ := h'
  exact ⟨⟨_, _, _, _, _, _, rfl⟩, h2, fun v => (h3 v).trans (h1 v)⟩

lemma trail : s'.toTrailState = s.toTrailState := by
  obtain ⟨⟨_, _, _, _, _, _, rfl⟩, -, -⟩ := h
  rfl

lemma db : s'.toClauseDb = s.toClauseDb := by
  obtain ⟨⟨_, _, _, _, _, _, rfl⟩, -, -⟩ := h
  rfl

lemma ordered (ho : Ordered s) : Ordered s' := by
  obtain ⟨⟨_, _, _, _, _, _, rfl⟩, h1, h2⟩ := h
  exact ⟨h1, fun v hv => ho.known v ((h2 v).symm.trans hv),
    fun v hlt hd hv => (h2 v).trans (ho.queued v hlt hd hv)⟩

omit h

lemma mark (h : s.order.Ok) (sn : SatVar → Bool) : Bumped s { s with seen := sn } :=
  ⟨⟨_, _, _, _, _, _, rfl⟩, h, fun _ => rfl⟩

variable [FloatArith R]

lemma var (h : s.order.Ok) (v : SatVar) : Bumped s (s.bumpVarActivity v) := by
  obtain ⟨hok, hc⟩ := ActivityQueue.increased_ok (higher (s.bumpVarActivity v).activity) h v
  exact ⟨⟨_, _, _, _, _, _, rfl⟩, hok, hc⟩

lemma clause (h : s.order.Ok) (r : ClauseRef) : Bumped s (s.bumpClauseActivity r) :=
  ⟨⟨_, _, _, _, _, _, rfl⟩, h, fun _ => rfl⟩

end Bumped

/-- What the marks and the literals gathered so far stand for, with entries from index `i` on dealt
with. -/
structure Marked (t : TrailState) (i : Nat) (a : Analysis) (seen : SatVar → Bool) : Prop where
  lower : ∀ q ∈ a.learnt, q.neg ∈ t.trail ∧ 0 < t.level q.var ∧ t.level q.var < t.decisionLevel ∧
    seen q.var = true
  vars : (a.learnt.map Lit.var).Nodup
  origin : ∀ v, seen v = true → (∃ q ∈ a.learnt, q.var = v) ∨
    ∃ l ∈ t.trail.take i, l.var = v ∧ t.level v = t.decisionLevel
  count : a.pathCount = (t.trail.take i).countP fun l =>
    seen l.var && t.level l.var == t.decisionLevel
  clear : ∀ v, seen v = true → v ∈ a.toClear

/-- A falsified literal the analysis has taken care of. -/
def Accounted (t : TrailState) (a : Analysis) (seen : SatVar → Bool) (q : SatLit) : Prop :=
  t.level q.var = 0 ∨ q ∈ a.learnt ∨ (seen q.var = true ∧ t.level q.var = t.decisionLevel)

structure Grown (x y : Analysis × SatEngine R) : Prop where
  learnt : ∀ q ∈ x.1.learnt, q ∈ y.1.learnt
  seen : ∀ v, x.2.seen v = true → y.2.seen v = true
  bumped : Bumped x.2 y.2

variable {x : Analysis × SatEngine R} {t : TrailState} {i : Nat}

lemma Grown.trans {y z : Analysis × SatEngine R} (h : Grown x y) (h' : Grown y z) : Grown x z :=
  ⟨fun q hq => h'.learnt q (h.learnt q hq), fun v hv => h'.seen v (h.seen v hv),
    h.bumped.trans h'.bumped⟩

lemma Accounted.grown {y : Analysis × SatEngine R} {q : SatLit}
    (h : Accounted t x.1 x.2.seen q) (hg : Grown x y) : Accounted t y.1 y.2.seen q := by
  rcases h with h | h | ⟨h, h'⟩
  · exact .inl h
  · exact .inr (.inl (hg.learnt q h))
  · exact .inr (.inr ⟨hg.seen _ h, h'⟩)

variable [FloatArith R]

lemma analyzeLit_spec {q : SatLit} (ht : x.2.toTrailState.Ok) (ho : x.2.order.Ok)
    (h : Marked x.2.toTrailState i x.1 x.2.seen) (hq : q.neg ∈ x.2.trail.take i) :
    Marked x.2.toTrailState i (analyzeLit x q).1 (analyzeLit x q).2.seen ∧
      Accounted x.2.toTrailState (analyzeLit x q).1 (analyzeLit x q).2.seen q ∧
        Grown x (analyzeLit x q) := by
  obtain ⟨a, s⟩ := x
  have hqt : q.neg ∈ s.trail := mem_of_mem_take hq
  simp only [analyzeLit]
  split
  next hskip =>
    refine ⟨h, ?_, fun _ h => h, fun _ h => h, .refl ho⟩
    rcases Bool.or_eq_true _ _ ▸ hskip with hs | h0
    · rcases h.origin q.var hs with ⟨q', hq', hv⟩ | ⟨l, -, hv, hl⟩
      · -- The literal gathered for this variable is false as well, so it is this one.
        have hne : q' ≠ q.neg := by
          rintro rfl
          exact ht.not_both hqt (h.lower _ hq').1
        refine .inr (.inl ?_)
        rcases Lit.eq_or_eq_neg hv with rfl | he
        · exact hq'
        · exact absurd he hne
      · exact .inr (.inr ⟨hs, hl⟩)
    · exact .inl (by simpa using h0)
  next hnew =>
    simp only [Bool.or_eq_true, beq_iff_eq, not_or, Bool.not_eq_true] at hnew
    obtain ⟨hns, hpos⟩ := hnew
    have hb :
        Bumped s (bumpVarActivity { s with seen := Function.update s.seen q.var true } q.var) :=
      (Bumped.mark ho _).trans (.var (Bumped.mark ho _).ok _)
    have hmono : ∀ v, s.seen v = true → Function.update s.seen q.var true v = true := by
      intro v hv
      by_cases he : v = q.var
      · rw [he, update_self]
      · rw [update_of_ne he, hv]
    have hcase : ∀ v, Function.update s.seen q.var true v = true → v = q.var ∨ s.seen v = true := by
      intro v hv
      by_cases he : v = q.var
      · exact .inl he
      · rw [update_of_ne he] at hv
        exact .inr hv
    have hclear : ∀ v, Function.update s.seen q.var true v = true → v ∈ a.toClear ++ [q.var] := by
      intro v hv
      rcases hcase v hv with rfl | hv
      · exact mem_append_right _ (mem_singleton_self _)
      · exact mem_append_left _ (h.clear v hv)
    have hnodup : ((s.trail.take i).map Lit.var).Nodup :=
      ht.nodup.sublist ((take_sublist _ _).map _)
    split
    next hlev =>
      have hD : s.level q.var = s.decisionLevel := le_antisymm (ht.level_le (l := q.neg) hqt) hlev
      refine ⟨⟨?_, h.vars, ?_, ?_, hclear⟩, .inr (.inr ⟨update_self .., hD⟩),
        ⟨fun _ h => h, hmono, hb⟩⟩
      · intro p hp
        obtain ⟨h1, h2, h3, h4⟩ := h.lower p hp
        exact ⟨h1, h2, h3, hmono _ h4⟩
      · intro v hv
        rcases hcase v hv with rfl | hv
        · exact .inr ⟨q.neg, hq, rfl, hD⟩
        · exact h.origin v hv
      · have hcount :=
          countP_mark (fun l => s.level l.var == s.decisionLevel) hnodup hq hns (by simpa using hD)
        rw [h.count]
        exact hcount.symm
    next hlev =>
      have hlt : s.level q.var < s.decisionLevel := not_le.mp hlev
      refine ⟨⟨?_, ?_, ?_, ?_, hclear⟩, .inr (.inl (mem_append_right _ (mem_singleton_self _))),
        ⟨fun _ h => mem_append_left _ h, hmono, hb⟩⟩
      · intro p hp
        rcases mem_append.mp hp with hp | hp
        · obtain ⟨h1, h2, h3, h4⟩ := h.lower p hp
          exact ⟨h1, h2, h3, hmono _ h4⟩
        · rw [mem_singleton] at hp
          subst hp
          exact ⟨hqt, Nat.pos_of_ne_zero hpos, hlt, update_self ..⟩
      · rw [map_append, map_cons, map_nil]
        refine nodup_append.mpr ⟨h.vars, nodup_singleton _, ?_⟩
        intro v hv w hw
        rw [mem_singleton] at hw
        obtain ⟨p, hp, rfl⟩ := mem_map.mp hv
        rintro rfl
        have := (h.lower p hp).2.2.2
        rw [hw] at this
        exact Bool.noConfusion (hns.symm.trans this)
      · intro v hv
        rcases hcase v hv with rfl | hv
        · exact .inl ⟨q, mem_append_right _ (mem_singleton_self _), rfl⟩
        · rcases h.origin v hv with ⟨p, hp, he⟩ | hr
          · exact .inl ⟨p, mem_append_left _ hp, he⟩
          · exact .inr hr
      · change a.pathCount = (s.trail.take i).countP fun l =>
          Function.update s.seen q.var true l.var && s.level l.var == s.decisionLevel
        rw [h.count]
        apply countP_congr
        intro l hl
        by_cases he : l.var = q.var
        · simp only [he, update_self, Bool.true_and, Bool.and_eq_true, beq_iff_eq]
          constructor
          · rintro ⟨-, hl⟩
            exact hl
          · intro hl
            omega
        · simp only [update_of_ne he]

lemma foldl_analyzeLit (ht : t.Ok) (lits : List SatLit) (hx : x.2.toTrailState = t)
    (ho : x.2.order.Ok) (h : Marked t i x.1 x.2.seen) (hl : ∀ q ∈ lits, q.neg ∈ t.trail.take i) :
    Marked t i (lits.foldl analyzeLit x).1 (lits.foldl analyzeLit x).2.seen ∧
      (∀ q ∈ lits, Accounted t (lits.foldl analyzeLit x).1 (lits.foldl analyzeLit x).2.seen q) ∧
      Grown x (lits.foldl analyzeLit x) := by
  induction lits generalizing x with
  | nil => exact ⟨h, by simp, fun _ h => h, fun _ h => h, .refl ho⟩
  | cons q lits ih =>
    subst hx
    obtain ⟨h1, h2, h3⟩ := analyzeLit_spec ht ho h (hl q mem_cons_self)
    obtain ⟨h4, h5, h6⟩ :=
      ih h3.bumped.trail h3.bumped.ok h1 fun p hp => hl p (mem_cons_of_mem _ hp)
    refine ⟨h4, fun p hp => ?_, h3.trans h6⟩
    rcases mem_cons.mp hp with rfl | hp
    · exact h2.grown h6
    · exact h5 p hp

lemma analyzeClause_spec (ht : t.Ok) (r : ClauseRef) (c : Clause) (lits : List SatLit)
    (hx : x.2.toTrailState = t)
    (ho : x.2.order.Ok) (h : Marked t i x.1 x.2.seen) (hl : ∀ q ∈ lits, q.neg ∈ t.trail.take i) :
    Marked t i (analyzeClause r c lits x).1 (analyzeClause r c lits x).2.seen ∧
      (∀ q ∈ lits, Accounted t (analyzeClause r c lits x).1 (analyzeClause r c lits x).2.seen q) ∧
      Grown x (analyzeClause r c lits x) := by
  have hg : Grown x (x.1, if c.learned then x.2.bumpClauseActivity r else x.2) := by
    refine ⟨fun _ h => h, ?_, ?_⟩
    · split <;> exact fun _ h => h
    · split
      · exact .clause ho r
      · exact .refl ho
  have hseen : (if c.learned then x.2.bumpClauseActivity r else x.2).seen = x.2.seen := by
    split <;> rfl
  obtain ⟨h1, h2, h3⟩ :=
    foldl_analyzeLit ht lits (x := (x.1, if c.learned then x.2.bumpClauseActivity r else x.2))
    (hg.bumped.trail.trans hx) hg.bumped.ok (hseen ▸ h) hl
  exact ⟨h1, h2, hg.trans h3⟩

/-- The clause gathered so far, together with the marked entries of the current
level below index `i`, follows from the formula. -/
def Resolved (F : List (List SatLit)) (t : TrailState) (i : Nat) (a : Analysis)
    (seen : SatVar → Bool) : Prop :=
  ∀ σ, Models σ F → (∃ q ∈ a.learnt, q.Holds σ) ∨
    ∃ l ∈ t.trail.take i, seen l.var = true ∧ t.level l.var = t.decisionLevel ∧ ¬ l.Holds σ

structure Asserting (F : List (List SatLit)) (t : TrailState) (pivot : SatLit) (a : Analysis)
    (seen : SatVar → Bool) : Prop where
  mem : pivot ∈ t.trail
  level : t.level pivot.var = t.decisionLevel
  lower : ∀ q ∈ a.learnt, q.neg ∈ t.trail ∧ 0 < t.level q.var ∧ t.level q.var < t.decisionLevel ∧
    seen q.var = true
  vars : (a.learnt.map Lit.var).Nodup
  origin : ∀ v, seen v = true → ∃ q ∈ a.learnt, q.var = v
  clear : ∀ v, seen v = true → v ∈ a.toClear
  implied : Entails F (pivot.neg :: a.learnt)

theorem Resolved.of_accounted {F : List (List SatLit)} {d : ClauseDb} (hcore : Core F t d)
    {σ : SatVar → Bool}
    (hσ : Models σ F) {q : SatLit} (hq : q.neg ∈ t.trail.take i) (hh : q.Holds σ)
    (h : Accounted t a seen q) : (∃ q ∈ a.learnt, q.Holds σ) ∨
      ∃ l ∈ t.trail.take i, seen l.var = true ∧ t.level l.var = t.decisionLevel ∧ ¬ l.Holds σ := by
  rcases h with h0 | hm | ⟨hs, hD⟩
  · exfalso
    have := hcore.root_entailed (mem_of_mem_take hq) h0 σ hσ
    simp only [clauseHolds_cons, clauseHolds_nil, or_false, Lit.holds_neg] at this
    exact this hh
  · exact .inl ⟨q, hm, hh⟩
  · exact .inr ⟨q.neg, hq, hs, hD, by simpa using hh⟩

theorem forced_of_lower {arena : ClauseRef → Option Clause} (ht : t.Ok)
    (hr : t.Reasoned arena) (hD : 0 < t.decisionLevel) {pivot : SatLit}
    (hi : t.trail[i]? = some pivot) (hp : t.level pivot.var = t.decisionLevel)
    (hl : l ∈ t.trail.take i) (hlev : t.level l.var = t.decisionLevel) :
    ∃ r, t.reason pivot.var = some r := by
  cases hn : t.reason pivot.var with
  | some r => exact ⟨r, rfl⟩
  | none =>
    exfalso
    rcases hr.decision i pivot hi hn with h0 | hm
    · omega
    · obtain ⟨j, hj⟩ := mem_iff_getElem?.mp hl
      obtain ⟨hji, hj'⟩ := TrailState.getElem?_take_some hj
      have h1 := ht.level j l hj'
      rw [hlev, TrailState.decisionLevel, eq_comm, countP_eq_length] at h1
      have := h1 i hm
      simp at this
      omega

lemma Marked.skip {t : TrailState} {i : Nat} {a : Analysis} {seen : SatVar → Bool}
    {l : SatLit} (h : Marked t (i + 1) a seen) (hi : t.trail[i]? = some l)
    (hl : seen l.var = false) : Marked t i a seen := by
  have htake : t.trail.take (i + 1) = t.trail.take i ++ [l] := by
    rw [take_add_one, hi]
    rfl
  refine ⟨h.lower, h.vars, fun v hv => ?_, ?_, h.clear⟩
  · rcases h.origin v hv with h1 | ⟨x, hx, hxv, hD⟩
    · exact .inl h1
    · rw [htake, mem_append, mem_singleton] at hx
      rcases hx with hx | rfl
      · exact .inr ⟨x, hx, hxv, hD⟩
      · rw [hxv, hv] at hl
        cases hl
  · rw [h.count, htake, countP_append]
    simp [hl]

lemma Marked.unmark (ht : t.Ok) (h : Marked t (i + 1) a seen) (hi : t.trail[i]? = some l)
    (hs : seen l.var = true) (hl : t.level l.var = t.decisionLevel) :
    Marked t i { a with pathCount := a.pathCount - 1 } (Function.update seen l.var false) := by
  have htake : t.trail.take (i + 1) = t.trail.take i ++ [l] := by
    rw [take_add_one, hi]
    rfl
  have hfresh : ∀ x ∈ t.trail.take i, x.var ≠ l.var := by
    intro x hx he
    obtain ⟨j, hj⟩ := mem_iff_getElem?.mp hx
    obtain ⟨hji, hj'⟩ := TrailState.getElem?_take_some hj
    have := ht.index_unique hj' hi he
    omega
  have hold : ∀ v, Function.update seen l.var false v = true → v ≠ l.var ∧ seen v = true := by
    intro v hv
    by_cases he : v = l.var
    · subst he
      rw [update_self] at hv
      cases hv
    · rw [update_of_ne he] at hv
      exact ⟨he, hv⟩
  refine ⟨fun q hq => ?_, h.vars, fun v hv => ?_, ?_, fun v hv => h.clear v (hold v hv).2⟩
  · obtain ⟨h1, h2, h3, h4⟩ := h.lower q hq
    have hne : q.var ≠ l.var := by
      intro he
      rw [he] at h3
      omega
    exact ⟨h1, h2, h3, by rw [update_of_ne hne, h4]⟩
  · obtain ⟨hne, hv⟩ := hold v hv
    rcases h.origin v hv with h1 | ⟨x, hx, hxv, hD⟩
    · exact .inl h1
    · rw [htake, mem_append, mem_singleton] at hx
      rcases hx with hx | rfl
      · exact .inr ⟨x, hx, hxv, hD⟩
      · exact absurd hxv.symm hne
  · rw [h.count, htake, countP_append]
    have hone : [l].countP (fun l => seen l.var && t.level l.var == t.decisionLevel) = 1 := by
      simp [hs, hl]
    rw [hone, Nat.add_sub_cancel]
    apply countP_congr
    intro x hx
    rw [update_of_ne (hfresh x hx)]

/-- With a marked entry of the current level at or below it, the topmost marked
entry belongs to the current level too. -/
theorem Marked.pivot_level (ht : t.Ok) (h : Marked t (i + 1) a seen) (hpos : 0 < a.pathCount)
    (hi : t.trail[i]? = some l) : t.level l.var = t.decisionLevel := by
  rw [h.count, countP_pos_iff] at hpos
  obtain ⟨x, hx, hxs⟩ := hpos
  simp only [Bool.and_eq_true, beq_iff_eq] at hxs
  obtain ⟨j, hj⟩ := mem_iff_getElem?.mp hx
  obtain ⟨hji, hj'⟩ := TrailState.getElem?_take_some hj
  have h1 := ht.level_mono hj' hi (by omega)
  have h2 := ht.level_le (mem_iff_getElem?.mpr ⟨i, hi⟩)
  omega

lemma analyzeWalk_spec {F : List (List SatLit)} {d : ClauseDb}
    (hcore : Core F t d) (hD : 0 < t.decisionLevel) (i : Nat) {s : SatEngine R}
    (ht : s.toTrailState = t) (hd : s.toClauseDb = d) (ho : s.order.Ok)
    (h : Marked t i a s.seen) (hpos : 0 < a.pathCount) (hres : Resolved F t i a s.seen)
    (hlen : i ≤ t.trail.length) :
    ∃ pivot a' s', analyzeWalk i (a, s) = some (pivot, a', s') ∧ Bumped s s' ∧
      Asserting F t pivot a' s'.seen := by
  induction i generalizing a s with
  | zero =>
    rw [h.count] at hpos
    simp at hpos
  | succ i ih =>
    obtain ⟨l, hi⟩ : ∃ l, t.trail[i]? = some l := ⟨_, getElem?_eq_getElem hlen⟩
    have htake : t.trail.take (i + 1) = t.trail.take i ++ [l] := by
      rw [take_add_one, hi]
      rfl
    subst ht hd
    simp only [analyzeWalk, hi]
    cases hs : s.seen l.var with
    | false =>
      simp only [Bool.not_false, if_true]
      refine ih rfl rfl ho (h.skip hi hs) hpos ?_ (Nat.le_of_succ_le hlen)
      intro σ hσ
      rcases hres σ hσ with h1 | ⟨x, hx, hxs, hrest⟩
      · exact .inl h1
      · rw [htake, mem_append, mem_singleton] at hx
        rcases hx with hx | rfl
        · exact .inr ⟨x, hx, hxs, hrest⟩
        · rw [hs] at hxs
          cases hxs
    | true =>
      have hlev := h.pivot_level hcore.trail hpos hi
      have hun := h.unmark hcore.trail hi hs hlev
      have hb : Bumped s { s with seen := Function.update s.seen l.var false } := .mark ho _
      have hne : ∀ x ∈ s.trail.take i, x.var ≠ l.var := by
        intro x hx he
        obtain ⟨j, hj⟩ := mem_iff_getElem?.mp hx
        obtain ⟨hji, hj'⟩ := TrailState.getElem?_take_some hj
        have := hcore.trail.index_unique hj' hi he
        omega
      simp only [Bool.not_true, Bool.false_eq_true, if_false]
      split
      next hzero =>
        have hnone : ∀ x ∈ s.trail.take i, Function.update s.seen l.var false x.var = true →
            s.level x.var ≠ s.decisionLevel := by
          intro x hx hxs hxl
          have hc := hun.count.symm.trans hzero
          rw [countP_eq_zero] at hc
          exact hc x hx (by simp [hxs, hxl])
        refine ⟨l, _, _, rfl, hb, mem_iff_getElem?.mpr ⟨i, hi⟩, hlev, hun.lower, hun.vars,
          fun v hv => ?_, hun.clear, fun σ hσ => ?_⟩
        · rcases hun.origin v hv with h1 | ⟨x, hx, rfl, hxl⟩
          · exact h1
          · exact absurd hxl (hnone x hx hv)
        · rw [clauseHolds_cons]
          rcases hres σ hσ with h1 | ⟨x, hx, hxs, hxl, hxh⟩
          · exact .inr h1
          · rw [htake, mem_append, mem_singleton] at hx
            rcases hx with hx | rfl
            · refine absurd hxl (hnone x hx ?_)
              rw [update_of_ne (hne x hx), hxs]
            · exact .inl (by simpa using hxh)
      next hzero =>
        have hpos' : 0 < ({ a with pathCount := a.pathCount - 1 } : Analysis).pathCount :=
          Nat.pos_of_ne_zero hzero
        obtain ⟨x, hx, hxs, hxl⟩ : ∃ x ∈ s.trail.take i,
              Function.update s.seen l.var false x.var = true ∧
              s.level x.var = s.decisionLevel := by
          have hc := hpos'
          rw [hun.count, countP_pos_iff] at hc
          obtain ⟨x, hx, hxs⟩ := hc
          simp only [Bool.and_eq_true, beq_iff_eq] at hxs
          exact ⟨x, hx, hxs⟩
        obtain ⟨r, hr⟩ := forced_of_lower hcore.trail hcore.reasons hD hi hlev hx hxl
        obtain ⟨c, hc, -, hl0, hrest⟩ := hcore.reasons.forced i l r hi hr
        simp only [hr, hc]
        obtain ⟨h1, h2, h3⟩ := analyzeClause_spec hcore.trail r c (c.lit1 :: c.rest)
          (x := ({ a with pathCount := a.pathCount - 1 },
            { s with seen := Function.update s.seen l.var false })) rfl hb.ok hun hrest
        have hb' := hb.trans h3.bumped
        have hgrow :
              0 < (analyzeClause r c (c.lit1 :: c.rest) ({ a with pathCount := a.pathCount - 1 },
              { s with seen := Function.update s.seen l.var false })).1.pathCount := by
          rw [h1.count, countP_pos_iff]
          exact ⟨x, hx, by simpa [hxl] using h3.seen _ hxs⟩
        have hres' : Resolved F s.toTrailState i
            (analyzeClause r c (c.lit1 :: c.rest) ({ a with pathCount := a.pathCount - 1 },
              { s with seen := Function.update s.seen l.var false })).1
            (analyzeClause r c (c.lit1 :: c.rest) ({ a with pathCount := a.pathCount - 1 },
              { s with seen := Function.update s.seen l.var false })).2.seen := by
          intro σ hσ
          -- Resolve the pivot against its reason.
          rcases hres σ hσ with ⟨q, hq, hqh⟩ | ⟨y, hy, hys, hyl, hyh⟩
          · exact .inl ⟨q, h3.learnt q hq, hqh⟩
          · rw [htake, mem_append, mem_singleton] at hy
            rcases hy with hy | rfl
            · refine .inr ⟨y, hy, h3.seen _ ?_, hyl, hyh⟩
              exact (update_of_ne (hne y hy) ..).trans hys
            · obtain ⟨q, hq, hqh⟩ := hcore.stored r c hc σ hσ
              rcases mem_cons.mp hq with rfl | hq
              · exact absurd (hl0 ▸ hqh) hyh
              · exact Resolved.of_accounted hcore hσ (hrest q hq) hqh (h2 q hq)
        obtain ⟨pivot, a', s', he, hbs, hpost⟩ :=
          ih hb'.trail hb'.db hb'.ok h1 hgrow hres' (Nat.le_of_succ_le hlen)
        exact ⟨pivot, a', s', he, hb'.trans hbs, hpost⟩

end SatEngine

end NeverD.Sat
