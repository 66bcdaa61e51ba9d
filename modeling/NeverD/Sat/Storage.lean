import NeverD.Sat.Moves

namespace NeverD.Sat
open Lib List Function

namespace ClauseDb

def store (d : ClauseDb) (c : Clause) : ClauseDb :=
  let filed :=
    Function.update d.watches c.lit0.neg (d.watches c.lit0.neg ++ [⟨d.arenaSize, c.lit1⟩])
  { d with
    arena := Function.update d.arena d.arenaSize (some c)
    arenaSize := d.arenaSize + c.words
    clauses := if c.learned then d.clauses else d.clauses ++ [d.arenaSize]
    learnt := if c.learned then d.learnt ++ [d.arenaSize] else d.learnt
    watches := Function.update filed c.lit1.neg (filed c.lit1.neg ++ [⟨d.arenaSize, c.lit0⟩]) }

variable {d : ClauseDb} {numVars : Nat} {c : Clause}

lemma Ok.vacant (h : d.Ok numVars) : d.arena d.arenaSize = none := by
  cases hc : d.arena d.arenaSize with
  | none => rfl
  | some c => exact absurd (h.fresh _ c hc) (lt_irrefl _)

theorem store_cases {r : ClauseRef} {c' : Clause} (h : (d.store c).arena r = some c') :
    (r = d.arenaSize ∧ c' = c) ∨ (r ≠ d.arenaSize ∧ d.arena r = some c') := by
  by_cases hr : r = d.arenaSize
  · subst hr
    simp only [store, update_self, Option.some.injEq] at h
    exact .inl ⟨rfl, h.symm⟩
  · simp only [store, update_of_ne hr] at h
    exact .inr ⟨hr, h⟩

lemma store_old (h : d.Ok numVars) {r : ClauseRef} {c' : Clause} (hr : d.arena r = some c') :
    (d.store c).arena r = some c' := by
  have hne : r ≠ d.arenaSize := ne_of_lt (h.fresh r c' hr)
  simpa only [store, update_of_ne hne] using hr

lemma store_new (d : ClauseDb) (c : Clause) : (d.store c).arena d.arenaSize = some c :=
  update_self ..

lemma store_ok (h : d.Ok numVars) (hd : c.deleted = false) (hn : (c.lits.map Lit.var).Nodup)
    (hb : ∀ l ∈ c.lits, l.var < numVars) : (d.store c).Ok numVars := by
  refine ⟨?_, ?_, ?_, ?_, ?_, ?_⟩
  · intro r c' hr
    have hw : d.arenaSize < (d.store c).arenaSize := by
      simp only [store, Clause.words, kHeaderWords]
      omega
    rcases store_cases hr with ⟨rfl, -⟩ | ⟨-, hr⟩
    · exact hw
    · exact (h.fresh r c' hr).trans hw
  · intro r c' hr
    rcases store_cases hr with ⟨-, rfl⟩ | ⟨-, hr⟩
    · exact hn
    · exact h.vars r c' hr
  · intro r c' hr
    rcases store_cases hr with ⟨-, rfl⟩ | ⟨-, hr⟩
    · exact hb
    · exact h.bound r c' hr
  · intro r hr
    cases hl : c.learned with
    | true =>
      simp only [store, hl, if_true] at hr
      obtain ⟨c', hc', hrest⟩ := h.input r hr
      exact ⟨c', store_old h hc', hrest⟩
    | false =>
      simp only [store, hl, Bool.false_eq_true, if_false, mem_append, mem_singleton] at hr
      rcases hr with hr | rfl
      · obtain ⟨c', hc', hrest⟩ := h.input r hr
        exact ⟨c', store_old h hc', hrest⟩
      · exact ⟨c, store_new d c, hd, hl⟩
  · intro r hr
    cases hl : c.learned with
    | false =>
      simp only [store, hl, Bool.false_eq_true, if_false] at hr
      obtain ⟨c', hc', hrest⟩ := h.derived r hr
      exact ⟨c', store_old h hc', hrest⟩
    | true =>
      simp only [store, hl, if_true, mem_append, mem_singleton] at hr
      rcases hr with hr | rfl
      · obtain ⟨c', hc', hrest⟩ := h.derived r hr
        exact ⟨c', store_old h hc', hrest⟩
      · exact ⟨c, store_new d c, hd, hl⟩
  · simp only [store]
    split
    · refine nodup_append.mpr ⟨h.nodup, nodup_singleton _, ?_⟩
      rintro x hx y hy rfl
      obtain ⟨c', hc', -⟩ := h.derived x hx
      rw [mem_singleton] at hy
      subst hy
      rw [h.vacant] at hc'
      cases hc'
    · exact h.nodup

end ClauseDb

variable {F : List (List SatLit)} {t : TrailState} {d : ClauseDb} {c : Clause}

lemma Core.store (h : Core F t d) (hd : c.deleted = false) (hn : (c.lits.map Lit.var).Nodup)
    (hb : ∀ l ∈ c.lits, l.var < t.numVars) (he : Entails F c.lits) : Core F t (d.store c) := by
  refine ⟨h.trail, ⟨?_, h.reasons.decision⟩, ClauseDb.store_ok h.db hd hn hb, ?_, h.roots⟩
  · intro i l r hi hr
    obtain ⟨c', hc', hrest⟩ := h.reasons.forced i l r hi hr
    exact ⟨c', ClauseDb.store_old h.db hc', hrest⟩
  · intro r c' hr
    rcases ClauseDb.store_cases hr with ⟨-, rfl⟩ | ⟨-, hr⟩
    · exact he
    · exact h.stored r c' hr

lemma Covered.store (h : Covered F t d) {numVars : Nat} (hd : d.Ok numVars) (c : Clause) :
    Covered F t (d.store c) := by
  intro C hC
  rcases h C hC with h1 | h1 | ⟨r, hr, c', hc', hs⟩
  · exact .inl h1
  · exact .inr (.inl h1)
  · refine .inr (.inr ⟨r, ?_, c', ClauseDb.store_old hd hc', hs⟩)
    simp only [ClauseDb.store]
    split
    · exact hr
    · exact mem_append_left _ hr

lemma Registered.store {numVars : Nat} (h : Registered d.arena d.watches) (hok : d.Ok numVars)
    (hd : c.deleted = false) (hn : (c.lits.map Lit.var).Nodup) :
    Registered (d.store c).arena (d.store c).watches := by
  have h01 : c.lit0.neg ≠ c.lit1.neg := fun he => Clause.lit0_ne_lit1 hn (Lit.neg_inj.mp he)
  have hfree : ∀ q, d.arenaSize ∉ watchRefs (d.watches q) := by
    intro q hm
    obtain ⟨w, hw, he⟩ := mem_watchRefs.mp hm
    obtain ⟨c', hc', -⟩ := h.entry q w hw
    rw [he, hok.vacant] at hc'
    cases hc'
  have hlist : ∀ q, (d.store c).watches q = d.watches q ++
      (if q = c.lit0.neg then [⟨d.arenaSize, c.lit1⟩] else []) ++
      (if q = c.lit1.neg then [⟨d.arenaSize, c.lit0⟩] else []) := by
    intro q
    simp only [ClauseDb.store]
    by_cases h1 : q = c.lit1.neg
    · subst h1
      simp [h01.symm]
    · by_cases h0 : q = c.lit0.neg
      · subst h0
        simp [h1]
      · simp [h1, h0]
  constructor
  · intro r c' hr hdel q
    rw [hlist]
    rcases ClauseDb.store_cases hr with ⟨rfl, rfl⟩ | ⟨hne, hr⟩
    · have hzero : (watchRefs (d.watches q)).count d.arenaSize = 0 :=
        count_eq_zero.mpr (hfree q)
      simp only [watchRefs, map_append, count_append] at hzero ⊢
      rw [hzero]
      by_cases h0 : q = c'.lit0.neg
      · subst h0
        simp [h01]
      · by_cases h1 : q = c'.lit1.neg
        · subst h1
          simp [h01.symm]
        · simp [h0, h1]
    · rw [← h.live r c' hr hdel q]
      have hne' : d.arenaSize ≠ r := hne.symm
      simp only [watchRefs, map_append, count_append]
      split <;> split <;> simp [hne']
  · intro q w hw
    rw [hlist, append_assoc, mem_append, mem_append] at hw
    rcases hw with hw | hw | hw
    · obtain ⟨c', hc', hrest⟩ := h.entry q w hw
      exact ⟨c', ClauseDb.store_old hok hc', hrest⟩
    · split at hw
      · rw [mem_singleton] at hw
        subst hw
        exact ⟨c, ClauseDb.store_new d c, hd, by simp [Clause.lits]⟩
      · simp at hw
    · split at hw
      · rw [mem_singleton] at hw
        subst hw
        exact ⟨c, ClauseDb.store_new d c, hd, by simp [Clause.lits]⟩
      · simp at hw

lemma Guarded.store {n : Nat} (h : Guarded t d.arena n)
    (hc : ∀ w, w = c.lit0 ∨ w = c.lit1 → w.neg ∈ t.trail.take n →
      ∃ b ∈ c.lits, b ∈ t.trail ∧ t.level b.var ≤ t.level w.var) :
        Guarded t (d.store c).arena n := by
  intro r c' hr hdel w hw hm
  rcases ClauseDb.store_cases hr with ⟨-, rfl⟩ | ⟨-, hr⟩
  · exact hc w hw hm
  · exact h r c' hr hdel w hw hm

lemma removeWatch_perm (r : ClauseRef) (ws : List Watcher) :
    (watchRefs (SatEngine.removeWatch r ws)).Perm ((watchRefs ws).erase r) ∧
      ∀ w ∈ SatEngine.removeWatch r ws, w ∈ ws := by
  induction ws with
  | nil => simp [SatEngine.removeWatch, watchRefs]
  | cons w ws ih =>
    unfold SatEngine.removeWatch
    split
    next hw =>
      have herase : (watchRefs (w :: ws)).erase r = watchRefs ws := by
        simp [watchRefs, hw]
      rw [herase]
      split
      next hl =>
        have : ws = [] := getLast?_eq_none_iff.mp hl
        subst this
        simp
      next z hl =>
        have hz : ws.dropLast ++ [z] = ws := dropLast_append_getLast? z hl
        have hp : (z :: ws.dropLast).Perm ws := by
          conv_rhs => rw [← hz]
          exact (perm_append_singleton z ws.dropLast).symm
        exact ⟨hp.map _, fun x hx => mem_cons_of_mem _ (hp.mem_iff.mp hx)⟩
    next hw =>
      have herase : (watchRefs (w :: ws)).erase r = w.clause :: (watchRefs ws).erase r := by
        simp only [watchRefs, map_cons]
        rw [erase_cons_tail (by simpa using hw)]
      rw [herase]
      refine ⟨ih.1.cons _, fun x hx => ?_⟩
      rcases mem_cons.mp hx with rfl | hx
      · exact mem_cons_self
      · exact mem_cons_of_mem _ (ih.2 x hx)

namespace ClauseDb

/-- The database after the clause at `r` was detached and dropped from the learned list. -/
def forget (d : ClauseDb) (r : ClauseRef) (c : Clause) (learnt : List ClauseRef) : ClauseDb :=
  let dropped :=
    Function.update d.watches c.lit0.neg (SatEngine.removeWatch r (d.watches c.lit0.neg))
  { d with
    arena := Function.update d.arena r (some { c with deleted := true })
    learnt := learnt
    wastedWords := d.wastedWords + c.words
    watches := Function.update dropped c.lit1.neg (SatEngine.removeWatch r (dropped c.lit1.neg)) }

variable {r : ClauseRef} {ln : List ClauseRef}

lemma forget_cases {r' : ClauseRef} {c' : Clause} (h : (d.forget r c ln).arena r' = some c') :
    (r' = r ∧ c' = { c with deleted := true }) ∨ (r' ≠ r ∧ d.arena r' = some c') := by
  by_cases hr : r' = r
  · subst hr
    simp only [forget, update_self, Option.some.injEq] at h
    exact .inl ⟨rfl, h.symm⟩
  · simp only [forget, update_of_ne hr] at h
    exact .inr ⟨hr, h⟩

lemma forget_old {r' : ClauseRef} (hr : r' ≠ r) : (d.forget r c ln).arena r' = d.arena r' :=
  update_of_ne hr ..

end ClauseDb

lemma Core.forget (h : Core F t d) {r : ClauseRef} {ln : List ClauseRef}
    (hc : d.arena r = some c) (hl : c.learned = true)
    (hlock : ∀ l ∈ t.trail, t.reason l.var ≠ some r) (hln : ln.Sublist d.learnt) (hr : r ∉ ln) :
    Core F t (d.forget r c ln) := by
  have live : ∀ r' ≠ r, (d.forget r c ln).arena r' = d.arena r' := fun r' hr' =>
    ClauseDb.forget_old hr'
  refine ⟨h.trail, ⟨?_, h.reasons.decision⟩, ⟨?_, ?_, ?_, ?_, ?_, h.db.nodup.sublist hln⟩,
    ?_, h.roots⟩
  · intro i l r' hi hr'
    have hne : r' ≠ r := by
      rintro rfl
      exact hlock l (mem_iff_getElem?.mpr ⟨i, hi⟩) hr'
    rw [live r' hne]
    exact h.reasons.forced i l r' hi hr'
  · intro r' c' hr'
    rcases ClauseDb.forget_cases hr' with ⟨rfl, -⟩ | ⟨-, hr'⟩
    · exact h.db.fresh _ c hc
    · exact h.db.fresh r' c' hr'
  · intro r' c' hr'
    rcases ClauseDb.forget_cases hr' with ⟨rfl, rfl⟩ | ⟨-, hr'⟩
    · exact h.db.vars _ c hc
    · exact h.db.vars r' c' hr'
  · intro r' c' hr'
    rcases ClauseDb.forget_cases hr' with ⟨rfl, rfl⟩ | ⟨-, hr'⟩
    · exact h.db.bound _ c hc
    · exact h.db.bound r' c' hr'
  · intro r' hr'
    obtain ⟨c', hc', hd', hl'⟩ := h.db.input r' hr'
    have hne : r' ≠ r := by
      rintro rfl
      rw [hc, Option.some.injEq] at hc'
      subst hc'
      rw [hl] at hl'
      cases hl'
    exact ⟨c', (live r' hne).trans hc', hd', hl'⟩
  · intro r' hr'
    obtain ⟨c', hc', hrest⟩ := h.db.derived r' (hln.mem hr')
    have hne : r' ≠ r := fun he => hr (he ▸ hr')
    exact ⟨c', (live r' hne).trans hc', hrest⟩
  · intro r' c' hr'
    rcases ClauseDb.forget_cases hr' with ⟨rfl, rfl⟩ | ⟨-, hr'⟩
    · exact h.stored _ c hc
    · exact h.stored r' c' hr'

lemma Covered.forget (h : Covered F t d) {r : ClauseRef} (ln : List ClauseRef)
    (hc : d.arena r = some c) : Covered F t (d.forget r c ln) := by
  intro C hC
  rcases h C hC with h1 | h1 | ⟨r', hr', c', hc', hs⟩
  · exact .inl h1
  · exact .inr (.inl h1)
  · refine .inr (.inr ⟨r', hr', ?_⟩)
    by_cases he : r' = r
    · subst he
      rw [hc, Option.some.injEq] at hc'
      subst hc'
      exact ⟨{ c with deleted := true }, update_self .., hs⟩
    · exact ⟨c', (ClauseDb.forget_old he).trans hc', hs⟩

lemma Registered.forget {r : ClauseRef} {ln : List ClauseRef}
    (h : Registered d.arena d.watches) (hc : d.arena r = some c) (hd : c.deleted = false)
    (hn : (c.lits.map Lit.var).Nodup) :
    Registered (d.forget r c ln).arena (d.forget r c ln).watches := by
  have h01 : c.lit0.neg ≠ c.lit1.neg := fun he => Clause.lit0_ne_lit1 hn (Lit.neg_inj.mp he)
  have hlist : ∀ q, (d.forget r c ln).watches q =
      if q = c.lit0.neg ∨ q = c.lit1.neg then SatEngine.removeWatch r (d.watches q)
      else d.watches q := by
    intro q
    simp only [ClauseDb.forget]
    by_cases h1 : q = c.lit1.neg
    · subst h1
      simp [h01.symm]
    · by_cases h0 : q = c.lit0.neg
      · subst h0
        simp [h1]
      · simp [h1, h0]
  have hcount : ∀ q r', (watchRefs ((d.forget r c ln).watches q)).count r' =
      if r' = r then 0 else (watchRefs (d.watches q)).count r' := by
    intro q r'
    have hlive := h.live r c hc hd q
    rw [hlist]
    split
    next hq =>
      rw [(removeWatch_perm r _).1.count_eq]
      split
      next hr =>
        subst hr
        rw [count_erase_self, hlive, if_pos hq]
      next hr => exact count_erase_of_ne hr
    next hq =>
      split
      next hr =>
        subst hr
        rw [hlive, if_neg hq]
      · rfl
  constructor
  · intro r' c' hr' hdel q
    rcases ClauseDb.forget_cases hr' with ⟨-, rfl⟩ | ⟨hne, hr'⟩
    · cases hdel
    · rw [hcount, if_neg hne]
      exact h.live r' c' hr' hdel q
  · intro q w hw
    have hne : w.clause ≠ r := by
      intro he
      have hpos : 0 < (watchRefs ((d.forget r c ln).watches q)).count w.clause :=
        count_pos_iff.mpr (mem_watchRefs.mpr ⟨w, hw, rfl⟩)
      rw [hcount, if_pos he] at hpos
      omega
    have hold : w ∈ d.watches q := by
      rw [hlist] at hw
      split at hw
      · exact (removeWatch_perm r _).2 w hw
      · exact hw
    obtain ⟨c', hc', hrest⟩ := h.entry q w hold
    exact ⟨c', (ClauseDb.forget_old hne).trans hc', hrest⟩

lemma Guarded.forget {n : Nat} {r : ClauseRef} {ln : List ClauseRef} (h : Guarded t d.arena n) :
    Guarded t (d.forget r c ln).arena n := by
  intro r' c' hr' hdel w hw hm
  rcases ClauseDb.forget_cases hr' with ⟨-, rfl⟩ | ⟨-, hr'⟩
  · cases hdel
  · exact h r' c' hr' hdel w hw hm

end NeverD.Sat
