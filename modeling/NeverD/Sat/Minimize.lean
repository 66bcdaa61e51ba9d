import NeverD.Sat.Analyze

namespace NeverD.Sat
open Lib List Function Option

variable {fuel mask : Nat} {kept : List SatLit} {pivot : SatLit} {a : Analysis} {r : ClauseRef}

namespace SatEngine

variable {R : Type} {F : List (List SatLit)} {t : TrailState} {d : ClauseDb}

/-- A forced variable whose antecedents are all marked or true at the root. -/
def Explained (t : TrailState) (arena : ClauseRef → Option Clause) (seen : SatVar → Bool)
    (v : SatVar) : Prop :=
  ∃ r c, t.reason v = some r ∧ arena r = some c ∧ ∀ q ∈ c.lit1 :: c.rest, t.level q.var = 0 ∨
    seen q.var = true

variable {s : SatEngine R} {seen : SatVar → Bool}

lemma Explained.mono {arena : ClauseRef → Option Clause} {seen' : SatVar → Bool}
    {v : SatVar} (h : Explained t arena seen v) (hs : ∀ v, seen v = true → seen' v = true) :
    Explained t arena seen' v := by
  obtain ⟨r, c, hr, hc, hq⟩ := h
  exact ⟨r, c, hr, hc, fun q hm => (hq q hm).imp id (hs _)⟩

/-- Every mark is one of the literals `K`, is explained, or waits on the stack. -/
structure Covering (t : TrailState) (d : ClauseDb) (K : List SatLit) (m : Marks) : Prop where
  origin : ∀ v, m.seen v = true → (∃ q ∈ K, q.var = v) ∨ Explained t d.arena m.seen v ∨
    ∃ q ∈ m.stack, q.var = v
  assigned : ∀ v, m.seen v = true → ∃ l ∈ t.trail, l.var = v
  stack : ∀ q ∈ m.stack, (∃ l ∈ t.trail, l.var = q.var) ∧ t.reason q.var ≠ none
  clear : ∀ v, m.seen v = true → v ∈ m.toClear

def unmarked (t : TrailState) (m : Marks) : Nat :=
  (List.range t.numVars).countP fun v => !m.seen v

structure Spread (t : TrailState) (d : ClauseDb) (K : List SatLit) (m m' : Marks) : Prop where
  covering : Covering t d K m'
  mono : ∀ v, m.seen v = true → m'.seen v = true
  stack : ∀ q ∈ m.stack, q ∈ m'.stack
  size : m'.stack.length + unmarked t m' = m.stack.length + unmarked t m

lemma countP_unmark {f : SatVar → Bool} {n v : Nat} (hv : v < n) (hf : f v = false) :
    (List.range n).countP (fun w => !Function.update f v true w) + 1 =
    (List.range n).countP fun w => !f w := by
  induction n with
  | zero => omega
  | succ n ih =>
    rw [range_succ, countP_append, countP_append]
    by_cases he : v = n
    · subst he
      have hsame : (List.range v).countP (fun w => !Function.update f v true w) =
          (List.range v).countP fun w => !f w := by
        apply countP_congr
        intro w hw
        have hne : w ≠ v := ne_of_lt (mem_range.mp hw)
        rw [update_of_ne hne]
      rw [hsame]
      simp [hf]
    · have := ih (by omega)
      have hne : n ≠ v := fun h => he h.symm
      simp only [countP_singleton, update_of_ne hne]
      omega

lemma Covering.push {K : List SatLit} {m : Marks} (ht : t.Ok) (h : Covering t d K m)
    {q : SatLit} (hq : q.neg ∈ t.trail) (hs : m.seen q.var = false) (hr : t.reason q.var ≠ none) :
    Spread t d K m ⟨Function.update m.seen q.var true, m.toClear ++ [q.var], q :: m.stack⟩ := by
  have hmono : ∀ v, m.seen v = true → Function.update m.seen q.var true v = true := by
    intro v hv
    by_cases he : v = q.var
    · rw [he, update_self]
    · rw [update_of_ne he, hv]
  have hcase : ∀ v, Function.update m.seen q.var true v = true → v = q.var ∨ m.seen v = true := by
    intro v hv
    by_cases he : v = q.var
    · exact .inl he
    · rw [update_of_ne he] at hv
      exact .inr hv
  refine ⟨⟨?_, ?_, ?_, ?_⟩, hmono, fun x hx => mem_cons_of_mem _ hx, ?_⟩
  · intro v hv
    rcases hcase v hv with rfl | hv
    · exact .inr (.inr ⟨q, mem_cons_self, rfl⟩)
    · rcases h.origin v hv with h1 | h1 | ⟨x, hx, hxv⟩
      · exact .inl h1
      · exact .inr (.inl (h1.mono hmono))
      · exact .inr (.inr ⟨x, mem_cons_of_mem _ hx, hxv⟩)
  · intro v hv
    rcases hcase v hv with rfl | hv
    · exact ⟨q.neg, hq, rfl⟩
    · exact h.assigned v hv
  · intro x hx
    rcases mem_cons.mp hx with rfl | hx
    · exact ⟨⟨x.neg, hq, rfl⟩, hr⟩
    · exact h.stack x hx
  · intro v hv
    rcases hcase v hv with rfl | hv
    · exact mem_append_right _ (mem_singleton_self _)
    · exact mem_append_left _ (h.clear v hv)
  · have := countP_unmark (ht.bound q.neg hq) hs
    simp only [length_cons, unmarked, Lit.neg_var] at this ⊢
    omega

variable {m : Marks} {K : List SatLit}

lemma Spread.trans {m' m'' : Marks} (h : Spread t d K m m') (h' : Spread t d K m' m'') :
    Spread t d K m m'' :=
  ⟨h'.covering, fun v hv => h'.mono v (h.mono v hv), fun q hq => h'.stack q (h.stack q hq),
    h'.size.trans h.size⟩

lemma coverLits_spec (ht : s.toTrailState.Ok) (lits : List SatLit) {m' : Marks}
    (h : Covering s.toTrailState d K m) (hl : ∀ q ∈ lits, q.neg ∈ s.trail)
    (he : s.coverLits mask lits m = some m') :
    Spread s.toTrailState d K m m' ∧ ∀ q ∈ lits, s.level q.var = 0 ∨ m'.seen q.var = true := by
  induction lits generalizing m with
  | nil =>
    simp only [coverLits, some.injEq] at he
    subst he
    exact ⟨⟨h, fun _ h => h, fun _ h => h, rfl⟩, by simp⟩
  | cons q lits ih =>
    have htail : ∀ p ∈ lits, p.neg ∈ s.trail := fun p hp => hl p (mem_cons_of_mem _ hp)
    unfold coverLits at he
    split at he
    next hskip =>
      obtain ⟨h1, h2⟩ := ih h htail he
      refine ⟨h1, fun p hp => ?_⟩
      rcases mem_cons.mp hp with rfl | hp
      · simp only [Bool.or_eq_true, beq_iff_eq] at hskip
        exact hskip.symm.imp id (h1.mono _)
      · exact h2 p hp
    next hskip =>
      simp only [Bool.or_eq_true, beq_iff_eq, not_or, Bool.not_eq_true] at hskip
      split at he
      · cases he
      next hgo =>
        simp only [Bool.or_eq_true, isNone_iff_eq_none, not_or] at hgo
        have hpush := h.push ht (hl q mem_cons_self) hskip.1 hgo.1
        obtain ⟨h1, h2⟩ := ih hpush.covering htail he
        refine ⟨hpush.trans h1, fun p hp => ?_⟩
        rcases mem_cons.mp hp with rfl | hp
        · exact .inr (h1.mono _ (update_self ..))
        · exact h2 p hp

lemma Covering.antecedent (hcore : Core F t d) (h : Covering t d K m) {q : SatLit}
    (hq : q ∈ m.stack) :
    ∃ r c, t.reason q.var = some r ∧ d.arena r = some c ∧ ∀ p ∈ c.lit1 :: c.rest,
      p.neg ∈ t.trail := by
  obtain ⟨⟨l, hl, hlv⟩, hr⟩ := h.stack q hq
  obtain ⟨r, hr⟩ := ne_none_iff_exists'.mp hr
  obtain ⟨i, hi⟩ := mem_iff_getElem?.mp hl
  obtain ⟨c, hc, -, -, hrest⟩ := hcore.reasons.forced i l r hi (hlv ▸ hr)
  exact ⟨r, c, hr, hc, fun p hp => mem_of_mem_take (hrest p hp)⟩

theorem Covering.pop {stack : List SatLit} {q : SatLit} (h : Covering t d K m)
    (hs : m.stack = q :: stack) : Covering t d (q :: K) { m with stack := stack } := by
  refine ⟨fun v hv => ?_, h.assigned, fun x hx => ?_, h.clear⟩
  · rcases h.origin v hv with ⟨x, hx, hxv⟩ | h1 | ⟨x, hx, hxv⟩
    · exact .inl ⟨x, mem_cons_of_mem _ hx, hxv⟩
    · exact .inr (.inl h1)
    · rw [hs] at hx
      rcases mem_cons.mp hx with rfl | hx
      · exact .inl ⟨x, mem_cons_self, hxv⟩
      · exact .inr (.inr ⟨x, hx, hxv⟩)
  · exact h.stack x (hs ▸ mem_cons_of_mem _ hx)

def Walked (t : TrailState) (d : ClauseDb) (K : List SatLit) (m : Marks) : Option Marks → Prop
  | none => True
  | some m' => Covering t d K m' ∧ m'.stack = [] ∧ (∀ v, m.seen v = true → m'.seen v = true) ∧
      ∀ q ∈ m.stack, Explained t d.arena m'.seen q.var

lemma coverLoop_spec (hcore : Core F s.toTrailState s.toClauseDb) (fuel : Nat)
    (h : Covering s.toTrailState s.toClauseDb K m) {o : Option Marks}
    (he : s.coverLoop mask fuel m = some o) : Walked s.toTrailState s.toClauseDb K m o := by
  induction fuel generalizing m with
  | zero => cases he
  | succ fuel ih =>
    unfold coverLoop at he
    split at he
    next hnil =>
      cases he
      exact ⟨h, hnil, fun _ h => h, by simp [hnil]⟩
    next q stack hstack =>
      obtain ⟨r, c, hr, hc, hlits⟩ := h.antecedent hcore (hstack ▸ mem_cons_self)
      simp only [hr, bind_some, hc] at he
      have hpop := h.pop hstack
      split at he
      · cases he
        exact trivial
      next m₁ hlit =>
        obtain ⟨h1, h2⟩ := coverLits_spec hcore.trail _ hpop hlits hlit
        have hexp : Explained s.toTrailState s.arena m₁.seen q.var := ⟨r, c, hr, hc, h2⟩
        have hcov : Covering s.toTrailState s.toClauseDb K m₁ := by
          refine ⟨fun v hv => ?_, h1.covering.assigned, h1.covering.stack, h1.covering.clear⟩
          rcases h1.covering.origin v hv with ⟨x, hx, hxv⟩ | h3
          · rcases mem_cons.mp hx with rfl | hx
            · exact .inr (.inl (hxv ▸ hexp))
            · exact .inl ⟨x, hx, hxv⟩
          · exact .inr h3
        have hw := ih hcov he
        cases o with
        | none => exact trivial
        | some m' =>
          obtain ⟨h3, h4, h5, h6⟩ := hw
          refine ⟨h3, h4, fun v hv => h5 v (h1.mono v hv), fun x hx => ?_⟩
          rw [hstack] at hx
          rcases mem_cons.mp hx with rfl | hx
          · exact hexp.mono h5
          · exact h6 x (h1.stack x hx)

lemma coverLoop_total (mask : Nat) (hcore : Core F s.toTrailState s.toClauseDb) (fuel : Nat)
    (h : Covering s.toTrailState s.toClauseDb K m)
    (hf : m.stack.length + unmarked s.toTrailState m < fuel) :
    ∃ o, s.coverLoop mask fuel m = some o := by
  induction fuel generalizing m K with
  | zero => omega
  | succ fuel ih =>
    unfold coverLoop
    split
    · exact ⟨_, rfl⟩
    next q stack hstack =>
      obtain ⟨r, c, hr, hc, hlits⟩ := h.antecedent hcore (hstack ▸ mem_cons_self)
      simp only [hr, bind_some, hc]
      have hpop := h.pop hstack
      split
      · exact ⟨_, rfl⟩
      next m₁ hlit =>
        obtain ⟨h1, -⟩ := coverLits_spec hcore.trail _ hpop hlits hlit
        apply ih h1.covering
        have hsize : m₁.stack.length + unmarked s.toTrailState m₁ = stack.length +
            unmarked s.toTrailState m := h1.size
        rw [hstack, length_cons] at hf
        omega

lemma Covering.check (h : Covering t d K m) (hs : m.stack = [])
    {l : SatLit} (hl : l.neg ∈ t.trail) (hr : t.reason l.var ≠ none) :
    Covering t d K { m with stack := [l] } := by
  refine ⟨fun v hv => ?_, h.assigned, fun q hq => ?_, h.clear⟩
  · rcases h.origin v hv with h1 | h1 | ⟨x, hx, -⟩
    · exact .inl h1
    · exact .inr (.inl h1)
    · rw [hs] at hx
      cases hx
  · rw [mem_singleton] at hq
    subst hq
    exact ⟨⟨q.neg, hl, rfl⟩, hr⟩

lemma Covering.drop {ls : List SatLit} {l : SatLit} (h : Covering t d (kept ++ l :: ls) m)
    (hs : m.stack = [])
    (hl : Explained t d.arena m.seen l.var) : Covering t d (kept ++ ls) { m with stack := [] } := by
  refine ⟨fun v hv => ?_, h.assigned, by simp, h.clear⟩
  rcases h.origin v hv with ⟨q, hq, hqv⟩ | h5 | ⟨x, hx, -⟩
  · rw [mem_append, mem_cons] at hq
    rcases hq with hq | rfl | hq
    · exact .inl ⟨q, mem_append_left _ hq, hqv⟩
    · exact .inr (.inl (hqv ▸ hl))
    · exact .inl ⟨q, mem_append_right _ hq, hqv⟩
  · exact .inr (.inl h5)
  · rw [hs] at hx
    cases hx

/-- The literals kept explain every mark, and every mark still stands for a
literal of the clause or for one of its consequences. -/
theorem minimizeLoop_spec (hcore : Core F s.toTrailState s.toClauseDb) (ls kept : List SatLit)
    {m' : Marks} {kept' : List SatLit} (h : Covering s.toTrailState s.toClauseDb (kept ++ ls) m)
    (hs : m.stack = []) (hl : ∀ l ∈ ls, l.neg ∈ s.trail)
    (he : s.minimizeLoop fuel mask ls kept m = some (kept', m')) :
    Covering s.toTrailState s.toClauseDb kept' m' ∧ m'.stack = [] ∧
      (∀ v, m.seen v = true → m'.seen v = true) ∧ kept'.Sublist (kept ++ ls) := by
  induction ls generalizing kept m with
  | nil =>
    simp only [minimizeLoop, some.injEq, Prod.mk.injEq] at he
    obtain ⟨rfl, rfl⟩ := he
    rw [append_nil] at h ⊢
    exact ⟨h, hs, fun _ h => h, .refl _⟩
  | cons l ls ih =>
    have htail : ∀ q ∈ ls, q.neg ∈ s.trail := fun q hq => hl q (mem_cons_of_mem _ hq)
    have hassoc : kept ++ l :: ls = (kept ++ [l]) ++ ls := by simp
    unfold minimizeLoop at he
    split at he
    · rw [hassoc] at h ⊢
      exact ih _ h hs htail he
    next hreason =>
      rw [isNone_iff_eq_none] at hreason
      have hstart := h.check hs (hl l mem_cons_self) hreason
      unfold isRedundant at he
      cases hloop : s.coverLoop mask fuel { m with stack := [l] } with
      | none =>
        rw [hloop] at he
        cases he
      | some o =>
        rw [hloop] at he
        have hw := coverLoop_spec hcore fuel hstart hloop
        cases o with
        | none =>
          rw [hassoc] at h ⊢
          exact ih _ h hs htail he
        | some m₁ =>
          obtain ⟨h1, h2, h3, h4⟩ := hw
          have hdrop := h1.drop h2 (h4 l (mem_singleton_self l))
          obtain ⟨h5, h6, h7, h8⟩ := ih kept hdrop rfl htail he
          refine ⟨h5, h6, fun v hv => h7 v (h3 v hv), h8.trans ?_⟩
          exact (List.Sublist.refl kept).append (sublist_cons_self l ls)

lemma minimizeLoop_total (hcore : Core F s.toTrailState s.toClauseDb) (hf : s.numVars + 1 < fuel)
    (ls kept : List SatLit) (h : Covering s.toTrailState s.toClauseDb (kept ++ ls) m)
    (hs : m.stack = [])
    (hl : ∀ l ∈ ls, l.neg ∈ s.trail) : ∃ x, s.minimizeLoop fuel mask ls kept m = some x := by
  induction ls generalizing kept m with
  | nil => exact ⟨_, rfl⟩
  | cons l ls ih =>
    have htail : ∀ q ∈ ls, q.neg ∈ s.trail := fun q hq => hl q (mem_cons_of_mem _ hq)
    have hassoc : kept ++ l :: ls = (kept ++ [l]) ++ ls := by simp
    unfold minimizeLoop
    split
    · exact ih _ (hassoc ▸ h) hs htail
    next hreason =>
      rw [isNone_iff_eq_none] at hreason
      have hstart := h.check hs (hl l mem_cons_self) hreason
      have hsize : ({ m with stack := [l] } : Marks).stack.length +
          unmarked s.toTrailState { m with stack := [l] } < fuel := by
        have hle : unmarked s.toTrailState { m with stack := [l] } ≤ s.numVars := by
          have := countP_le_length (p := fun v => !m.seen v) (l := List.range s.numVars)
          simpa [unmarked] using this
        simp only [length_singleton]
        omega
      obtain ⟨o, ho⟩ := coverLoop_total mask hcore fuel hstart hsize
      unfold isRedundant
      rw [ho]
      have hw := coverLoop_spec hcore fuel hstart ho
      cases o with
      | none => exact ih _ (hassoc ▸ h) hs htail
      | some m₁ =>
        obtain ⟨h1, h2, -, h4⟩ := hw
        exact ih kept (h1.drop h2 (h4 l (mem_singleton_self l))) rfl htail

lemma Covering.holds (hcore : Core F t d) (h : Covering t d K m) (hs : m.stack = [])
    (hK : ∀ q ∈ K, q.neg ∈ t.trail)
    {σ : SatVar → Bool} (hσ : Models σ F) (hfalse : ∀ q ∈ K, ¬ q.Holds σ) {l : SatLit}
    (hl : l ∈ t.trail) (hm : m.seen l.var = true) : l.Holds σ := by
  obtain ⟨i, hi⟩ := mem_iff_getElem?.mp hl
  -- Induction on the trail position, as antecedents stand before what they force.
  induction i using Nat.strong_induction_on generalizing l with
  | _ i ih =>
    rcases h.origin l.var hm with ⟨q, hq, hqv⟩ | ⟨r, c, hr, hc, hex⟩ | ⟨x, hx, -⟩
    · rcases Lit.eq_or_eq_neg hqv with rfl | rfl
      · exact absurd (hK q hq) (hcore.trail.not_both hl)
      · simpa using hfalse _ hq
    · obtain ⟨c', hc', -, hl0, hrest⟩ := hcore.reasons.forced i l r hi hr
      have he : c' = c := some.inj (hc'.symm.trans hc)
      subst he
      obtain ⟨q, hq, hqh⟩ := hcore.stored r c' hc' σ hσ
      rcases mem_cons.mp hq with rfl | hq
      · exact hl0 ▸ hqh
      exfalso
      have hqt := hrest q hq
      have hqn : q.neg.Holds σ := by
        rcases hex q hq with h0 | hseen
        · simpa using hcore.root_entailed (mem_of_mem_take hqt) h0 σ hσ
        · obtain ⟨j, hj⟩ := mem_iff_getElem?.mp hqt
          obtain ⟨hji, hj'⟩ := TrailState.getElem?_take_some hj
          exact ih j hji (mem_of_mem_take hqt) hseen hj'
      rw [Lit.holds_neg] at hqn
      exact hqn hqh
    · rw [hs] at hx
      cases hx

lemma foldl_max_spec (level : SatVar → Nat) (ls : List SatLit) (b : Nat) :
    b ≤ ls.foldl (fun m q => max m (level q.var)) b ∧
      (∀ q ∈ ls, level q.var ≤ ls.foldl (fun m q => max m (level q.var)) b) ∧
      (ls.foldl (fun m q => max m (level q.var)) b = b ∨
        ∃ q ∈ ls, level q.var = ls.foldl (fun m q => max m (level q.var)) b) := by
  induction ls generalizing b with
  | nil => simp
  | cons q ls ih =>
    obtain ⟨h1, h2, h3⟩ := ih (max b (level q.var))
    rw [foldl_cons]
    refine ⟨(le_max_left _ _).trans h1, fun p hp => ?_, ?_⟩
    · rcases mem_cons.mp hp with rfl | hp
      · exact (le_max_right _ _).trans h1
      · exact h2 p hp
    · rcases h3 with h3 | ⟨p, hp, h3⟩
      · rcases Nat.le_total b (level q.var) with hle | hle
        · exact .inr ⟨q, mem_cons_self, by rw [h3, max_eq_right hle]⟩
        · exact .inl (by rw [h3, max_eq_left hle])
      · exact .inr ⟨p, mem_cons_of_mem _ hp, h3⟩

lemma latestFirst_spec (level : SatVar → Nat) (ls : List SatLit) : (latestFirst level ls).Perm ls ∧
      ∀ b rest, latestFirst level ls = b :: rest → ∀ q ∈ ls, level q.var ≤ level b.var := by
  cases ls with
  | nil => exact ⟨.refl _, by simp [latestFirst]⟩
  | cons l ls =>
    obtain ⟨h1, h2, h3⟩ := foldl_max_spec level ls (level l.var)
    simp only [latestFirst]
    generalize ls.foldl (fun m q => max m (level q.var)) (level l.var) = top at h1 h2 h3 ⊢
    have hall : ∀ q ∈ l :: ls, level q.var ≤ top := by
      intro q hq
      rcases mem_cons.mp hq with rfl | hq
      · exact h1
      · exact h2 q hq
    split
    next heq =>
      refine ⟨.refl _, ?_⟩
      rintro b rest ⟨⟩ q hq
      rw [heq]
      exact hall q hq
    next hne =>
      split
      next hnone =>
        exfalso
        rcases h3 with h3 | ⟨q, hq, h3⟩
        · exact hne h3.symm
        · simpa [h3] using Clause.exchangeFirst_none hnone q hq
      next m ls' hsome =>
        obtain ⟨hm, hp⟩ := Clause.exchangeFirst_some hsome
        refine ⟨hp, ?_⟩
        rintro b rest ⟨⟩ q hq
        rw [beq_iff_eq.mp hm]
        exact hall q hq

lemma clearMarks_eq (toClear : List SatVar) (seen : SatVar → Bool) (v : SatVar) :
    clearMarks seen toClear v = if v ∈ toClear then false else seen v := by
  unfold clearMarks
  induction toClear generalizing seen with
  | nil => simp
  | cons w ws ih =>
    rw [foldl_cons, ih]
    by_cases hv : v = w
    · subst hv
      simp
    · simp [hv]

structure Derived (F : List (List SatLit)) (t : TrailState) (l : Learned) : Prop where
  mem : l.assert.neg ∈ t.trail
  level : t.level l.assert.var = t.decisionLevel
  back : l.backtrackLevel < t.decisionLevel
  others : ∀ q ∈ l.others, q.neg ∈ t.trail ∧ 0 < t.level q.var ∧ t.level q.var ≤ l.backtrackLevel
  head : ∀ b rest, l.others = b :: rest → t.level b.var = l.backtrackLevel
  unit : l.others = [] → l.backtrackLevel = 0
  vars : ((l.assert :: l.others).map Lit.var).Nodup
  implied : Entails F (l.assert :: l.others)

theorem Asserting.minimized (hcore : Core F t d) (h : Asserting F t pivot a seen)
    (hc : Covering t d kept m) (hs : m.stack = []) (hm : ∀ v, seen v = true → m.seen v = true)
    (hsub : kept.Sublist a.learnt) : Entails F (pivot.neg :: kept) := by
  intro σ hσ
  by_contra hno
  rw [clauseHolds_cons, not_or] at hno
  have hfalse : ∀ q ∈ kept, ¬ q.Holds σ := fun q hq hh => hno.2 ⟨q, hq, hh⟩
  obtain ⟨q, hq, hh⟩ := h.implied σ hσ
  rcases mem_cons.mp hq with rfl | hq
  · exact hno.1 hh
  · obtain ⟨hqt, -, -, hqs⟩ := h.lower q hq
    have hneg :=
      hc.holds hcore hs (fun p hp => (h.lower p (hsub.mem hp)).1) hσ hfalse hqt (hm q.var hqs)
    rw [Lit.holds_neg] at hneg
    exact hneg hh

lemma Asserting.derived (hcore : Core F t d) (hD : 0 < t.decisionLevel)
    (h : Asserting F t pivot a seen) (hc : Covering t d kept m) (hs : m.stack = [])
    (hm : ∀ v, seen v = true → m.seen v = true) (hsub : kept.Sublist a.learnt) (span : Nat) :
    Derived F t ⟨pivot.neg, latestFirst t.level kept,
      ((latestFirst t.level kept).head?.map fun l => t.level l.var).getD 0, span⟩ := by
  obtain ⟨hperm, hmax⟩ := latestFirst_spec t.level kept
  have hlow : ∀ q ∈ latestFirst t.level kept, q.neg ∈ t.trail ∧ 0 < t.level q.var ∧
      t.level q.var < t.decisionLevel := by
    intro q hq
    obtain ⟨h1, h2, h3, -⟩ := h.lower q (hsub.mem (hperm.mem_iff.mp hq))
    exact ⟨h1, h2, h3⟩
  refine ⟨by simpa using h.mem, h.level, ?_, fun q hq => ?_, ?_, ?_, ?_, ?_⟩
  · cases hl : latestFirst t.level kept with
    | nil => simpa using hD
    | cons b rest => simpa using (hlow b (hl ▸ mem_cons_self)).2.2
  · refine ⟨(hlow q hq).1, (hlow q hq).2.1, ?_⟩
    cases hl : latestFirst t.level kept with
    | nil => simp [hl] at hq
    | cons b rest => simpa using hmax b rest hl q (hperm.mem_iff.mp hq)
  · intro b rest hl
    dsimp only at hl ⊢
    simp [hl]
  · intro hl
    dsimp only at hl ⊢
    simp [hl]
  · rw [map_cons, nodup_cons]
    constructor
    · intro hv
      obtain ⟨q, hq, hqv⟩ := mem_map.mp hv
      have h3 := (hlow q hq).2.2
      rw [hqv, Lit.neg_var, h.level] at h3
      exact lt_irrefl _ h3
    · exact ((hperm.map _).nodup_iff).mpr (h.vars.sublist (hsub.map _))
  · exact (h.minimized hcore hc hs hm hsub).weaken fun q hq => by
      rcases mem_cons.mp hq with rfl | hq
      · exact mem_cons_self
      · exact mem_cons_of_mem _ (hperm.mem_iff.mpr hq)

lemma Asserting.covering (h : Asserting F t pivot a seen) :
    Covering t d a.learnt ⟨seen, a.toClear, []⟩ := by
  refine ⟨fun v hv => .inl (h.origin v hv), fun v hv => ?_, by simp, h.clear⟩
  obtain ⟨q, hq, hqv⟩ := h.origin v hv
  exact ⟨q.neg, (h.lower q hq).1, hqv⟩

lemma marked_init (hs : ∀ v, s.seen v = false) :
    Marked s.toTrailState s.trail.length {} s.seen := by
  refine ⟨by simp, by simp, fun v hv => ?_, ?_, fun v hv => ?_⟩
  · rw [hs v] at hv
    cases hv
  · rw [eq_comm, countP_eq_zero]
    simp [hs]
  · rw [hs v] at hv
    cases hv

lemma minimize_spec {s₁ : SatEngine R} (hcore : Core F s.toTrailState s.toClauseDb)
    (hb : Bumped s s₁)
    (hass : Asserting F s.toTrailState pivot a s₁.seen)
    (hm : s₁.minimize fuel a.learnt a.toClear = some (kept, m)) :
    Covering s.toTrailState s.toClauseDb kept m ∧ m.stack = [] ∧
      (∀ v, s₁.seen v = true → m.seen v = true) ∧ kept.Sublist a.learnt := by
  have hcov : Covering s.toTrailState s.toClauseDb a.learnt ⟨s₁.seen, a.toClear, []⟩ :=
    hass.covering
  unfold minimize at hm
  split at hm
  · rw [← hb.trail, ← hb.db] at hcov hcore ⊢
    have hl : ∀ q ∈ a.learnt, q.neg ∈ s₁.trail := by
      intro q hq
      rw [hb.trail]
      exact (hass.lower q hq).1
    obtain ⟨h1, h2, h3, h4⟩ := minimizeLoop_spec hcore a.learnt [] (by simpa using hcov) rfl hl hm
    exact ⟨h1, h2, h3, by simpa using h4⟩
  · cases hm
    exact ⟨hcov, rfl, fun _ h => h, .refl _⟩

variable [FloatArith R] {G : List (List SatLit)} {as : List SatLit} {n : Nat}

variable (h : Settled F G as n s)
include h

lemma analyze_start (ho : s.order.Ok) (hs : ∀ v, s.seen v = false) (hD : 0 < s.decisionLevel)
    (hr : Falsifies s r) : ∃ c pivot a s', s.arena r = some c ∧
      analyzeWalk s.trail.length (analyzeClause r c c.lits ({}, s)) = some (pivot, a, s') ∧
      Bumped s s' ∧ Asserting F s.toTrailState pivot a s'.seen := by
  obtain ⟨c, hc, -, hfalse, q, hq, hqD⟩ := hr
  have htake : ∀ l ∈ c.lits, l.neg ∈ s.trail.take s.trail.length := by
    intro l hl
    rw [take_length]
    exact hfalse l hl
  obtain ⟨h1, h2, h3⟩ :=
    analyzeClause_spec h.core.trail r c c.lits (x := ({}, s)) rfl ho (marked_init hs) htake
  have hpos : 0 < (analyzeClause r c c.lits ({}, s)).1.pathCount := by
    rw [h1.count, countP_pos_iff]
    refine ⟨q.neg, htake q hq, ?_⟩
    rcases h2 q hq with h0 | hm | ⟨hseen, -⟩
    · omega
    · have := (h1.lower q hm).2.2.1
      omega
    · simp [hseen, hqD]
  have hres : Resolved F s.toTrailState s.trail.length
      (analyzeClause r c c.lits ({}, s)).1 (analyzeClause r c c.lits ({}, s)).2.seen := by
    intro σ hσ
    obtain ⟨l, hl, hh⟩ := h.core.stored r c hc σ hσ
    exact Resolved.of_accounted h.core hσ (htake l hl) hh (h2 l hl)
  obtain ⟨pivot, a, s', he, hb, hpost⟩ := analyzeWalk_spec h.core hD s.trail.length
    h3.bumped.trail h3.bumped.db h3.bumped.ok h1 hpos hres le_rfl
  exact ⟨c, pivot, a, s', hc, he, h3.bumped.trans hb, hpost⟩

/-- Conflict analysis derives an asserting clause and only touches marks,
activities and counters. -/
theorem analyze_spec {s' : SatEngine R} {l : Learned}
    (ho : s.order.Ok) (hs : ∀ v, s.seen v = false) (hD : 0 < s.decisionLevel)
    (hr : Falsifies s r) (he : s.analyze fuel r = some (l, s')) :
    Derived F s.toTrailState l ∧ (∀ v, s'.seen v = false) ∧
      ∃ st, Bumped { s with stats := st } s' := by
  obtain ⟨c, pivot, a, s₁, hc, hwalk, hb, hass⟩ := analyze_start h ho hs hD hr
  unfold analyze at he
  simp only [hc, hwalk] at he
  split at he
  · cases he
  next kept m hm =>
    obtain ⟨h1, h2, h3, h4⟩ := minimize_spec h.core hb hass hm
    cases he
    have hlev : s₁.level = s.level := by rw [hb.trail]
    refine ⟨?_, fun v => ?_, ?_⟩
    · rw [hlev]
      exact hass.derived h.core hD h1 h2 h3 h4 _
    · change clearMarks m.seen m.toClear v = false
      rw [clearMarks_eq]
      split
      · rfl
      next hv =>
        cases hseen : m.seen v with
        | false => rfl
        | true => exact absurd (h1.clear v hseen) hv
    · obtain ⟨⟨sn, act, ord, vi, ca, ci, rfl⟩, h5, h6⟩ := hb
      exact ⟨{ s.stats with minimizedLiterals := (s.stats.minimizedLiterals +
        (a.learnt.length - kept.length)) % 2 ^ 64 },
        ⟨clearMarks m.seen m.toClear, act, ord, vi, ca, ci, rfl⟩, h5, h6⟩

lemma analyze_total (ho : s.order.Ok) (hs : ∀ v, s.seen v = false) (hD : 0 < s.decisionLevel)
    (hr : Falsifies s r) (hf : s.numVars + 1 < fuel) : ∃ x, s.analyze fuel r = some x := by
  obtain ⟨c, pivot, a, s₁, hc, hwalk, hb, hass⟩ := analyze_start h ho hs hD hr
  have hmin : ∃ y, s₁.minimize fuel a.learnt a.toClear = some y := by
    unfold minimize
    split
    · have hcore : Core F s₁.toTrailState s₁.toClauseDb := by
        rw [hb.trail, hb.db]
        exact h.core
      have hcov : Covering s₁.toTrailState s₁.toClauseDb a.learnt ⟨s₁.seen, a.toClear, []⟩ := by
        rw [hb.trail, hb.db]
        exact hass.covering
      apply minimizeLoop_total hcore (by rwa [hb.trail]) a.learnt [] (by simpa using hcov) rfl
      intro q hq
      rw [hb.trail]
      exact (hass.lower q hq).1
    · exact ⟨_, rfl⟩
  obtain ⟨⟨kept, m⟩, hm⟩ := hmin
  unfold analyze
  simp only [hc, hwalk, hm]
  exact ⟨_, rfl⟩

omit h

end SatEngine

end NeverD.Sat
