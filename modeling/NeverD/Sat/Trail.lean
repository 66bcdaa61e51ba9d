import NeverD.Sat.Solver

namespace NeverD.Sat
open Lib List Function Option

variable {n : Nat}

namespace TrailState

/-- The trail, its level markers and the value table describe one assignment. -/
structure Ok (t : TrailState) : Prop where
  nodup : (t.trail.map Lit.var).Nodup
  value : ∀ l, t.litValue l = some true ↔ l ∈ t.trail
  bound : ∀ l ∈ t.trail, l.var < t.numVars
  sorted : t.trailLim.Pairwise (· ≤ ·)
  lim_le : ∀ k ∈ t.trailLim, k ≤ t.queueHead
  head_le : t.queueHead ≤ t.trail.length
  level : ∀ i l, t.trail[i]? = some l → t.level l.var = t.trailLim.countP (· ≤ i)

/-- A forced literal sits in slot zero of its reason, whose others were falsified before; else it
opens its level. -/
structure Reasoned (t : TrailState) (arena : ClauseRef → Option Clause) : Prop where
  forced : ∀ i l r, t.trail[i]? = some l → t.reason l.var = some r →
    ∃ c, arena r = some c ∧ c.deleted = false ∧ c.lit0 = l ∧ ∀ q ∈ c.lit1 :: c.rest,
    q.neg ∈ t.trail.take i
  decision : ∀ i l, t.trail[i]? = some l → t.reason l.var = none → t.level l.var = 0 ∨
    i ∈ t.trailLim

variable {t : TrailState}

lemma litValue_neg (t : TrailState) (l : SatLit) : t.litValue l.neg = (t.litValue l).map not := by
  simp only [litValue, Lit.neg_var, Lit.neg_negated, Option.map_map]
  congr 1
  funext b
  cases b <;> cases l.negated <;> simp

lemma litValue_eq_false_iff (t : TrailState) (l : SatLit) :
    t.litValue l = some false ↔ t.litValue l.neg = some true := by
  rw [litValue_neg]
  cases t.litValue l with
  | none => simp
  | some b => cases b <;> simp

lemma litValue_eq_none_iff (t : TrailState) (l : SatLit) : t.litValue l = none ↔
    t.value l.var = none := by
  simp [litValue]

lemma Ok.value_false (h : t.Ok) (l : SatLit) : t.litValue l = some false ↔ l.neg ∈ t.trail := by
  rw [litValue_eq_false_iff, h.value]

variable {l : SatLit} {arena : ClauseRef → Option Clause}

variable (h : t.Ok)
include h

lemma Ok.not_both (hl : l ∈ t.trail) : l.neg ∉ t.trail := by
  intro hn
  have h1 := (h.value l).mpr hl
  have h2 := (h.value_false l).mpr hn
  rw [h1] at h2
  simp at h2

lemma Ok.value_none (v : SatVar) : t.value v = none ↔ ∀ l ∈ t.trail, l.var ≠ v := by
  constructor
  · rintro hv l hl rfl
    have := (h.value l).mpr hl
    simp [litValue, hv] at this
  · intro hv
    by_contra hne
    obtain ⟨b, hb⟩ := ne_none_iff_exists'.mp hne
    refine hv ⟨v, !b⟩ ((h.value _).mp ?_) rfl
    cases b <;> simp [litValue, hb]

lemma Ok.litValue_none (l : SatLit) : t.litValue l = none ↔ l ∉ t.trail ∧ l.neg ∉ t.trail := by
  rw [← h.value, ← h.value_false]
  cases t.litValue l with
  | none => simp
  | some b => cases b <;> simp

lemma Ok.index_unique {i j : Nat} {a b : SatLit} (hi : t.trail[i]? = some a)
    (hj : t.trail[j]? = some b) (hv : a.var = b.var) : i = j := by
  have hi' : (t.trail.map Lit.var)[i]? = some a.var := by simp [hi]
  have hj' : (t.trail.map Lit.var)[j]? = some a.var := by simp [hj, hv]
  have hlt : i < (t.trail.map Lit.var).length := (List.getElem?_eq_some_iff.mp hi').1
  exact (getElem?_inj hlt h.nodup).mp (hi'.trans hj'.symm)

lemma Ok.level_le (hl : l ∈ t.trail) : t.level l.var ≤ t.decisionLevel := by
  obtain ⟨i, hi⟩ := mem_iff_getElem?.mp hl
  rw [h.level i l hi]
  exact countP_le_length

lemma Ok.level_mono {i j : Nat} {a b : SatLit} (hi : t.trail[i]? = some a)
    (hj : t.trail[j]? = some b) (hij : i ≤ j) : t.level a.var ≤ t.level b.var := by
  rw [h.level i a hi, h.level j b hj]
  apply countP_mono_left
  intro k _ hk
  simp at hk ⊢
  omega

omit h

@[simp] lemma assign_trail (t : TrailState) (l : SatLit) (src : Option ClauseRef) :
    (t.assign l src).trail = t.trail ++ [l] := rfl

@[simp] lemma assign_trailLim (t : TrailState) (l : SatLit) (src : Option ClauseRef) :
    (t.assign l src).trailLim = t.trailLim := rfl

lemma assign_litValue_ne (t : TrailState) {q : SatLit} (src : Option ClauseRef)
    (h : q.var ≠ l.var) : (t.assign l src).litValue q = t.litValue q := by
  simp [litValue, assign, h]

lemma assign_litValue_self (t : TrailState) (l : SatLit) (src : Option ClauseRef) :
    (t.assign l src).litValue l = some true := by
  cases hn : l.negated <;> simp [litValue, assign, hn]

lemma assign_ok (h : t.Ok) (hv : t.value l.var = none) (hb : l.var < t.numVars)
    (src : Option ClauseRef) : (t.assign l src).Ok := by
  have hfree := (h.value_none l.var).mp hv
  refine ⟨?_, ?_, ?_, h.sorted, h.lim_le, ?_, ?_⟩
  · simp only [assign, map_append, map_cons, map_nil]
    refine nodup_append.mpr ⟨h.nodup, nodup_singleton _, ?_⟩
    intro x hx y hy
    obtain ⟨q, hq, rfl⟩ := mem_map.mp hx
    rw [mem_singleton] at hy
    exact hy ▸ hfree q hq
  · intro q
    by_cases hq : q.var = l.var
    · have hnone : q ∉ t.trail := fun hm => hfree q hm hq
      rcases Lit.eq_or_eq_neg hq with rfl | rfl
      · simp [assign_litValue_self]
      · have hne := Lit.neg_ne l
        simp [litValue_neg, assign_litValue_self, hnone, hne]
    · have hne : q ≠ l := fun he => hq (congrArg Lit.var he)
      rw [assign_litValue_ne t src hq, h.value]
      simp [hne]
  · intro q hq
    simp only [assign, mem_append, mem_singleton] at hq
    rcases hq with hq | rfl
    · exact h.bound q hq
    · exact hb
  · have := h.head_le
    simp [assign]
    omega
  · intro i q hi
    simp only [assign, getElem?_append] at hi ⊢
    split at hi
    · have hne : q.var ≠ l.var := hfree q (mem_iff_getElem?.mpr ⟨i, hi⟩)
      rw [update_of_ne hne]
      exact h.level i q hi
    next hlt =>
      obtain ⟨hidx, hq⟩ := List.getElem?_eq_some_iff.mp hi
      simp only [length_singleton] at hidx
      have hq' : q = l := by simpa using hq.symm
      subst hq'
      rw [update_self, decisionLevel, eq_comm, countP_eq_length]
      intro k hk
      have := h.lim_le k hk
      have := h.head_le
      simp
      omega

lemma assign_reasoned (h : t.Ok) (hr : t.Reasoned arena) (hv : t.value l.var = none)
    (src : Option ClauseRef)
    (hsome : ∀ r, src = some r → ∃ c, arena r = some c ∧ c.deleted = false ∧ c.lit0 = l ∧
      ∀ q ∈ c.lit1 :: c.rest, q.neg ∈ t.trail)
    (hnone : src = none → t.decisionLevel = 0 ∨ t.trail.length ∈ t.trailLim) :
    (t.assign l src).Reasoned arena := by
  have hfree := (h.value_none l.var).mp hv
  have old : ∀ i q, t.trail[i]? = some q → q.var ≠ l.var ∧ i < t.trail.length := fun i q hi =>
    ⟨hfree q (mem_iff_getElem?.mpr ⟨i, hi⟩), (List.getElem?_eq_some_iff.mp hi).1⟩
  have split : ∀ i q, (t.assign l src).trail[i]? = some q → t.trail[i]? = some q ∨
      (i = t.trail.length ∧ q = l) := by
    intro i q hi
    simp only [assign, getElem?_append] at hi
    split at hi
    · exact .inl hi
    · obtain ⟨hidx, hq⟩ := List.getElem?_eq_some_iff.mp hi
      simp only [length_singleton] at hidx
      exact .inr ⟨by omega, by simpa using hq.symm⟩
  constructor
  · intro i q r hi hq
    rcases split i q hi with hi | ⟨rfl, rfl⟩
    · obtain ⟨hne, hlt⟩ := old i q hi
      simp only [assign, update_of_ne hne] at hq
      obtain ⟨c, hc, hd, h0, hrest⟩ := hr.forced i q r hi hq
      refine ⟨c, hc, hd, h0, fun x hx => ?_⟩
      simpa [assign, take_append_of_le_length (le_of_lt hlt)] using hrest x hx
    · obtain ⟨c, hc, hd, h0, hrest⟩ := hsome r (by simpa [assign] using hq)
      exact ⟨c, hc, hd, h0, by simpa [assign] using hrest⟩
  · intro i q hi hq
    rcases split i q hi with hi | ⟨rfl, rfl⟩
    · obtain ⟨hne, -⟩ := old i q hi
      simp only [assign, update_of_ne hne] at hq ⊢
      exact hr.decision i q hi hq
    · simpa [assign] using hnone (by simpa [assign] using hq)

lemma newDecisionLevel_ok (h : t.Ok) (hd : t.queueHead = t.trail.length) :
    t.newDecisionLevel.Ok := by
  refine ⟨h.nodup, h.value, h.bound, ?_, ?_, h.head_le, ?_⟩
  · simp only [newDecisionLevel]
    refine pairwise_append.mpr ⟨h.sorted, pairwise_singleton _ _, ?_⟩
    intro a ha b hb
    rw [mem_singleton] at hb
    have := h.lim_le a ha
    omega
  · intro k hk
    simp only [newDecisionLevel, mem_append, mem_singleton] at hk ⊢
    rcases hk with hk | rfl
    · exact h.lim_le k hk
    · omega
  · intro i l hi
    have hlt : i < t.trail.length := (List.getElem?_eq_some_iff.mp hi).1
    have hno : ¬ t.trail.length ≤ i := by omega
    simp only [newDecisionLevel, countP_append, countP_singleton, decide_eq_true_eq, hno]
    exact h.level i l hi

lemma newDecisionLevel_reasoned (hr : t.Reasoned arena) : t.newDecisionLevel.Reasoned arena := by
  refine ⟨hr.forced, ?_⟩
  intro i l hi hl
  rcases hr.decision i l hi hl with h | h
  · exact .inl h
  · exact .inr (mem_append_left _ h)

def cut (t : TrailState) (bound level : Nat) : TrailState :=
  { t with
    value := fun v => if v ∈ (t.trail.drop bound).map Lit.var then none else t.value v
    reason := fun v => if v ∈ (t.trail.drop bound).map Lit.var then none else t.reason v
    trail := t.trail.take bound
    trailLim := t.trailLim.take level
    queueHead := bound }

variable {b : Nat}

lemma Ok.lim_bounds (h : t.Ok) (hb : t.trailLim[n]? = some b) :
    b ≤ t.trail.length ∧ (∀ k ∈ t.trailLim.take n, k ≤ b) ∧ ∀ k ∈ t.trailLim.drop n, b ≤ k := by
  have hlt : n < t.trailLim.length := (List.getElem?_eq_some_iff.mp hb).1
  have hd : t.trailLim.drop n = b :: t.trailLim.drop (n + 1) := by
    rw [drop_eq_getElem_cons hlt, (List.getElem?_eq_some_iff.mp hb).2]
  have hs : (t.trailLim.take n ++ b :: t.trailLim.drop (n + 1)).Pairwise (· ≤ ·) := by
    rw [← hd, take_append_drop]
    exact h.sorted
  obtain ⟨-, hright, hcross⟩ := pairwise_append.mp hs
  rw [pairwise_cons] at hright
  refine ⟨?_, fun k hk => hcross k hk b (by simp), ?_⟩
  · exact (h.lim_le b (mem_iff_getElem?.mpr ⟨n, hb⟩)).trans h.head_le
  · intro k hk
    rw [hd, mem_cons] at hk
    rcases hk with rfl | hk
    · exact le_rfl
    · exact hright.1 k hk

lemma Ok.mem_drop_iff (h : t.Ok) (hl : l ∈ t.trail) :
    l.var ∈ (t.trail.drop b).map Lit.var ↔ l ∉ t.trail.take b := by
  have hn : ((t.trail.take b ++ t.trail.drop b).map Lit.var).Nodup := by
    rw [take_append_drop]
    exact h.nodup
  rw [map_append] at hn
  have hdis := disjoint_of_nodup_append hn
  constructor
  · intro hm hk
    exact hdis (mem_map_of_mem hk) hm
  · intro hk
    have : l ∈ t.trail.take b ++ t.trail.drop b := by rwa [take_append_drop]
    exact mem_map_of_mem ((mem_append.mp this).resolve_left hk)

lemma getElem?_take_some {i : Nat} (hi : (t.trail.take b)[i]? = some l) :
    i < b ∧ t.trail[i]? = some l := by
  rw [getElem?_take] at hi
  split at hi
  · exact ⟨by assumption, hi⟩
  · simp at hi

lemma cut_litValue_of_mem (h : t.Ok) (hl : l ∈ t.trail.take b) :
    (t.cut b n).litValue l = t.litValue l := by
  have hm := (h.mem_drop_iff (b := b) (mem_of_mem_take hl)).not.mpr (not_not.mpr hl)
  simp only [litValue, cut, if_neg hm]

lemma cut_ok (h : t.Ok) (hb : t.trailLim[n]? = some b) : (t.cut b n).Ok := by
  obtain ⟨hlen, htake, hdrop⟩ := h.lim_bounds hb
  refine ⟨?_, ?_, ?_, ?_, htake, by simp [cut, hlen], ?_⟩
  · exact h.nodup.sublist ((take_sublist _ _).map _)
  · intro l
    by_cases hl : l ∈ t.trail.take b
    · rw [cut_litValue_of_mem h hl, h.value]
      simp [cut, hl, mem_of_mem_take hl]
    · constructor
      · intro hv
        exfalso
        by_cases hm : l.var ∈ (t.trail.drop b).map Lit.var
        · simp only [litValue, cut, if_pos hm, map_none] at hv
          exact absurd hv (by simp)
        · have hv' : t.litValue l = some true := by simpa only [litValue, cut, if_neg hm] using hv
          exact hm ((h.mem_drop_iff ((h.value l).mp hv')).mpr hl)
      · exact fun hm => absurd hm hl
  · exact fun l hl => h.bound l (mem_of_mem_take hl)
  · exact h.sorted.sublist (take_sublist _ _)
  · intro i l hi
    obtain ⟨hib, hi'⟩ := getElem?_take_some hi
    have hsplit : t.trailLim.countP (· ≤ i) =
        (t.trailLim.take n).countP (· ≤ i) + (t.trailLim.drop n).countP (· ≤ i) := by
      rw [← countP_append, take_append_drop]
    have hzero : (t.trailLim.drop n).countP (· ≤ i) = 0 := by
      rw [countP_eq_zero]
      intro k hk
      have := hdrop k hk
      simp
      omega
    change t.level l.var = (t.trailLim.take n).countP (· ≤ i)
    rw [h.level i l hi', hsplit, hzero, Nat.add_zero]

lemma cut_reasoned (h : t.Ok) (hr : t.Reasoned arena)
    (hb : t.trailLim[n]? = some b) : (t.cut b n).Reasoned arena := by
  have hkeep : ∀ (i : Nat) (l : SatLit), (t.trail.take b)[i]? = some l →
      (t.cut b n).reason l.var = t.reason l.var := by
    intro i l hi
    have hl : l ∈ t.trail.take b := mem_iff_getElem?.mpr ⟨i, hi⟩
    have hm := (h.mem_drop_iff (b := b) (mem_of_mem_take hl)).not.mpr (not_not.mpr hl)
    simp only [cut, if_neg hm]
  constructor
  · intro i l r hi hl
    rw [hkeep i l hi] at hl
    obtain ⟨hib, hi'⟩ := getElem?_take_some hi
    obtain ⟨c, hc, hd, h0, hrest⟩ := hr.forced i l r hi' hl
    refine ⟨c, hc, hd, h0, fun q hq => ?_⟩
    simpa [cut, take_take, min_eq_left (le_of_lt hib)] using hrest q hq
  · intro i l hi hl
    rw [hkeep i l hi] at hl
    obtain ⟨hib, hi'⟩ := getElem?_take_some hi
    rcases hr.decision i l hi' hl with h0 | hm
    · exact .inl h0
    · obtain ⟨-, -, hdrop⟩ := h.lim_bounds hb
      refine .inr ?_
      have : i ∈ t.trailLim.take n ++ t.trailLim.drop n := by rwa [take_append_drop]
      refine (mem_append.mp this).resolve_right fun hk => ?_
      have := hdrop i hk
      omega

theorem mem_take_of_level_le (h : t.Ok) (hb : t.trailLim[n]? = some b)
    (hl : l ∈ t.trail) (hlev : t.level l.var ≤ n) : l ∈ t.trail.take b := by
  obtain ⟨i, hi⟩ := mem_iff_getElem?.mp hl
  obtain ⟨-, htake, -⟩ := h.lim_bounds hb
  by_cases hib : i < b
  · exact mem_iff_getElem?.mpr ⟨i, by rwa [getElem?_take_of_lt hib]⟩
  exfalso
  have hlt : n < t.trailLim.length := (List.getElem?_eq_some_iff.mp hb).1
  have hcount : n + 1 ≤ t.trailLim.countP (· ≤ i) := by
    have hsub : (t.trailLim.take (n + 1)).countP (· ≤ i) ≤ t.trailLim.countP (· ≤ i) :=
      (take_sublist _ _).countP_le
    have hall : (t.trailLim.take (n + 1)).countP (· ≤ i) = (t.trailLim.take (n + 1)).length := by
      rw [countP_eq_length]
      intro k hk
      rw [take_add_one, hb] at hk
      simp only [toList_some, mem_append, mem_singleton] at hk
      rcases hk with hk | rfl
      · have := htake k hk
        simp
        omega
      · simpa using hib
    rw [hall, length_take] at hsub
    omega
  rw [h.level i l hi] at hlev
  omega

lemma level_le_of_mem_take (h : t.Ok) (hb : t.trailLim[n]? = some b)
    (hl : l ∈ t.trail.take b) : t.level l.var ≤ n := by
  obtain ⟨i, hi⟩ := mem_iff_getElem?.mp hl
  have hlev := (cut_ok h hb).level i l hi
  have hcl := countP_le_length (p := fun x => decide (x ≤ i)) (l := t.trailLim.take n)
  have hlen : (t.trailLim.take n).length ≤ n := by
    rw [length_take]
    omega
  exact (le_of_eq hlev).trans (hcl.trans hlen)

end TrailState

end NeverD.Sat
