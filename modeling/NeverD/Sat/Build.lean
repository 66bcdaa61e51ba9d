import NeverD.Sat.Storage

namespace NeverD.Sat
open Lib List Function Nat

variable {F : List (List SatLit)} {t : TrailState} {d : ClauseDb}
variable {s : SatEngine R}

lemma Core.relearn (h : Core F t d) {ln : List ClauseRef} (hp : ln.Perm d.learnt) :
    Core F t { d with learnt := ln } :=
  ⟨h.trail, h.reasons, ⟨h.db.fresh, h.db.vars, h.db.bound, h.db.input,
    fun r hr => h.db.derived r (hp.mem_iff.mp hr), hp.nodup_iff.mpr h.db.nodup⟩, h.stored, h.roots⟩

namespace SatEngine

variable {R : Type} {G : List (List SatLit)} {as : List SatLit} {n : Nat}

lemma Settled.discard {r : ClauseRef} {c : Clause}
    {kept refs : List ClauseRef} (h : Settled F G as n { s with learnt := kept ++ r :: refs })
    (hc : s.arena r = some c) (hlock : s.isLocked r c = false) :
    Settled F G as n { s.discard r c with learnt := kept ++ refs } := by
  obtain ⟨c', hc', hd, hl⟩ := h.core.db.derived r (by simp)
  have he : c' = c := Option.some.inj (hc'.symm.trans hc)
  subst he
  have hn := h.core.db.vars r c' hc
  have hnodup : (kept ++ r :: refs).Nodup := h.core.db.nodup
  have hfree : r ∉ kept ++ refs := by
    rw [nodup_append] at hnodup
    rw [mem_append]
    rintro (hm | hm)
    · exact hnodup.2.2 r hm r mem_cons_self rfl
    · exact (nodup_cons.mp hnodup.2.1).1 hm
  have hsub : (kept ++ refs).Sublist (kept ++ r :: refs) :=
    (List.Sublist.refl kept).append (sublist_cons_self r refs)
  have hreason : ∀ l ∈ s.trail, s.reason l.var ≠ some r := by
    intro l hm hr
    obtain ⟨i, hi⟩ := mem_iff_getElem?.mp hm
    obtain ⟨c₀, hc₀, -, h0, -⟩ := h.core.reasons.forced i l r hi hr
    have he : c₀ = c' := Option.some.inj (hc₀.symm.trans hc)
    subst he
    have hv : s.litValue l = some true := (h.core.trail.value l).mpr hm
    simp [isLocked, h0, hv, hr] at hlock
  exact ⟨h.core.forget hc hl hreason hsub hfree, h.covered.forget _ hc, h.decided,
    h.registered.forget hc hd hn, h.guarded.forget, h.lims⟩

lemma reduceLoop_spec (half i : Nat) {refs kept : List ClauseRef}
    (h : Settled F G as n { s with learnt := kept ++ refs }) :
    Settled F G as n { (reduceLoop half i refs kept s).2 with
        learnt := (reduceLoop half i refs kept s).1 } ∧
      ∃ arena watches wasted st, (reduceLoop half i refs kept s).2 =
        { s with arena := arena, watches := watches, wastedWords := wasted, stats := st } := by
  induction refs generalizing i kept s with
  | nil =>
    rw [append_nil] at h
    exact ⟨h, s.arena, s.watches, s.wastedWords, s.stats, rfl⟩
  | cons r refs ih =>
    have hkeep : Settled F G as n { s with learnt := (kept ++ [r]) ++ refs } := by simpa using h
    unfold reduceLoop
    split
    · exact ih (i + 1) hkeep
    next c hc =>
      split
      next hcond =>
        obtain ⟨h1, arena, watches, wasted, st, h2⟩ := ih (i + 1) (h.discard hc hcond.2.2.2)
        exact ⟨h1, arena, watches, wasted, st, h2⟩
      · exact ih (i + 1) hkeep

variable [FloatArith R]

lemma reduceDatabase_eq {s : SatEngine R} (h : Settled F G as n s) :
    Settled F G as n s.reduceDatabase ∧ ∃ arena watches wasted learnt st, s.reduceDatabase =
      { s with arena := arena, watches := watches, wastedWords := wasted, learnt := learnt,
               stats := st } := by
  have hp : (s.learnt.insertionSort fun a b => s.worse b a = false).Perm s.learnt :=
    perm_insertionSort _ _
  have hsorted : Settled F G as n
      { s with learnt := [] ++ s.learnt.insertionSort fun a b => s.worse b a = false } :=
    ⟨h.core.relearn hp, h.covered, h.decided, h.registered, h.guarded, h.lims⟩
  obtain ⟨h1, arena, watches, wasted, st, h2⟩ := reduceLoop_spec
    ((s.learnt.insertionSort fun a b => s.worse b a = false).length / 2) 0 hsorted
  unfold reduceDatabase
  dsimp only
  generalize reduceLoop _ 0 _ [] s = x at h1 h2 ⊢
  obtain ⟨kept, s'⟩ := x
  dsimp only at h2
  subst h2
  exact ⟨h1, arena, watches, wasted, kept, st, rfl⟩

lemma Ready.reduceDatabase {s : SatEngine R} (h : Ready F G as s) :
    Ready F G as s.reduceDatabase := by
  obtain ⟨h1, arena, watches, wasted, learnt, st, h2⟩ := reduceDatabase_eq h.settled
  rw [h2] at h1 ⊢
  exact ⟨h1, ⟨h.ordered.ok, h.ordered.known, h.ordered.queued⟩, h.clean⟩

end SatEngine

namespace TrailState

def grow (t : TrailState) : TrailState :=
  { t with
    numVars := t.numVars + 1
    value := Function.update t.value t.numVars none
    level := Function.update t.level t.numVars 0
    reason := Function.update t.reason t.numVars none }

variable {t : TrailState}

variable (h : t.Ok)
include h

lemma Ok.mem_ne {l : SatLit} (hl : l ∈ t.trail) : l.var ≠ t.numVars :=
  Nat.ne_of_lt (h.bound l hl)

lemma Ok.grow_value : t.grow.value = t.value := by
  apply update_eq_self_iff.mpr
  rw [eq_comm, h.value_none]
  exact fun l hl => h.mem_ne hl

lemma Ok.grow_level {l : SatLit} (hl : l ∈ t.trail) :
    t.grow.level l.var = t.level l.var := update_of_ne (h.mem_ne hl) ..

lemma Ok.grow_reason {l : SatLit} (hl : l ∈ t.trail) :
    t.grow.reason l.var = t.reason l.var := update_of_ne (h.mem_ne hl) ..

lemma grow_ok : t.grow.Ok := by
  refine ⟨h.nodup, ?_, ?_, h.sorted, h.lim_le, h.head_le, ?_⟩
  · intro l
    rw [litValue, h.grow_value]
    exact h.value l
  · exact fun l hl => (h.bound l hl).trans (lt_succ_self _)
  · intro i l hi
    rw [h.grow_level (mem_iff_getElem?.mpr ⟨i, hi⟩)]
    exact h.level i l hi

lemma grow_reasoned {arena : ClauseRef → Option Clause} (hr : t.Reasoned arena) :
    t.grow.Reasoned arena := by
  constructor
  · intro i l r hi hl
    rw [h.grow_reason (mem_iff_getElem?.mpr ⟨i, hi⟩)] at hl
    exact hr.forced i l r hi hl
  · intro i l hi hl
    have hm : l ∈ t.trail := mem_iff_getElem?.mpr ⟨i, hi⟩
    rw [h.grow_reason hm] at hl
    rw [h.grow_level hm]
    exact hr.decision i l hi hl

end TrailState

lemma Core.grow (h : Core F t d) : Core F t.grow d := by
  refine ⟨TrailState.grow_ok h.trail, TrailState.grow_reasoned h.trail h.reasons,
    ⟨h.db.fresh, h.db.vars, ?_, h.db.input, h.db.derived, h.db.nodup⟩, h.stored, ?_⟩
  · exact fun r c hc l hl => (h.db.bound r c hc l hl).trans (lt_succ_self _)
  · intro l hl h0 hr
    rw [h.trail.grow_level hl] at h0
    rw [h.trail.grow_reason hl] at hr
    exact h.roots l hl h0 hr

namespace SatEngine

variable {R : Type} {G : List (List SatLit)} {as : List SatLit} {n : Nat}

lemma Settled.watches_nil (h : Settled F G as n s) {q : SatLit} (hq : s.numVars ≤ q.var) :
    s.watches q = [] := by
  rw [eq_nil_iff_forall_not_mem]
  intro w hw
  obtain ⟨c, hc, -⟩ := h.registered.entry q w hw
  obtain ⟨-, hwatch, -⟩ := h.registered.watched hw hc
  have hm : q.neg ∈ c.lits := by
    rcases hwatch with he | he <;> simp [Clause.lits, he]
  exact absurd (h.core.db.bound _ c hc _ hm) (Nat.not_lt.mpr hq)

variable [FloatArith R]

lemma Settled.newVar {s s' : SatEngine R} {decision : Bool} {o : Option SatVar}
    (h : Settled F G as n s) (he : s.newVar decision = (o, s')) : Settled F G as n s' := by
  unfold SatEngine.newVar at he
  split at he
  · simp only [Prod.mk.injEq] at he
    rw [← he.2]
    exact h
  · simp only [Prod.mk.injEq] at he
    rw [← he.2]
    have ht := h.core.trail
    have hlevel : ∀ l ∈ s.trail, s.grow.level l.var = s.level l.var := fun l hl => ht.grow_level hl
    have hw : Function.update (Function.update s.watches ⟨s.numVars, false⟩ []) ⟨s.numVars, true⟩
        [] = s.watches := by
      have h0 := h.watches_nil (q := ⟨s.numVars, false⟩) le_rfl
      have h1 := h.watches_nil (q := ⟨s.numVars, true⟩) le_rfl
      rw [show Function.update s.watches ⟨s.numVars, false⟩ [] = s.watches from
        update_eq_self_iff.mpr h0.symm]
      exact update_eq_self_iff.mpr h1.symm
    rw [hw]
    refine ⟨h.core.grow, ?_, ⟨?_, ?_⟩, h.registered, ?_, h.lims⟩
    · intro C hC
      rcases h.covered C hC with h1 | ⟨l, hl, hm, h0⟩ | h1
      · exact .inl h1
      · exact .inr (.inl ⟨l, hl, hm, (hlevel l hm).trans h0⟩)
      · exact .inr (.inr h1)
    · intro l hl hr k a hk ha
      exact h.decided.source l hl ((ht.grow_reason hl).symm.trans hr) k a
        ((hlevel l hl).symm.trans hk) ha
    · intro k a hk ha
      obtain ⟨hm, hlev⟩ := h.decided.opened k a hk ha
      exact ⟨hm, (le_of_eq (hlevel a hm)).trans hlev⟩
    · intro r c hc hd w hw hm
      obtain ⟨b, hb, hbt, hle⟩ := h.guarded r c hc hd w hw hm
      refine ⟨b, hb, hbt, ?_⟩
      have hwl := hlevel w.neg (mem_of_mem_take hm)
      exact (le_of_eq (hlevel b hbt)).trans (hle.trans (le_of_eq hwl.symm))

lemma Ready.newVar {s s' : SatEngine R} {decision : Bool} {o : Option SatVar}
    (h : Ready F G as s) (he : s.newVar decision = (o, s')) : Ready F G as s' := by
  have hset := h.settled.newVar he
  unfold SatEngine.newVar at he
  split at he
  · simp only [Prod.mk.injEq] at he
    rw [← he.2]
    exact h
  · simp only [Prod.mk.injEq] at he
    rw [← he.2] at hset ⊢
    have hqueue : (if decision then s.order.insert (higher (Function.update s.activity s.numVars
        (FloatArith.ofNat 0))) s.numVars else s.order).Ok ∧ ∀ w, (if decision then
          s.order.insert (higher (Function.update s.activity s.numVars (FloatArith.ofNat 0)))
            s.numVars else s.order).contains w =
          (decision && w == s.numVars || s.order.contains w) := by
      cases decision with
      | false => exact ⟨h.ordered.ok, fun w => by simp⟩
      | true =>
        obtain ⟨hok, hc⟩ := ActivityQueue.insert_ok (higher (Function.update s.activity s.numVars
          (FloatArith.ofNat 0))) h.ordered.ok s.numVars
        exact ⟨hok, fun w => by simpa using hc w⟩
    refine ⟨hset, ⟨hqueue.1, ?_, ?_⟩, ?_⟩
    · intro v hv
      rw [hqueue.2] at hv
      simp only [Bool.or_eq_true, Bool.and_eq_true, beq_iff_eq] at hv
      rcases hv with ⟨-, rfl⟩ | hv
      · exact lt_succ_self _
      · exact (h.ordered.known v hv).trans (lt_succ_self _)
    · intro v hlt hd hv
      rw [hqueue.2]
      by_cases hvn : v = s.numVars
      · subst hvn
        simp only [update_self] at hd
        simp [hd]
      · simp only [update_of_ne hvn] at hd hv
        have hlt' : v < s.numVars := lt_of_le_of_ne (Nat.lt_succ_iff.mp hlt) hvn
        rw [h.ordered.queued v hlt' hd hv, Bool.or_true]
    · intro v
      by_cases hvn : v = s.numVars
      · subst hvn
        exact update_self ..
      · exact (update_of_ne hvn ..).trans (h.clean v)

end SatEngine

end NeverD.Sat
