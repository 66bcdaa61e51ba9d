import NeverD.Sat.Minimize

namespace NeverD.Sat
open Lib List Function TrailState

namespace SatEngine

variable {R : Type} {F G : List (List SatLit)} {as : List SatLit} {n : Nat}

structure Config (R : Type) where
  numVars : Nat
  decidable : SatVar → Bool
  opts : SatOptions R
  budgets : Budgets
  searchAttempted : Bool
  falsified : Bool
  outOfSpace : Bool
  model : List (Option Bool)
  failedAssumptions : List SatLit

def config (s : SatEngine R) : Config R :=
  ⟨s.numVars, s.decidable, s.opts, s.toBudgets, s.searchAttempted, s.falsified, s.outOfSpace,
    s.model, s.failedAssumptions⟩

/-- After the jump the learned clause is unit: its asserted literal is free and
the others are still false. -/
structure Jumped (t : TrailState) (l : Learned) : Prop where
  level : t.decisionLevel = l.backtrackLevel
  free : t.value l.assert.var = none
  others : ∀ q ∈ l.others, q.neg ∈ t.trail ∧ t.level q.var ≤ l.backtrackLevel
  head : ∀ b rest, l.others = b :: rest → t.level b.var = l.backtrackLevel

variable {s : SatEngine R}

lemma Ready.learn {c : Clause} (h : Ready F G as s) (hq : s.queueHead = s.trail.length)
    (hd : c.deleted = false)
    (hn : (c.lits.map Lit.var).Nodup) (hb : ∀ l ∈ c.lits, l.var < s.numVars)
    (he : Entails F c.lits) (hfree : s.value c.lit0.var = none)
    (hfalse : ∀ q ∈ c.lit1 :: c.rest, q.neg ∈ s.trail)
    (hlev : s.level c.lit1.var = s.decisionLevel) (ls : ClauseRef → Nat) (ca : ClauseRef → R)
    (ci : R) (ph : SatVar → Bool) (st : SatStats) :
    Ready F G as { s with
      toTrailState := s.assign c.lit0 (some s.arenaSize), toClauseDb := s.toClauseDb.store c
      levelSpan := ls, clauseActivity := ca, clauseInc := ci, phase := ph, stats := st } := by
  have hs := h.settled
  have hstore := hs.core.store hd hn hb he
  have hcore : Core F (s.assign c.lit0 (some s.arenaSize)) (s.toClauseDb.store c) := by
    apply hstore.assign hfree (hb _ mem_cons_self)
    · rintro r ⟨⟩
      exact ⟨c, ClauseDb.store_new _ c, hd, rfl, hfalse⟩
    · simp
  refine ⟨⟨hcore, (hs.covered.store hs.core.db c).assign hs.core.trail hfree _,
    hs.decided.assign hs.core.trail hfree _ (by simp),
    hs.registered.store hs.core.db hd hn, ?_, hs.lims⟩, ⟨h.ordered.ok, h.ordered.known, ?_⟩,
      h.clean⟩
  · apply (hs.guarded.assign hs.core.trail (le_of_eq hq) hfree _).store
    intro w hw hm
    rw [assign_trail, take_append_of_le_length (le_of_eq hq)] at hm
    have hoff := (hs.core.trail.value_none _).mp hfree
    have hmt : w.neg ∈ s.trail := mem_of_mem_take hm
    rcases hw with rfl | rfl
    · exact absurd rfl (hoff c.lit0.neg hmt)
    · refine ⟨c.lit0, mem_cons_self, mem_append_right _ (mem_singleton_self _), ?_⟩
      have h1 : (s.assign c.lit0 (some s.arenaSize)).level c.lit0.var = s.decisionLevel :=
        update_self ..
      have h2 : (s.assign c.lit0 (some s.arenaSize)).level c.lit1.var = s.level c.lit1.var :=
        update_of_ne (hoff c.lit1.neg hmt) ..
      rw [h1, h2, hlev]
  · intro v hlt hdec hv
    refine h.ordered.queued v hlt hdec ?_
    by_cases hvc : v = c.lit0.var
    · rw [hvc, hfree]
    · simpa only [assign, update_of_ne hvc] using hv

variable [FloatArith R]

lemma Derived.jumped {l : Learned} (h : Settled F G as n s) (ho : s.order.Ok)
    (hl : Derived F s.toTrailState l) : Jumped (s.cancelUntil l.backtrackLevel).toTrailState l := by
  obtain ⟨q, hq, -⟩ := cancelUntil_eq ho hl.back
  have hb : s.trailLim[l.backtrackLevel]? = some (s.trailLim.getD l.backtrackLevel 0) := by
    have := hl.back
    rw [decisionLevel] at this
    simp [List.getD, this]
  rw [hq]
  generalize s.trailLim.getD l.backtrackLevel 0 = b at hb
  have ht := h.core.trail
  have hcut := cut_ok ht hb
  refine ⟨?_, ?_, fun q hq => ?_, hl.head⟩
  · have := hl.back
    simp only [cut, decisionLevel, length_take] at this ⊢
    omega
  · rw [hcut.value_none]
    intro x hx hxv
    have hxl := level_le_of_mem_take ht hb hx
    have hlev := hl.level
    have hback := hl.back
    rw [hxv] at hxl
    omega
  · obtain ⟨h1, -, h3⟩ := hl.others q hq
    exact ⟨mem_take_of_level_le ht hb h1 h3, h3⟩

lemma cancelUntil_drained {level : Nat} (h : Settled F G as n s) (ho : s.order.Ok)
    (hl : level < s.decisionLevel) :
    (s.cancelUntil level).queueHead = (s.cancelUntil level).trail.length := by
  obtain ⟨q, hq, -⟩ := cancelUntil_eq ho hl
  have hb : s.trailLim[level]? = some (s.trailLim.getD level 0) := by
    rw [decisionLevel] at hl
    simp [List.getD, hl]
  have hlen := (h.core.trail.lim_bounds hb).1
  rw [hq]
  simp only [cut, length_take]
  omega

lemma cancelUntil_config (ho : s.order.Ok) (level : Nat) :
    (s.cancelUntil level).config = s.config := by
  obtain ⟨t, q, he, hv, -⟩ := cancelUntil_frame ho level
  rw [he]
  simp only [config, hv]

def Learned.clause (l : Learned) (b : SatLit) (rest : List SatLit) : Clause :=
  ⟨l.assert, b, rest, true, false⟩

lemma learnClause_spec {s' : SatEngine R} {l : Learned} (h : Settled F G as n s)
    (ho : Ordered s) (hs : ∀ v, s.seen v = false) (hl : Derived F s.toTrailState l)
    (he : s.learnClause l = some s') : Ready F G as s' ∧ s'.config = s.config := by
  have hready := cancelUntil_ready h ho hs hl.back
  have hjump := hl.jumped h ho.ok
  have hdrain := cancelUntil_drained h ho.ok hl.back
  have hconf := cancelUntil_config ho.ok l.backtrackLevel
  have hvars : (s.cancelUntil l.backtrackLevel).numVars = s.numVars :=
    congrArg Config.numVars hconf
  have hbound : ∀ q ∈ l.assert :: l.others, q.var < (s.cancelUntil l.backtrackLevel).numVars := by
    intro q hq
    rw [hvars]
    rcases mem_cons.mp hq with rfl | hq
    · exact h.core.trail.bound l.assert.neg hl.mem
    · exact h.core.trail.bound q.neg (hl.others q hq).1
  unfold learnClause at he
  rw [← hconf]
  generalize s.cancelUntil l.backtrackLevel = s₁ at *
  dsimp only at he
  split at he
  next hnil =>
    cases he
    have h0 : s₁.decisionLevel = 0 := hjump.level.trans (hl.unit hnil)
    have hent : Entails F [l.assert] := hnil ▸ hl.implied
    have hset := hready.settled
    refine ⟨⟨⟨?_, hset.covered.assign hset.core.trail hjump.free none,
      hset.decided.assign hset.core.trail hjump.free none (by intro _ k a hk; omega),
      hset.registered, hset.guarded.assign hset.core.trail hset.core.trail.head_le hjump.free none,
      hset.lims⟩, ?_, hready.clean⟩, rfl⟩
    · exact hset.core.assign hjump.free (hbound _ mem_cons_self) none (by simp) fun _ =>
        Or.inl ⟨h0, hent⟩
    · exact ordered_enqueue hready.ordered.ok hready.ordered.known
        fun v hlt hd hv _ => hready.ordered.queued v hlt hd hv
  next b rest hcons =>
    have hvs := hl.vars
    have himp := hl.implied
    rw [hcons] at hvs himp hbound
    split at he
    · cases he
    next ref s₂ halloc =>
      simp only [allocClause] at halloc
      split at halloc
      · cases halloc
      · simp only [Option.some.injEq, Prod.mk.injEq] at halloc he
        obtain ⟨rfl, rfl⟩ := halloc
        subst he
        refine ⟨hready.learn (c := l.clause b rest) hdrain rfl hvs hbound himp hjump.free ?_ ?_
          _ _ _ _ _, rfl⟩
        · intro q hq
          exact (hjump.others q (hcons ▸ hq)).1
        · exact (hjump.head b rest hcons).trans hjump.level.symm

end SatEngine

end NeverD.Sat
