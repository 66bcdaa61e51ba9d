import Mathlib.Algebra.Order.BigOperators.Group.List
import Mathlib.Algebra.Order.Ring.Nat
import NeverD.Ir.MedDceWalks

namespace NeverD.Ir
open List Nat DceState

variable {direct : Bool}

namespace DceContext

variable {ctx : DceContext} {f : MedFunc}

def blockAt (f : MedFunc) (bi : Nat) : MedBlock := f.blocks.getD bi {}

/-- The variables that write parameters before a point, back to the end of an earlier setup. -/
inductive SetsUp (ctx : DceContext) (block : MedBlock) (direct : Bool) : Nat → MedVar → Prop
  | write {j : Nat} {op : MedOp} : block.ops[j]? = some op → ctx.endsSetup op = false →
      ctx.isParamWrite direct op.output = true → SetsUp ctx block direct (j + 1) op.output
  | pass {j : Nat} {op : MedOp} {v : MedVar} : block.ops[j]? = some op → ctx.endsSetup op = false →
      SetsUp ctx block direct j v → SetsUp ctx block direct (j + 1) v

variable {block : MedBlock} {n : Nat}

lemma SetsUp.ofCall {v : MedVar} (h : SetsUp ctx block false n v) : SetsUp ctx block true n v := by
  induction h with
  | write hop hends hwrite =>
    apply SetsUp.write hop hends
    unfold isParamWrite at *
    simp at hwrite ⊢
    tauto
  | pass hop hends _ ih => exact .pass hop hends ih

lemma setsUp_end {j : Nat} {v : MedVar} (h : SetsUp ctx block direct (j + 1) v) :
    ∃ op, block.ops[j]? = some op ∧ ctx.endsSetup op = false := by
  cases h with
  | write hop hends | pass hop hends => exact ⟨_, hop, hends⟩

lemma setsUp_succ {j : Nat} {op : MedOp} (hop : block.ops[j]? = some op)
    (hends : ctx.endsSetup op = false) (v : MedVar) : SetsUp ctx block direct (j + 1) v ↔
      (ctx.isParamWrite direct op.output = true ∧ v = op.output) ∨ SetsUp ctx block direct j v := by
  constructor
  · intro h
    cases h with
    | write hget _ hwrite =>
      rw [hop] at hget
      cases hget
      exact .inl ⟨hwrite, rfl⟩
    | pass hget _ hrest => exact .inr hrest
  · rintro (⟨hwrite, rfl⟩ | h)
    · exact .write hop hends hwrite
    · exact .pass hop hends h

structure ParamsMarked (ctx : DceContext) (f : MedFunc) (st : DceState) : Prop where
  any : ∀ bi j, (bi, j) ∈ st.paramWritesWalked → ∀ v, SetsUp ctx (blockAt f bi) false (j + 1) v →
    v ∈ st.marked
  direct : ∀ bi j, (bi, j) ∈ st.directParamWritesWalked →
    ∀ v, SetsUp ctx (blockAt f bi) true (j + 1) v → v ∈ st.marked

structure ParamsSeeded (ctx : DceContext) (block : MedBlock) (bi : Nat) (direct : Bool) (n : Nat)
    (st st' : DceState) : Prop where
  marked : ∀ v, v ∈ st'.marked ↔ v ∈ st.marked ∨ SetsUp ctx block direct n v
  any : ∀ e ∈ st'.paramWritesWalked, e ∈ st.paramWritesWalked ∨
    (e.1 = bi ∧ e.2 < n ∧ ∀ v, SetsUp ctx block direct (e.2 + 1) v → v ∈ st'.marked)
  direct : ∀ e ∈ st'.directParamWritesWalked, e ∈ st.directParamWritesWalked ∨
    (direct = true ∧ e.1 = bi ∧ e.2 < n ∧ ∀ v, SetsUp ctx block direct (e.2 + 1) v → v ∈ st'.marked)
  ends : st'.reachedEnds = st.reachedEnds
  walks : st'.reachingWalks = st.reachingWalks

lemma ParamsSeeded.refl {bi : Nat} {st : DceState}
    (h : ∀ v, SetsUp ctx block direct n v → v ∈ st.marked) :
    ParamsSeeded ctx block bi direct n st st :=
  ⟨fun v => ⟨.inl, fun hv => hv.elim id (h v)⟩, fun _ he => .inl he, fun _ he => .inl he, rfl, rfl⟩

lemma seedParamWrites_seeded (ctx : DceContext) (share : Bool) (block : MedBlock) (bi : Nat)
    (direct : Bool) (n : Nat) (st : DceState)
    (hany : share = true → direct = false → ∀ j < n, (bi, j) ∈ st.paramWritesWalked →
      ∀ v, SetsUp ctx block false (j + 1) v → v ∈ st.marked)
    (hdirect : share = true → direct = true → ∀ j < n, (bi, j) ∈ st.directParamWritesWalked →
      ∀ v, SetsUp ctx block true (j + 1) v → v ∈ st.marked) :
    ParamsSeeded ctx block bi direct n st (ctx.seedParamWrites share block bi direct n st) := by
  induction n generalizing st with
  | zero =>
    apply ParamsSeeded.refl
    intro v h
    cases h
  | succ j ih =>
    unfold seedParamWrites
    cases hop : block.ops[j]? with
    | none =>
      apply ParamsSeeded.refl
      intro v h
      obtain ⟨op, hget, -⟩ := setsUp_end h
      rw [hop] at hget
      cases hget
    | some op =>
      dsimp only
      -- A walk stops where an earlier one has been: all before that point is marked.
      by_cases hstop : (share = true ∧
          (bi, j) ∈ (if direct then st.directParamWritesWalked else st.paramWritesWalked)) ∨
          ctx.endsSetup op = true
      · rw [if_pos hstop]
        apply ParamsSeeded.refl
        intro v h
        rcases hstop with ⟨hshare, hwalked⟩ | hends
        · cases direct with
          | false => exact hany hshare rfl j (lt_succ_self j) hwalked v h
          | true => exact hdirect hshare rfl j (lt_succ_self j) hwalked v h
        · obtain ⟨op', hget, hno⟩ := setsUp_end h
          rw [hop] at hget
          cases hget
          rw [hends] at hno
          cases hno
      · rw [if_neg hstop]
        rw [not_or] at hstop
        have hends : ctx.endsSetup op = false := by
          rw [← Bool.not_eq_true]
          exact hstop.2
        generalize hnext : (if ctx.isParamWrite direct op.output then
          markLive { st with
            paramWritesWalked := (bi, j) :: st.paramWritesWalked
            directParamWritesWalked := if direct then (bi, j) :: st.directParamWritesWalked
              else st.directParamWritesWalked } op.output
          else { st with
            paramWritesWalked := (bi, j) :: st.paramWritesWalked
            directParamWritesWalked := if direct then (bi, j) :: st.directParamWritesWalked
              else st.directParamWritesWalked }) = next
        have hmarked : ∀ v, v ∈ next.marked ↔ v ∈ st.marked ∨
            (ctx.isParamWrite direct op.output = true ∧ v = op.output) := by
          intro v
          rw [← hnext]
          by_cases hwrite : ctx.isParamWrite direct op.output = true
          · simp [hwrite, markLive, or_comm]
          · simp [hwrite]
        have hparams : next.paramWritesWalked = (bi, j) :: st.paramWritesWalked := by
          rw [← hnext]
          split <;> rfl
        have hdirects : next.directParamWritesWalked =
            if direct then (bi, j) :: st.directParamWritesWalked
            else st.directParamWritesWalked := by
          rw [← hnext]
          split <;> rfl
        have hreached : next.reachedEnds = st.reachedEnds ∧
            next.reachingWalks = st.reachingWalks := by
          rw [← hnext]
          split <;> exact ⟨rfl, rfl⟩
        have hmono : ∀ v ∈ st.marked, v ∈ next.marked := fun v hv => (hmarked v).mpr (.inl hv)
        have hrest := ih next (by
            intro hshare hfalse i hi hmem v hv
            rw [hparams] at hmem
            rcases mem_cons.mp hmem with heq | hmem
            · cases heq
              exact absurd hi (lt_irrefl _)
            · exact hmono v (hany hshare hfalse i (lt_succ_of_lt hi) hmem v hv))
          (by
            intro hshare htrue i hi hmem v hv
            rw [hdirects, if_pos htrue] at hmem
            rcases mem_cons.mp hmem with heq | hmem
            · cases heq
              exact absurd hi (lt_irrefl _)
            · exact hmono v (hdirect hshare htrue i (lt_succ_of_lt hi) hmem v hv))
        have hall : ∀ v, v ∈ (ctx.seedParamWrites share block bi direct j next).marked ↔
            v ∈ st.marked ∨ SetsUp ctx block direct (j + 1) v := by
          intro v
          rw [hrest.marked, hmarked, setsUp_succ hop hends, or_assoc]
        refine ⟨hall, ?_, ?_, hrest.ends.trans hreached.1, hrest.walks.trans hreached.2⟩
        · intro e he
          rcases hrest.any e he with he | ⟨hbi, hlt, hset⟩
          · rw [hparams] at he
            rcases mem_cons.mp he with rfl | he
            · exact .inr ⟨rfl, lt_succ_self j, fun v hv => (hall v).mpr (.inr hv)⟩
            · exact .inl he
          · exact .inr ⟨hbi, lt_succ_of_lt hlt, hset⟩
        · intro e he
          rcases hrest.direct e he with he | ⟨htrue, hbi, hlt, hset⟩
          · rw [hdirects] at he
            split at he
            next htrue =>
              rcases mem_cons.mp he with rfl | he
              · exact .inr ⟨htrue, rfl, lt_succ_self j, fun v hv => (hall v).mpr (.inr hv)⟩
              · exact .inl he
            · exact .inl he
          · exact .inr ⟨htrue, hbi, lt_succ_of_lt hlt, hset⟩

/-- The variables that write a register and reach a point. -/
inductive Reaches (ctx : DceContext) (f : MedFunc) (key : Nat × Bool) : Nat → Nat → MedVar → Prop
  | write {bi j : Nat} {op : MedOp} : (blockAt f bi).ops[j]? = some op →
      op.output.writesReg key.1 = true → Reaches ctx f key bi (j + 1) op.output
  | pass {bi j : Nat} {op : MedOp} {v : MedVar} : (blockAt f bi).ops[j]? = some op →
      op.output.writesReg key.1 = false → (key.2 && ctx.endsSetup op) = false →
      Reaches ctx f key bi j v →
      Reaches ctx f key bi (j + 1) v
  | join {bi : Nat} {v : MedVar} : v ∈ matchingPhis key.1 (blockAt f bi) → Reaches ctx f key bi 0 v
  | pred {bi : Nat} {e : Nat × Nat} {v : MedVar} : matchingPhis key.1 (blockAt f bi) = [] →
      e ∈ predecessorEnds f (blockAt f bi) → Reaches ctx f key e.1 e.2 v → Reaches ctx f key bi 0 v

/-- A point from which what is found is marked, and the ends of blocks that remain are accounted
for. -/
def Explored (ctx : DceContext) (f : MedFunc) (key : Nat × Bool) (marked : List MedVar)
    (ends : Nat → Prop) (bi : Nat) : Nat → Prop
  | 0 => (∀ v ∈ matchingPhis key.1 (blockAt f bi), v ∈ marked) ∧
      (matchingPhis key.1 (blockAt f bi) = [] → ∀ e ∈ predecessorEnds f (blockAt f bi), ends e.1)
  | j + 1 => ∀ op, (blockAt f bi).ops[j]? = some op →
      (op.output.writesReg key.1 = true → op.output ∈ marked) ∧
      (op.output.writesReg key.1 = false → (key.2 && ctx.endsSetup op) = false →
        Explored ctx f key marked ends bi j)

variable {key : Nat × Bool} {marked marked' : List MedVar} {ends ends' : Nat → Prop} {bi : Nat}

lemma Explored.mono (hmarked : ∀ v ∈ marked, v ∈ marked') (hends : ∀ pi, ends pi → ends' pi)
    (h : Explored ctx f key marked ends bi n) : Explored ctx f key marked' ends' bi n := by
  induction n with
  | zero => exact ⟨fun v hv => hmarked v (h.1 v hv), fun hnil e he => hends _ (h.2 hnil e he)⟩
  | succ j ih =>
    exact fun op hop => ⟨fun hw => hmarked _ ((h op hop).1 hw),
      fun hw hs => ih ((h op hop).2 hw hs)⟩

lemma explored_succ {j : Nat} {op : MedOp} (hop : (blockAt f bi).ops[j]? = some op)
    (hwrite : op.output.writesReg key.1 = true → op.output ∈ marked)
    (hpass : op.output.writesReg key.1 = false → (key.2 && ctx.endsSetup op) = false →
      Explored ctx f key marked ends bi j) : Explored ctx f key marked ends bi (j + 1) := by
  intro op' hget
  rw [hop] at hget
  cases hget
  exact ⟨hwrite, hpass⟩

structure Scanned (ctx : DceContext) (f : MedFunc) (key : Nat × Bool) (bi n : Nat)
    (st st' : DceState) : Prop where
  mono : ∀ v ∈ st.marked, v ∈ st'.marked
  sound : ∀ v ∈ st'.marked, v ∈ st.marked ∨ Reaches ctx f key bi n v
  walks : ∀ t ∈ st.reachingWalks, t ∈ st'.reachingWalks
  fresh : ∀ t ∈ st'.reachingWalks, t ∈ st.reachingWalks ∨ (t.1 = key ∧ t.2.1 = bi ∧ t.2.2 < n)
  ends : st'.reachedEnds = st.reachedEnds
  params : st'.paramWritesWalked = st.paramWritesWalked ∧
    st'.directParamWritesWalked = st.directParamWritesWalked

lemma Scanned.refl (st : DceState) : Scanned ctx f key bi n st st :=
  ⟨fun _ h => h, fun _ h => .inl h, fun _ h => h, fun _ h => .inl h, rfl, rfl, rfl⟩

lemma scanWrites_scanned (ctx : DceContext) (f : MedFunc) (key : Nat × Bool) (bi : Nat)
    (share : Bool) (n : Nat)
    (st : DceState) :
      Scanned ctx f key bi n st (ctx.scanWrites share key (blockAt f bi) bi n st).2 ∧
      ((ctx.scanWrites share key (blockAt f bi) bi n st).1 = false → ∀ v, Reaches ctx f key bi 0 v →
        Reaches ctx f key bi n v) := by
  induction n generalizing st with
  | zero => exact ⟨.refl st, fun _ v hv => hv⟩
  | succ j ih =>
    unfold scanWrites
    cases hop : (blockAt f bi).ops[j]? with
    | none => exact ⟨.refl st, fun h => by cases h⟩
    | some op =>
      dsimp only
      by_cases hwalked : share = true ∧ (key, bi, j) ∈ st.reachingWalks
      · rw [if_pos hwalked]
        exact ⟨.refl st, fun h => by cases h⟩
      rw [if_neg hwalked]
      generalize hst₁ : (if share = true then
        { st with reachingWalks := (key, bi, j) :: st.reachingWalks } else st) = st₁
      have hmarked : st₁.marked = st.marked := by
        rw [← hst₁]
        split <;> rfl
      have hends : st₁.reachedEnds = st.reachedEnds := by
        rw [← hst₁]
        split <;> rfl
      have hparams : st₁.paramWritesWalked = st.paramWritesWalked ∧
          st₁.directParamWritesWalked = st.directParamWritesWalked := by
        rw [← hst₁]
        split <;> exact ⟨rfl, rfl⟩
      have hwalks : ∀ t ∈ st.reachingWalks, t ∈ st₁.reachingWalks := by
        rw [← hst₁]
        split
        · exact fun t ht => mem_cons_of_mem _ ht
        · exact fun t ht => ht
      have hfresh : ∀ t ∈ st₁.reachingWalks, t ∈ st.reachingWalks ∨
          (t.1 = key ∧ t.2.1 = bi ∧ t.2.2 < j + 1) := by
        rw [← hst₁]
        split
        · intro t ht
          rcases mem_cons.mp ht with rfl | ht
          · exact .inr ⟨rfl, rfl, lt_succ_self j⟩
          · exact .inl ht
        · exact fun t ht => .inl ht
      clear hst₁
      by_cases hwrite : op.output.writesReg key.1 = true
      · -- The write is marked, and the scan ends in any case.
        have hend : Scanned ctx f key bi (j + 1) st (st₁.markLive op.output) := by
          refine ⟨?_, ?_, hwalks, hfresh, hends, hparams⟩
          · intro v hv
            exact mem_cons_of_mem _ (hmarked ▸ hv)
          · intro v hv
            rcases mem_cons.mp hv with rfl | hv
            · exact .inr (.write hop hwrite)
            · exact .inl (hmarked ▸ hv)
        rw [if_pos hwrite, if_pos hwrite]
        split
        · exact ⟨hend, fun h => by cases h⟩
        · exact ⟨hend, fun h => by cases h⟩
      · rw [if_neg hwrite, if_neg hwrite]
        by_cases hstop : key.2 = true ∧ ctx.endsSetup op = true
        · rw [if_pos hstop]
          refine ⟨⟨?_, ?_, hwalks, hfresh, hends, hparams⟩, fun h => by cases h⟩
          · exact fun v hv => hmarked ▸ hv
          · exact fun v hv => .inl (hmarked ▸ hv)
        · rw [if_neg hstop]
          have hpass : ∀ v, Reaches ctx f key bi j v → Reaches ctx f key bi (j + 1) v := by
            intro v hv
            apply Reaches.pass hop (by rw [← Bool.not_eq_true]; exact hwrite) _ hv
            rw [← Bool.not_eq_true, Bool.and_eq_true]
            exact hstop
          obtain ⟨hscan, hzero⟩ := ih st₁
          refine ⟨⟨?_, ?_, ?_, ?_, hscan.ends.trans hends, hscan.params.1.trans hparams.1,
            hscan.params.2.trans hparams.2⟩, fun hno v hv => hpass v (hzero hno v hv)⟩
          · exact fun v hv => hscan.mono v (hmarked ▸ hv)
          · intro v hv
            rcases hscan.sound v hv with hv | hv
            · exact .inl (hmarked ▸ hv)
            · exact .inr (hpass v hv)
          · exact fun t ht => hscan.walks t (hwalks t ht)
          · intro t ht
            rcases hscan.fresh t ht with ht | ⟨hkey, hbi, hlt⟩
            · exact hfresh t ht
            · exact .inr ⟨hkey, hbi, lt_succ_of_lt hlt⟩

theorem scanWrites_explored (share : Bool) (n : Nat) (st : DceState)
    (hmarked : ∀ v ∈ (ctx.scanWrites share key (blockAt f bi) bi n st).2.marked, v ∈ marked)
    (hwalks : share = true → ∀ j < n, (key, bi, j) ∈ st.reachingWalks →
    Explored ctx f key marked ends bi (j + 1))
    (hzero : (ctx.scanWrites share key (blockAt f bi) bi n st).1 = false →
    Explored ctx f key marked ends bi 0) :
    Explored ctx f key marked ends bi n ∧ (share = true → ∀ j < n,
      (key, bi, j) ∈ (ctx.scanWrites share key (blockAt f bi) bi n st).2.reachingWalks →
        Explored ctx f key marked ends bi (j + 1)) := by
  induction n generalizing st with
  | zero => exact ⟨hzero rfl, fun _ j hj => absurd hj (Nat.not_lt_zero j)⟩
  | succ j ih =>
    unfold scanWrites at hmarked hzero ⊢
    cases hop : (blockAt f bi).ops[j]? with
    | none =>
      rw [hop] at hmarked hzero
      dsimp only at hmarked hzero ⊢
      refine ⟨?_, hwalks⟩
      intro op hget
      rw [hop] at hget
      cases hget
    | some op =>
      rw [hop] at hmarked hzero
      dsimp only at hmarked hzero ⊢
      by_cases hwalked : share = true ∧ (key, bi, j) ∈ st.reachingWalks
      · rw [if_pos hwalked]
        exact ⟨hwalks hwalked.1 j (lt_succ_self j) hwalked.2, hwalks⟩
      rw [if_neg hwalked] at hmarked hzero ⊢
      generalize hst₁ : (if share = true then
        { st with reachingWalks := (key, bi, j) :: st.reachingWalks } else st) = st₁
        at hmarked hzero ⊢
      have hold : share = true → ∀ j' < j, (key, bi, j') ∈ st₁.reachingWalks →
          Explored ctx f key marked ends bi (j' + 1) := by
        intro hshare j' hlt ht
        rw [← hst₁, if_pos hshare] at ht
        rcases mem_cons.mp ht with heq | ht
        · cases heq
          exact absurd hlt (lt_irrefl _)
        · exact hwalks hshare j' (lt_succ_of_lt hlt) ht
      clear hst₁ hwalks hwalked
      -- In each case this point is explored, and the points below it are by the induction.
      have hall : ∀ st₂ : DceState, Explored ctx f key marked ends bi (j + 1) →
          (share = true → ∀ j' < j, (key, bi, j') ∈ st₂.reachingWalks →
            Explored ctx f key marked ends bi (j' + 1)) →
          Explored ctx f key marked ends bi (j + 1) ∧ (share = true → ∀ j' < j + 1,
            (key, bi, j') ∈ st₂.reachingWalks → Explored ctx f key marked ends bi (j' + 1)) := by
        intro st₂ hhere hless
        refine ⟨hhere, ?_⟩
        intro hshare j' hlt ht
        rcases Nat.lt_succ_iff_lt_or_eq.mp hlt with hlt | rfl
        · exact hless hshare j' hlt ht
        · exact hhere
      by_cases hwrite : op.output.writesReg key.1 = true
      · rw [if_pos hwrite, if_pos hwrite] at hmarked ⊢
        have hhere : op.output ∈ marked → Explored ctx f key marked ends bi (j + 1) := by
          intro hmem
          apply explored_succ hop fun _ => hmem
          intro hno
          rw [hwrite] at hno
          cases hno
        by_cases hstop : key.2 = true ∧ ctx.endsSetup op = true
        · rw [if_pos hstop] at hmarked ⊢
          exact hall _ (hhere (hmarked _ mem_cons_self)) hold
        · rw [if_neg hstop] at hmarked ⊢
          exact hall _ (hhere (hmarked _ mem_cons_self)) hold
      · rw [if_neg hwrite, if_neg hwrite] at hmarked ⊢
        rw [if_neg hwrite, if_neg hwrite] at hzero
        by_cases hstop : key.2 = true ∧ ctx.endsSetup op = true
        · rw [if_pos hstop] at hmarked ⊢
          refine hall _ (explored_succ hop (fun hyes => absurd hyes hwrite) fun _ hno => ?_) hold
          rw [hstop.1, hstop.2] at hno
          cases hno
        · rw [if_neg hstop] at hmarked hzero ⊢
          obtain ⟨hrest, hless⟩ := ih st₁ hmarked hold hzero
          exact hall _ (explored_succ hop (fun hyes => absurd hyes hwrite) fun _ _ => hrest) hless

lemma predecessorEnds_mem {e : Nat × Nat} (h : e ∈ predecessorEnds f block) :
    e.1 < f.blocks.length ∧ e.2 = (blockAt f e.1).ops.length := by
  unfold predecessorEnds at h
  rw [mem_reverse] at h
  obtain ⟨pred, -, hpred⟩ := mem_filterMap.mp h
  cases hindex : f.blockIndex pred with
  | none =>
    rw [hindex] at hpred
    cases hpred
  | some pi =>
    rw [hindex] at hpred
    cases hpred
    exact ⟨(findIdx?_eq_some_iff_getElem.mp hindex).1, rfl⟩

lemma length_predecessorEnds (f : MedFunc) (block : MedBlock) :
    (predecessorEnds f block).length ≤ block.preds.length := by
  unfold predecessorEnds
  rw [length_reverse]
  exact length_filterMap_le _ _

def Passed (f : MedFunc) (share : Bool) (key : Nat × Bool) (visited : List (Int × Nat))
    (st : DceState) (bi n : Nat) : Prop :=
  if share then n = (blockAt f bi).ops.length ∧ (key, bi) ∈ st.reachedEnds
    else ((blockAt f bi).id, n) ∈ visited

def Known (f : MedFunc) (share : Bool) (key : Nat × Bool) (work : List (Nat × Nat))
    (visited : List (Int × Nat)) (st : DceState) (pi : Nat) : Prop :=
  Passed f share key visited st pi (blockAt f pi).ops.length ∨
    (pi, (blockAt f pi).ops.length) ∈ work

structure Searching (ctx : DceContext) (f : MedFunc) (share : Bool) (key : Nat × Bool)
    (work : List (Nat × Nat)) (visited : List (Int × Nat)) (st : DceState) : Prop where
  valid : ∀ e ∈ work, e.1 < f.blocks.length
  passed : ∀ bi n, bi < f.blocks.length → Passed f share key visited st bi n →
    Explored ctx f key st.marked (Known f share key work visited st) bi n
  walked : share = true → ∀ bi j, (key, bi, j) ∈ st.reachingWalks →
    Explored ctx f key st.marked (Known f share key work visited st) bi (j + 1)

variable {visited : List (Int × Nat)}

lemma Searching.complete {share : Bool} {st : DceState}
    (h : Searching ctx f share key [] visited st) {v : MedVar} (hreach : Reaches ctx f key bi n v)
    (hexplored : Explored ctx f key st.marked (Known f share key [] visited st) bi n) :
    v ∈ st.marked := by
  induction hreach with
  | write hop hwrite => exact (hexplored _ hop).1 hwrite
  | pass hop hwrite hstop _ ih => exact ih ((hexplored _ hop).2 hwrite hstop)
  | join hv => exact hexplored.1 _ hv
  | @pred bi e v hnil he _ ih =>
    obtain ⟨hvalid, hend⟩ := predecessorEnds_mem he
    have hpassed := (hexplored.2 hnil e he).resolve_right not_mem_nil
    rw [← hend] at hpassed
    exact ih (h.passed e.1 e.2 hvalid hpassed)

def entered (f : MedFunc) (share : Bool) (key : Nat × Bool) (bi n : Nat) (st : DceState) :
    DceState :=
  if share ∧ n = (blockAt f bi).ops.length then
    { st with reachedEnds := (key, bi) :: st.reachedEnds } else st

def visitedNow (f : MedFunc) (share : Bool) (bi n : Nat) (visited : List (Int × Nat)) :
    List (Int × Nat) :=
  if share then visited else ((blockAt f bi).id, n) :: visited

lemma reachingLoop_passed {share : Bool} {fuel bi : Nat} {work : List (Nat × Nat)}
    {st : DceState} (h : Passed f share key visited st bi n) :
    ctx.reachingLoop share f key (fuel + 1) ((bi, n) :: work) visited st =
      ctx.reachingLoop share f key fuel work visited st := by
  rw [reachingLoop]
  exact if_pos h

lemma reachingLoop_expand {share : Bool} {fuel bi : Nat} {work : List (Nat × Nat)}
    {st : DceState} (h : ¬ Passed f share key visited st bi n) :
    ctx.reachingLoop share f key (fuel + 1) ((bi, n) :: work) visited st =
      if (ctx.scanWrites share key (blockAt f bi) bi n (entered f share key bi n st)).1 then
        ctx.reachingLoop share f key fuel work (visitedNow f share bi n visited)
          (ctx.scanWrites share key (blockAt f bi) bi n (entered f share key bi n st)).2
      else if matchingPhis key.1 (blockAt f bi) ≠ [] then
        ctx.reachingLoop share f key fuel work (visitedNow f share bi n visited)
          ((matchingPhis key.1 (blockAt f bi)).foldl markLive
            (ctx.scanWrites share key (blockAt f bi) bi n (entered f share key bi n st)).2)
      else
        ctx.reachingLoop share f key fuel (predecessorEnds f (blockAt f bi) ++ work)
          (visitedNow f share bi n visited)
          (ctx.scanWrites share key (blockAt f bi) bi n (entered f share key bi n st)).2 := by
  rw [reachingLoop]
  exact if_neg h

lemma sum_map_add_le {α : Type*} {l : List α} {g g' : α → Nat} {x : α} {c : Nat}
    (hle : ∀ y ∈ l, g' y ≤ g y) (hx : x ∈ l)
    (hc : g' x + c ≤ g x) : (l.map g').sum + c ≤ (l.map g).sum := by
  induction l with
  | nil => cases hx
  | cons y l ih =>
    rw [forall_mem_cons] at hle
    rw [map_cons, map_cons, sum_cons, sum_cons]
    have hrest : (l.map g').sum ≤ (l.map g).sum := sum_le_sum hle.2
    rcases mem_cons.mp hx with rfl | hx
    · omega
    · have := ih hle.2 hx
      omega

open Classical in
/-- The predecessors that blocks may still add to the worklist. -/
noncomputable def remaining (f : MedFunc) (share : Bool) (key : Nat × Bool)
    (visited : List (Int × Nat)) (st : DceState) : Nat :=
  ((List.range f.blocks.length).map fun bi =>
    if Passed f share key visited st bi (blockAt f bi).ops.length then 0
      else (blockAt f bi).preds.length).sum

/-- A point in the middle of a block adds its predecessors as well. -/
def weight (f : MedFunc) (work : List (Nat × Nat)) : Nat :=
  (work.map fun e => 1 + if e.2 = (blockAt f e.1).ops.length then 0
    else (blockAt f e.1).preds.length).sum

section

variable {share : Bool} {visited visited' : List (Int × Nat)} {st st' : DceState}

lemma remaining_le (h : ∀ pi, Passed f share key visited st pi (blockAt f pi).ops.length →
    Passed f share key visited' st' pi (blockAt f pi).ops.length) :
    remaining f share key visited' st' ≤ remaining f share key visited st := by
  apply sum_le_sum
  intro pi _
  split
  · exact Nat.zero_le _
  next hno => rw [if_neg fun hyes => hno (h pi hyes)]

lemma remaining_expand (h : ∀ pi, Passed f share key visited st pi (blockAt f pi).ops.length →
    Passed f share key visited' st' pi (blockAt f pi).ops.length) {bi : Nat}
    (hbi : bi < f.blocks.length)
    (hold : ¬ Passed f share key visited st bi (blockAt f bi).ops.length)
    (hnew : Passed f share key visited' st' bi (blockAt f bi).ops.length) :
    remaining f share key visited' st' + (blockAt f bi).preds.length ≤
      remaining f share key visited st := by
  apply sum_map_add_le (x := bi) _ (mem_range.mpr hbi)
  · rw [if_pos hnew, if_neg hold, zero_add]
  · intro pi _
    split
    · exact Nat.zero_le _
    next hno => rw [if_neg fun hyes => hno (h pi hyes)]

end

lemma weight_ends {es : List (Nat × Nat)} (h : ∀ e ∈ es, e.2 = (blockAt f e.1).ops.length)
    (work : List (Nat × Nat)) : weight f (es ++ work) = es.length + weight f work := by
  induction es with
  | nil => simp
  | cons e rest ih =>
    rw [forall_mem_cons] at h
    have := ih h.2
    unfold weight at this ⊢
    rw [cons_append, map_cons, sum_cons, this, if_pos h.1, length_cons]
    omega

structure Framed (key : Nat × Bool) (st st' : DceState) : Prop where
  marked : ∀ v ∈ st.marked, v ∈ st'.marked
  walks : ∀ t ∈ st.reachingWalks, t ∈ st'.reachingWalks
  freshWalks : ∀ t ∈ st'.reachingWalks, t ∈ st.reachingWalks ∨ t.1 = key
  ends : ∀ t ∈ st.reachedEnds, t ∈ st'.reachedEnds
  freshEnds : ∀ t ∈ st'.reachedEnds, t ∈ st.reachedEnds ∨ t.1 = key
  params : st'.paramWritesWalked = st.paramWritesWalked ∧
    st'.directParamWritesWalked = st.directParamWritesWalked

lemma Framed.refl (st : DceState) : Framed key st st :=
  ⟨fun _ h => h, fun _ h => h, fun _ h => .inl h, fun _ h => h, fun _ h => .inl h, rfl, rfl⟩

lemma Framed.trans {st st' st'' : DceState} (h : Framed key st st') (h' : Framed key st' st'') :
    Framed key st st'' := by
  refine ⟨fun v hv => h'.marked v (h.marked v hv), fun t ht => h'.walks t (h.walks t ht), ?_,
    fun t ht => h'.ends t (h.ends t ht), ?_, h'.params.1.trans h.params.1,
    h'.params.2.trans h.params.2⟩
  · intro t ht
    rcases h'.freshWalks t ht with ht | ht
    · exact h.freshWalks t ht
    · exact .inr ht
  · intro t ht
    rcases h'.freshEnds t ht with ht | ht
    · exact h.freshEnds t ht
    · exact .inr ht

lemma framed_scanned {share : Bool} {n : Nat} {st st' : DceState}
    (h : Scanned ctx f key bi n (entered f share key bi n st) st') : Framed key st st' := by
  have hentered : Framed key st (entered f share key bi n st) := by
    unfold entered
    split
    · refine ⟨fun _ h => h, fun _ h => h, fun _ h => .inl h, fun t ht => mem_cons_of_mem _ ht, ?_,
        rfl, rfl⟩
      intro t ht
      rcases mem_cons.mp ht with rfl | ht
      · exact .inr rfl
      · exact .inl ht
    · exact .refl st
  apply hentered.trans
  refine ⟨h.mono, h.walks, ?_,
    fun t ht => by rw [h.ends]; exact ht, fun t ht => .inl (by rw [← h.ends]; exact ht), h.params⟩
  intro t ht
  rcases h.fresh t ht with ht | ht
  · exact .inl ht
  · exact .inr ht.1

lemma entered_marked {share : Bool} {n : Nat} {st : DceState} :
    (entered f share key bi n st).marked = st.marked ∧
    (entered f share key bi n st).reachingWalks = st.reachingWalks := by
  unfold entered
  split <;> exact ⟨rfl, rfl⟩

section

variable {share : Bool} {n : Nat} {work work' : List (Nat × Nat)} {visited : List (Int × Nat)}
    {st st' : DceState}

/-- Blocks of different positions have different names, where the names matter. -/
def Apart (f : MedFunc) (share : Bool) : Prop :=
  share = false → ∀ bi < f.blocks.length, ∀ bi' < f.blocks.length,
    (blockAt f bi).id = (blockAt f bi').id → bi = bi'

structure PassedNow (f : MedFunc) (share : Bool) (key : Nat × Bool) (bi n : Nat)
    (visited visited' : List (Int × Nat)) (st st' : DceState) : Prop where
  old : ∀ bi' n', Passed f share key visited st bi' n' → Passed f share key visited' st' bi' n'
  new : n = (blockAt f bi).ops.length → Passed f share key visited' st' bi n
  only : ∀ bi' n', bi' < f.blocks.length → Passed f share key visited' st' bi' n' →
    Passed f share key visited st bi' n' ∨ (bi' = bi ∧ n' = n)

lemma passedNow (visited : List (Int × Nat)) (hapart : Apart f share) (hbi : bi < f.blocks.length)
    (hends : st'.reachedEnds = (entered f share key bi n st).reachedEnds) :
    PassedNow f share key bi n visited (visitedNow f share bi n visited) st st' := by
  unfold entered at hends
  cases share with
  | false =>
    refine ⟨fun bi' n' h => mem_cons_of_mem _ h, fun _ => mem_cons_self, ?_⟩
    intro bi' n' hbi' h
    rcases mem_cons.mp h with heq | h
    · rw [Prod.mk.injEq] at heq
      exact .inr ⟨hapart rfl bi' hbi' bi hbi heq.1, heq.2⟩
    · exact .inl h
  | true =>
    by_cases hend : n = (blockAt f bi).ops.length
    · rw [if_pos ⟨rfl, hend⟩] at hends
      refine ⟨?_, ?_, ?_⟩
      · rintro bi' n' ⟨hn, hmem⟩
        exact ⟨hn, by rw [hends]; exact mem_cons_of_mem _ hmem⟩
      · intro _
        exact ⟨hend, by rw [hends]; exact mem_cons_self⟩
      · rintro bi' n' hbi' ⟨hn, hmem⟩
        rw [hends] at hmem
        rcases mem_cons.mp hmem with heq | hmem
        · rw [Prod.mk.injEq] at heq
          exact .inr ⟨heq.2, by rw [hn, heq.2, hend]⟩
        · exact .inl ⟨hn, hmem⟩
    · rw [if_neg fun h => hend h.2] at hends
      refine ⟨?_, fun h => absurd h hend, ?_⟩
      · rintro bi' n' ⟨hn, hmem⟩
        exact ⟨hn, by rw [hends]; exact hmem⟩
      · rintro bi' n' _ ⟨hn, hmem⟩
        exact .inl ⟨hn, by rw [hends] at hmem; exact hmem⟩

lemma Searching.expand (h : Searching ctx f share key ((bi, n) :: work) visited st)
    (hapart : Apart f share)
    (work' : List (Nat × Nat)) (hwork : ∀ e ∈ work, e ∈ work')
    (hvalid : ∀ e ∈ work', e.1 < f.blocks.length)
    (hmarked : ∀ v ∈ (ctx.scanWrites share key (blockAt f bi) bi n
    (entered f share key bi n st)).2.marked, v ∈ st'.marked)
    (hends : st'.reachedEnds = (entered f share key bi n st).reachedEnds)
      (hwalks : st'.reachingWalks =
      (ctx.scanWrites share key (blockAt f bi) bi n (entered f share key bi n st)).2.reachingWalks)
    (hzero : (ctx.scanWrites share key (blockAt f bi) bi n (entered f share key bi n st)).1 =
      false →
      Explored ctx f key st'.marked (Known f share key work' (visitedNow f share bi n visited) st')
      bi 0) :
    Searching ctx f share key work' (visitedNow f share bi n visited) st' ∧
      (∀ bi' n', Explored ctx f key st.marked (Known f share key ((bi, n) :: work) visited st)
        bi' n' →
        Explored ctx f key st'.marked (Known f share key work' (visitedNow f share bi n visited)
        st') bi' n') ∧
      Explored ctx f key st'.marked (Known f share key work' (visitedNow f share bi n visited) st')
        bi n := by
  have hbi : bi < f.blocks.length := h.valid (bi, n) mem_cons_self
  have hpassed := passedNow visited hapart hbi hends
  obtain ⟨hscan, -⟩ := scanWrites_scanned ctx f key bi share n (entered f share key bi n st)
  have hmono : ∀ v ∈ st.marked, v ∈ st'.marked := by
    intro v hv
    exact hmarked v (hscan.mono v (by rw [entered_marked.1]; exact hv))
  have hknown : ∀ pi, Known f share key ((bi, n) :: work) visited st pi →
      Known f share key work' (visitedNow f share bi n visited) st' pi := by
    rintro pi (hold | hmem)
    · exact .inl (hpassed.old pi _ hold)
    · rcases mem_cons.mp hmem with heq | hmem
      · rw [Prod.mk.injEq] at heq
        obtain ⟨rfl, rfl⟩ := heq
        exact .inl (hpassed.new rfl)
      · exact .inr (hwork _ hmem)
  have hkept : ∀ bi' n', Explored ctx f key st.marked
      (Known f share key ((bi, n) :: work) visited st) bi' n' →
      Explored ctx f key st'.marked (Known f share key work' (visitedNow f share bi n visited) st')
        bi' n' :=
    fun bi' n' => .mono hmono hknown
  obtain ⟨hhere, hwalked⟩ := scanWrites_explored share n (entered f share key bi n st) hmarked
    (fun hshare j _ ht => hkept _ _
      (h.walked hshare bi j (by rw [entered_marked.2] at ht; exact ht))) hzero
  refine ⟨⟨hvalid, ?_, ?_⟩, hkept, hhere⟩
  · intro bi' n' hbi' hp
    rcases hpassed.only bi' n' hbi' hp with hp | ⟨rfl, rfl⟩
    · exact hkept bi' n' (h.passed bi' n' hbi' hp)
    · exact hhere
  · intro hshare bi' j ht
    rw [hwalks] at ht
    rcases hscan.fresh _ ht with hold | ⟨-, hbi', hlt⟩
    · rw [entered_marked.2] at hold
      exact hkept _ _ (h.walked hshare bi' j hold)
    · change bi' = bi at hbi'
      rw [hbi'] at ht ⊢
      exact hwalked hshare j hlt ht

end

structure Searched (ctx : DceContext) (f : MedFunc) (share : Bool) (key : Nat × Bool)
    (work : List (Nat × Nat))
    (visited : List (Int × Nat)) (st st' : DceState) (visited' : List (Int × Nat)) : Prop where
  searching : Searching ctx f share key [] visited' st'
  kept : ∀ bi n, Explored ctx f key st.marked (Known f share key work visited st) bi n →
    Explored ctx f key st'.marked (Known f share key [] visited' st') bi n
  explored : ∀ e ∈ work, Explored ctx f key st'.marked (Known f share key [] visited' st') e.1 e.2
  sound : ∀ v ∈ st'.marked, v ∈ st.marked ∨ ∃ e ∈ work, Reaches ctx f key e.1 e.2 v
  framed : Framed key st st'

section

variable {share : Bool} {bi n : Nat} {work work' : List (Nat × Nat)}
  {visited visited₁ visited' : List (Int × Nat)} {st st₁ st' : DceState}

lemma Searched.expand
    (hkept : ∀ bi' n', Explored ctx f key st.marked (Known f share key ((bi, n) :: work) visited st)
      bi' n' → Explored ctx f key st₁.marked (Known f share key work' visited₁ st₁) bi' n')
    (hhere : Explored ctx f key st₁.marked (Known f share key work' visited₁ st₁) bi n)
    (hwork : ∀ e ∈ work, e ∈ work') (hsound : ∀ v ∈ st₁.marked, v ∈ st.marked ∨
    Reaches ctx f key bi n v)
    (hback : ∀ e ∈ work', e ∈ work ∨ ∀ v, Reaches ctx f key e.1 e.2 v → Reaches ctx f key bi n v)
    (hframed : Framed key st st₁) (h : Searched ctx f share key work' visited₁ st₁ st' visited') :
    Searched ctx f share key ((bi, n) :: work) visited st st' visited' := by
  refine ⟨h.searching, fun bi' n' hold => h.kept bi' n' (hkept bi' n' hold), ?_, ?_,
    hframed.trans h.framed⟩
  · intro e he
    rcases mem_cons.mp he with rfl | he
    · exact h.kept bi n hhere
    · exact h.explored e (hwork e he)
  · intro v hv
    rcases h.sound v hv with hv | ⟨e, he, hreach⟩
    · rcases hsound v hv with hv | hreach
      · exact .inl hv
      · exact .inr ⟨(bi, n), mem_cons_self, hreach⟩
    · rcases hback e he with he | hback
      · exact .inr ⟨e, mem_cons_of_mem _ he, hreach⟩
      · exact .inr ⟨(bi, n), mem_cons_self, hback v hreach⟩

lemma Searching.skip (h : Searching ctx f share key ((bi, n) :: work) visited st)
    (hpassed : Passed f share key visited st bi n) : Searching ctx f share key work visited st ∧
      ∀ bi' n', Explored ctx f key st.marked (Known f share key ((bi, n) :: work) visited st)
        bi' n' → Explored ctx f key st.marked (Known f share key work visited st) bi' n' := by
  have hknown : ∀ pi, Known f share key ((bi, n) :: work) visited st pi →
      Known f share key work visited st pi := by
    rintro pi (hold | hmem)
    · exact .inl hold
    · rcases mem_cons.mp hmem with heq | hmem
      · rw [Prod.mk.injEq] at heq
        obtain ⟨rfl, rfl⟩ := heq
        exact .inl hpassed
      · exact .inr hmem
  have hmono : ∀ bi' n', Explored ctx f key st.marked
      (Known f share key ((bi, n) :: work) visited st) bi' n' →
      Explored ctx f key st.marked (Known f share key work visited st) bi' n' :=
    fun _ _ => .mono (fun _ hv => hv) hknown
  refine ⟨⟨fun e he => h.valid e (mem_cons_of_mem _ he), ?_, ?_⟩, hmono⟩
  · exact fun bi' n' hb hp => hmono _ _ (h.passed bi' n' hb hp)
  · exact fun hshare bi' j ht => hmono _ _ (h.walked hshare bi' j ht)

theorem remaining_now (hapart : Apart f share) (hbi : bi < f.blocks.length)
    (hpassed : ¬ Passed f share key visited st bi n)
    (hends : st₁.reachedEnds = (entered f share key bi n st).reachedEnds) :
    remaining f share key (visitedNow f share bi n visited) st₁ +
      (if n = (blockAt f bi).ops.length then (blockAt f bi).preds.length else 0) ≤
        remaining f share key visited st := by
  have hnow := passedNow visited hapart hbi hends
  split
  next hend =>
    apply remaining_expand (fun pi => hnow.old pi _) hbi
    · rw [← hend]
      exact hpassed
    · have hnew := hnow.new hend
      rw [hend] at hnew
      rw [hend]
      exact hnew
  · exact remaining_le fun pi => hnow.old pi _

lemma foldl_markLive (vs : List MedVar) (st : DceState) :
    vs.foldl markLive st = { st with marked := vs.reverse ++ st.marked } := by
  induction vs generalizing st with
  | nil => rfl
  | cons v vs ih =>
    rw [foldl_cons, ih, reverse_cons, append_assoc]
    rfl

lemma foldl_markLive_frame (vs : List MedVar) (st : DceState) :
    (∀ v, v ∈ (vs.foldl markLive st).marked ↔ v ∈ st.marked ∨ v ∈ vs) ∧
      (vs.foldl markLive st).reachedEnds = st.reachedEnds ∧
      (vs.foldl markLive st).reachingWalks = st.reachingWalks ∧
      (vs.foldl markLive st).paramWritesWalked = st.paramWritesWalked ∧
      (vs.foldl markLive st).directParamWritesWalked = st.directParamWritesWalked := by
  rw [foldl_markLive]
  refine ⟨fun v => ?_, rfl, rfl, rfl, rfl⟩
  rw [mem_append, mem_reverse, or_comm]

theorem reachingLoop_searched (hapart : Apart f share) {fuel : Nat}
    (h : Searching ctx f share key work visited st)
    (hfuel : weight f work + remaining f share key visited st ≤ fuel) :
    ∃ visited', Searched ctx f share key work visited st
      (ctx.reachingLoop share f key fuel work visited st) visited' := by
  have hdone : ∀ {visited st}, Searching ctx f share key [] visited st →
      Searched ctx f share key [] visited st st visited := fun h =>
    ⟨h, fun _ _ hold => hold, forall_mem_nil _, fun _ hv => .inl hv, .refl _⟩
  induction fuel generalizing work visited st with
  | zero =>
    cases work with
    | nil => exact ⟨visited, hdone h⟩
    | cons e work =>
      unfold weight at hfuel
      rw [map_cons, sum_cons] at hfuel
      omega
  | succ fuel ih =>
    cases work with
    | nil => exact ⟨visited, hdone h⟩
    | cons e work =>
      obtain ⟨bi, n⟩ := e
      have hbi : bi < f.blocks.length := h.valid (bi, n) mem_cons_self
      have hweight : weight f ((bi, n) :: work) =
          1 + (if n = (blockAt f bi).ops.length then 0 else (blockAt f bi).preds.length) +
          weight f work := rfl
      rw [hweight] at hfuel
      by_cases hpassed : Passed f share key visited st bi n
      · rw [reachingLoop_passed hpassed]
        obtain ⟨hnext, hkept⟩ := h.skip hpassed
        obtain ⟨visited', hrest⟩ := ih hnext (by omega)
        exact ⟨visited', hrest.expand hkept (hkept _ _ (h.passed bi n hbi hpassed)) (fun e he => he)
          (fun v hv => .inl hv) (fun e he => .inl he) (.refl st)⟩
      · rw [reachingLoop_expand hpassed]
        obtain ⟨hscan, hreach⟩ :=
          scanWrites_scanned ctx f key bi share n (entered f share key bi n st)
        have hframed : Framed key st
            (ctx.scanWrites share key (blockAt f bi) bi n (entered f share key bi n st)).2 :=
          framed_scanned hscan
        have hsound :
            ∀ v ∈ (ctx.scanWrites share key (blockAt f bi) bi n
              (entered f share key bi n st)).2.marked,
            v ∈ st.marked ∨ Reaches ctx f key bi n v := by
          intro v hv
          have := hscan.sound v hv
          rw [entered_marked.1] at this
          exact this
        by_cases hfound :
          (ctx.scanWrites share key (blockAt f bi) bi n (entered f share key bi n st)).1 = true
        · -- A write or a setup that ends stops the search on this path.
          rw [if_pos hfound]
          obtain ⟨hnext, hkept, hhere⟩ := h.expand hapart work (fun e he => he)
            (fun e he => h.valid e (mem_cons_of_mem _ he)) (fun v hv => hv) hscan.ends rfl
            (fun hno => by rw [hfound] at hno; cases hno)
          have := remaining_now hapart hbi hpassed hscan.ends
          obtain ⟨visited', hrest⟩ := ih hnext (by omega)
          exact ⟨visited', hrest.expand hkept hhere (fun e he => he) hsound (fun e he => .inl he)
            hframed⟩
        · rw [if_neg hfound]
          rw [Bool.not_eq_true] at hfound
          by_cases hphis : matchingPhis key.1 (blockAt f bi) ≠ []
          · -- The joins of the block are the definitions, and no predecessor is searched.
            rw [if_pos hphis]
            obtain ⟨hmarked, hends, hwalks, hparams⟩ :=
              foldl_markLive_frame (matchingPhis key.1 (blockAt f bi))
              (ctx.scanWrites share key (blockAt f bi) bi n (entered f share key bi n st)).2
            obtain ⟨hnext, hkept, hhere⟩ := h.expand hapart work (fun e he => he)
              (fun e he => h.valid e (mem_cons_of_mem _ he)) (fun v hv => (hmarked v).mpr (.inl hv))
              (hends.trans hscan.ends) hwalks
              (fun _ => ⟨fun v hv => (hmarked v).mpr (.inr hv), fun hnil => absurd hnil hphis⟩)
            have := remaining_now hapart hbi hpassed (hends.trans hscan.ends)
            obtain ⟨visited', hrest⟩ := ih hnext (by omega)
            refine ⟨visited', hrest.expand hkept hhere (fun e he => he) ?_ (fun e he => .inl he) ?_⟩
            · intro v hv
              rcases (hmarked v).mp hv with hv | hv
              · exact hsound v hv
              · exact .inr (hreach hfound v (.join hv))
            · refine hframed.trans ⟨fun v hv => (hmarked v).mpr (.inl hv), fun t ht => hwalks ▸ ht,
                fun t ht => .inl (hwalks ▸ ht), fun t ht => hends ▸ ht,
                fun t ht => .inl (hends ▸ ht), hparams⟩
          · rw [if_neg hphis]
            rw [not_not] at hphis
            obtain ⟨hnext, hkept, hhere⟩ :=
              h.expand hapart (predecessorEnds f (blockAt f bi) ++ work)
              (fun e he => mem_append_right _ he)
              (fun e he => (mem_append.mp he).elim (fun he => (predecessorEnds_mem he).1)
                fun he => h.valid e (mem_cons_of_mem _ he)) (fun v hv => hv) hscan.ends rfl
              (fun _ => ⟨(fun v hv => by rw [hphis] at hv; cases hv),
                fun _ e he => .inr (mem_append_left _ (by
                rw [← (predecessorEnds_mem he).2]
                exact he))⟩)
            have := remaining_now hapart hbi hpassed hscan.ends
            have hatEnds : ∀ e ∈ predecessorEnds f (blockAt f bi),
                e.2 = (blockAt f e.1).ops.length :=
              fun e he => (predecessorEnds_mem he).2
            have hends := weight_ends hatEnds work
            have hlength := length_predecessorEnds f (blockAt f bi)
            obtain ⟨visited', hrest⟩ := ih hnext (by
              rw [hends]
              split at hfuel
              next hend =>
                rw [if_pos hend] at this
                omega
              next hend =>
                rw [if_neg hend] at this
                omega)
            refine ⟨visited', hrest.expand hkept hhere (fun e he => mem_append_right _ he)
              hsound ?_ hframed⟩
            intro e he
            rcases mem_append.mp he with he | he
            · exact .inr fun v hv => hreach hfound v (.pred hphis he hv)
            · exact .inl he

end

lemma sum_preds (f : MedFunc) :
    ((List.range f.blocks.length).map fun bi => (blockAt f bi).preds.length).sum =
    (f.blocks.map (·.preds.length)).sum := by
  congr 1
  apply ext_getElem
  · rw [length_map, length_range, length_map]
  · intro i h _
    rw [length_map, length_range] at h
    rw [getElem_map, getElem_range, getElem_map]
    unfold blockAt
    rw [getD_eq_getElem?_getD, getElem?_eq_getElem h]
    rfl

lemma fuel_enough (f : MedFunc) (share : Bool) (key : Nat × Bool) {bi : Nat}
    (hbi : bi < f.blocks.length) (n : Nat)
    (st : DceState) : weight f [(bi, n)] + remaining f share key [] st ≤ reachingFuel f := by
  have hremaining : remaining f share key [] st ≤ (f.blocks.map (·.preds.length)).sum := by
    rw [← sum_preds]
    apply sum_le_sum
    intro pi _
    split
    · exact Nat.zero_le _
    · exact le_rfl
  have hpreds : (blockAt f bi).preds.length ≤ (f.blocks.map (·.preds.length)).sum := by
    rw [← sum_preds]
    have h : ((List.range f.blocks.length).map fun _ => 0).sum + (blockAt f bi).preds.length ≤
        ((List.range f.blocks.length).map fun bi => (blockAt f bi).preds.length).sum :=
      sum_map_add_le (fun _ _ => Nat.zero_le _) (mem_range.mpr hbi) (le_of_eq (zero_add _))
    omega
  unfold weight reachingFuel
  rw [map_singleton, sum_singleton]
  dsimp only
  split
  · omega
  · omega

/-- What the shared walks have passed is explored, for each register and kind of walk. -/
structure Shares (ctx : DceContext) (f : MedFunc) (st : DceState) : Prop where
  searching : ∀ key, Searching ctx f true key [] [] st
  params : ParamsMarked ctx f st

lemma seedReachingDef_marked (ctx : DceContext) (share : Bool) (hapart : Apart f share) {bi : Nat}
    (hbi : bi < f.blocks.length) (before reg : Nat) (argument : Bool) (st : DceState)
    (hstart : share = true → Searching ctx f true (reg, argument) [] [] st) :
    (∀ v, v ∈ (ctx.seedReachingDef share f bi before reg argument st).marked ↔
      v ∈ st.marked ∨ Reaches ctx f (reg, argument) bi before v) ∧
      Framed (reg, argument) st (ctx.seedReachingDef share f bi before reg argument st) ∧
      (share = true → Searching ctx f true (reg, argument) [] []
        (ctx.seedReachingDef share f bi before reg argument st)) := by
  have hsearching : Searching ctx f share (reg, argument) [(bi, before)] [] st := by
    refine ⟨fun e he => by rw [mem_singleton.mp he]; exact hbi, ?_, ?_⟩
    · intro bi' n' hbi' hp
      cases share with
      | false => cases hp
      | true =>
        have hold := (hstart rfl).passed bi' n' hbi' hp
        exact hold.mono (fun _ hv => hv) fun pi hpi => hpi.imp id fun hno => absurd hno not_mem_nil
    · intro hshare bi' j ht
      subst hshare
      have hold := (hstart rfl).walked rfl bi' j ht
      exact hold.mono (fun _ hv => hv) fun pi hpi => hpi.imp id fun hno => absurd hno not_mem_nil
  obtain ⟨visited', h⟩ :=
    reachingLoop_searched hapart hsearching (fuel_enough f share (reg, argument) hbi before st)
  change Searched ctx f share (reg, argument) [(bi, before)] [] st
    (ctx.seedReachingDef share f bi before reg argument st) visited' at h
  refine ⟨?_, h.framed, ?_⟩
  · intro v
    constructor
    · intro hv
      rcases h.sound v hv with hv | ⟨e, he, hreach⟩
      · exact .inl hv
      · rw [mem_singleton.mp he] at hreach
        exact .inr hreach
    · rintro (hv | hreach)
      · exact h.framed.marked v hv
      · exact h.searching.complete hreach (h.explored (bi, before) mem_cons_self)
  · intro hshare
    subst hshare
    exact ⟨h.searching.valid, h.searching.passed, h.searching.walked⟩

structure Same (ctx : DceContext) (f : MedFunc) (st st' : DceState) : Prop where
  marked : ∀ v, v ∈ st.marked ↔ v ∈ st'.marked
  shares : Shares ctx f st

variable {st st' : DceState}

lemma Searching.frame {key key' : Nat × Bool} (h : Searching ctx f true key' [] [] st)
    (hframed : Framed key st st') (hne : key' ≠ key) : Searching ctx f true key' [] [] st' := by
  have hmono : ∀ bi n, Explored ctx f key' st.marked (Known f true key' [] [] st) bi n →
      Explored ctx f key' st'.marked (Known f true key' [] [] st') bi n := by
    intro bi n hold
    exact hold.mono hframed.marked fun pi hpi => hpi.imp (fun hp => ⟨hp.1, hframed.ends _ hp.2⟩) id
  refine ⟨forall_mem_nil _, ?_, ?_⟩
  · rintro bi n hbi ⟨hn, hmem⟩
    exact hmono bi n (h.passed bi n hbi ⟨hn, (hframed.freshEnds _ hmem).resolve_right hne⟩)
  · intro _ bi j ht
    exact hmono bi (j + 1) (h.walked rfl bi j ((hframed.freshWalks _ ht).resolve_right hne))

lemma ParamsMarked.frame {key : Nat × Bool} (h : ParamsMarked ctx f st)
    (hframed : Framed key st st') : ParamsMarked ctx f st' := by
  refine ⟨?_, ?_⟩
  · intro bi j hmem v hv
    rw [hframed.params.1] at hmem
    exact hframed.marked v (h.any bi j hmem v hv)
  · intro bi j hmem v hv
    rw [hframed.params.2] at hmem
    exact hframed.marked v (h.direct bi j hmem v hv)

lemma Shares.mark (h : Shares ctx f st) (hmarked : ∀ v ∈ st.marked, v ∈ st'.marked)
    (hends : st'.reachedEnds = st.reachedEnds) (hwalks : st'.reachingWalks = st.reachingWalks)
    (hparams : ParamsMarked ctx f st') : Shares ctx f st' := by
  refine ⟨?_, hparams⟩
  intro key
  have hmono : ∀ bi n, Explored ctx f key st.marked (Known f true key [] [] st) bi n →
      Explored ctx f key st'.marked (Known f true key [] [] st') bi n := by
    intro bi n hold
    exact hold.mono hmarked fun pi hpi => hpi.imp (fun hp => ⟨hp.1, by rw [hends]; exact hp.2⟩) id
  refine ⟨forall_mem_nil _, ?_, ?_⟩
  · rintro bi n hbi ⟨hn, hmem⟩
    rw [hends] at hmem
    exact hmono bi n ((h.searching key).passed bi n hbi ⟨hn, hmem⟩)
  · intro _ bi j ht
    rw [hwalks] at ht
    exact hmono bi (j + 1) ((h.searching key).walked rfl bi j ht)

lemma Same.mark (h : Same ctx f st st') (vs : List MedVar) :
    Same ctx f { st with marked := vs ++ st.marked } { st' with marked := vs ++ st'.marked } := by
  refine ⟨?_, h.shares.mark (fun v hv => mem_append_right _ hv) rfl rfl ⟨?_, ?_⟩⟩
  · intro v
    rw [mem_append, mem_append, h.marked]
  · exact fun bi j hmem v hv => mem_append_right _ (h.shares.params.any bi j hmem v hv)
  · exact fun bi j hmem v hv => mem_append_right _ (h.shares.params.direct bi j hmem v hv)

/-- Walks afresh read nothing of the state, and mark what they find. -/
lemma scanWrites_fresh (ctx : DceContext) (key : Nat × Bool) (block : MedBlock) (bi n : Nat) :
    ∃ (ended : Bool) (vs : List MedVar), ∀ st,
      ctx.scanWrites false key block bi n st = (ended, { st with marked := vs ++ st.marked }) := by
  induction n with
  | zero => exact ⟨false, [], fun _ => rfl⟩
  | succ j ih =>
    cases hop : block.ops[j]? with
    | none =>
      refine ⟨true, [], fun st => ?_⟩
      rw [scanWrites, hop]
      rfl
    | some op =>
      by_cases hwrites : op.output.writesReg key.1 = true
      · refine ⟨true, [op.output], fun st => ?_⟩
        rw [scanWrites, hop]
        simp [hwrites, DceState.markLive]
      · by_cases hends : key.2 = true ∧ ctx.endsSetup op = true
        · refine ⟨true, [], fun st => ?_⟩
          rw [scanWrites, hop]
          simp [hwrites, hends.1, hends.2]
        · obtain ⟨ended, vs, ih⟩ := ih
          refine ⟨ended, vs, fun st => ?_⟩
          rw [scanWrites, hop, ← ih st]
          simp [hwrites, hends]

lemma seedReachingDef_fresh (ctx : DceContext) (f : MedFunc) (bi before reg : Nat)
    (argument : Bool) : ∃ vs : List MedVar, ∀ st,
      ctx.seedReachingDef false f bi before reg argument st =
        { st with marked := vs ++ st.marked } := by
  unfold DceContext.seedReachingDef
  generalize reachingFuel f = fuel, [(bi, before)] = work, ([] : List (Int × Nat)) = visited
  induction fuel generalizing work visited with
  | zero => exact ⟨[], fun _ => rfl⟩
  | succ fuel ih =>
    cases work with
    | nil => exact ⟨[], fun _ => rfl⟩
    | cons e work =>
      obtain ⟨bi, before⟩ := e
      by_cases hpassed : ((blockAt f bi).id, before) ∈ visited
      · obtain ⟨us, ih⟩ := ih work visited
        have hpassed : ∀ st, Passed f false (reg, argument) visited st bi before := fun _ => hpassed
        exact ⟨us, fun st => (reachingLoop_passed (hpassed st)).trans (ih st)⟩
      · obtain ⟨ended, vs, hscan⟩ := scanWrites_fresh ctx (reg, argument) (blockAt f bi) bi before
        obtain ⟨us, hended⟩ := ih work (((blockAt f bi).id, before) :: visited)
        obtain ⟨ws, hpreds⟩ :=
          ih (predecessorEnds f (blockAt f bi) ++ work) (((blockAt f bi).id, before) :: visited)
        have hpassed : ∀ st, ¬ Passed f false (reg, argument) visited st bi before :=
          fun _ => hpassed
        have hentered : ∀ st, entered f false (reg, argument) bi before st = st := fun _ => rfl
        have hvisited : visitedNow f false bi before visited = ((blockAt f bi).id, before) ::
            visited := rfl
        by_cases hphis : ended = false ∧ matchingPhis reg (blockAt f bi) = []
        · refine ⟨ws ++ vs, fun st => ?_⟩
          rw [reachingLoop_expand (hpassed st), hentered, hscan, hvisited,
            if_neg (by simp [hphis.1]), if_neg (not_not_intro hphis.2), hpreds, append_assoc]
        · cases ended with
          | true =>
            refine ⟨us ++ vs, fun st => ?_⟩
            rw [reachingLoop_expand (hpassed st), hentered, hscan, hvisited, if_pos rfl, hended,
              append_assoc]
          | false =>
            refine ⟨us ++ ((matchingPhis reg (blockAt f bi)).reverse ++ vs), fun st => ?_⟩
            rw [reachingLoop_expand (hpassed st), hentered, hscan, hvisited, if_neg (by simp),
              if_pos fun hnil => hphis ⟨rfl, hnil⟩, foldl_markLive, hended, append_assoc,
              append_assoc]

lemma Same.seedReachingDef {share : Bool} (hapart : share = true → Apart f false)
    (h : Same ctx f st st') {bi : Nat}
    (hbi : bi < f.blocks.length) (before reg : Nat) (argument : Bool) :
    Same ctx f (ctx.seedReachingDef share f bi before reg argument st)
      (ctx.seedReachingDef false f bi before reg argument st') := by
  cases share with
  | false =>
    obtain ⟨vs, hmarks⟩ := seedReachingDef_fresh ctx f bi before reg argument
    rw [hmarks st, hmarks st']
    exact h.mark vs
  | true =>
    have hshared : Apart f true := fun hno => by cases hno
    obtain ⟨hmarked, hframed, hsearching⟩ :=
      seedReachingDef_marked ctx true hshared hbi before reg argument st
      fun _ => h.shares.searching (reg, argument)
    obtain ⟨hmarked', -, -⟩ :=
      seedReachingDef_marked ctx false (hapart rfl) hbi before reg argument st'
      fun hno => by cases hno
    refine ⟨fun v => by rw [hmarked, hmarked', h.marked], ?_, h.shares.params.frame hframed⟩
    intro key
    by_cases hkey : key = (reg, argument)
    · rw [hkey]
      exact hsearching rfl
    · exact (h.shares.searching key).frame hframed hkey

lemma Same.seedParamWrites (h : Same ctx f st st') (bi : Nat) (direct : Bool) (n : Nat) :
    Same ctx f (ctx.seedParamWrites true (blockAt f bi) bi direct n st)
      (ctx.seedParamWrites false (blockAt f bi) bi direct n st') := by
  have hseeded := seedParamWrites_seeded ctx true (blockAt f bi) bi direct n st
    (fun _ _ j _ hmem => h.shares.params.any bi j hmem)
    (fun _ _ j _ hmem => h.shares.params.direct bi j hmem)
  have hseeded' := seedParamWrites_seeded ctx false (blockAt f bi) bi direct n st'
    (fun hno => by cases hno) (fun hno => by cases hno)
  have hmono : ∀ v ∈ st.marked,
      v ∈ (ctx.seedParamWrites true (blockAt f bi) bi direct n st).marked :=
    fun v hv => (hseeded.marked v).mpr (.inl hv)
  refine ⟨fun v => by
    rw [hseeded.marked, hseeded'.marked, h.marked],
      h.shares.mark hmono hseeded.ends hseeded.walks ?_⟩
  constructor
  · intro bi' j hmem v hv
    rcases hseeded.any _ hmem with hold | ⟨hbi, -, hset⟩
    · exact hmono v (h.shares.params.any bi' j hold v hv)
    · change bi' = bi at hbi
      rw [hbi] at hv
      apply hset v
      cases direct with
      | false => exact hv
      | true => exact hv.ofCall
  · intro bi' j hmem v hv
    rcases hseeded.direct _ hmem with hold | ⟨htrue, hbi, -, hset⟩
    · exact hmono v (h.shares.params.direct bi' j hold v hv)
    · change bi' = bi at hbi
      rw [hbi] at hv
      apply hset v
      rw [htrue]
      exact hv

lemma Same.foldl {α : Type*} {l : List α} {g g' : DceState → α → DceState}
    (hstep : ∀ x ∈ l, ∀ st st', Same ctx f st st' → Same ctx f (g st x) (g' st' x))
    (h : Same ctx f st st') : Same ctx f (l.foldl g st) (l.foldl g' st') := by
  induction l generalizing st st' with
  | nil => exact h
  | cons x l ih =>
    rw [forall_mem_cons] at hstep
    exact ih hstep.2 (hstep.1 st st' h)

lemma Same.knownRegisters (h : Same ctx f st st') :
    f.knownRegisters st.marked = f.knownRegisters st'.marked := by
  unfold MedFunc.knownRegisters
  refine Perm.eq_of_pairwise' (pairwise_insertionSort (· ≤ ·) _) (pairwise_insertionSort (· ≤ ·) _)
    ?_
  refine (perm_insertionSort ..).trans (Perm.trans ?_ (perm_insertionSort ..).symm)
  refine (perm_ext_iff_of_nodup (nodup_dedup _) (nodup_dedup _)).mpr fun reg => ?_
  simp only [mem_dedup, mem_append, mem_map, mem_filter, h.marked]

lemma Same.seedImplicitInputs {share : Bool} (hapart : share = true → Apart f false)
    (h : Same ctx f st st') {bi : Nat} (hbi : bi < f.blocks.length)
    (block : MedBlock) (i : Nat) (op : MedOp) :
    Same ctx f (ctx.seedImplicitInputs share f block bi i op st)
      (ctx.seedImplicitInputs false f block bi i op st') := by
  have hstack := h.seedReachingDef hapart hbi i ctx.registers.stackPointer false
  have hresult : Same ctx f
      (if ctx.registers.indirectResultReg ≠ 0 ∧
        (op.opcode = .call ∨ op.opcode = .indirCall ∨ isTail block op) then
        ctx.seedReachingDef share f bi i ctx.registers.indirectResultReg false
          (ctx.seedReachingDef share f bi i ctx.registers.stackPointer false st)
        else ctx.seedReachingDef share f bi i ctx.registers.stackPointer false st)
      (if ctx.registers.indirectResultReg ≠ 0 ∧
        (op.opcode = .call ∨ op.opcode = .indirCall ∨ isTail block op) then
        ctx.seedReachingDef false f bi i ctx.registers.indirectResultReg false
          (ctx.seedReachingDef false f bi i ctx.registers.stackPointer false st')
        else ctx.seedReachingDef false f bi i ctx.registers.stackPointer false st') := by
    split
    · exact hstack.seedReachingDef hapart hbi i ctx.registers.indirectResultReg false
    · exact hstack
  unfold DceContext.seedImplicitInputs
  dsimp only
  split
  · cases ctx.entryReads op with
    | none => exact hresult
    | some reads =>
      apply hresult.foldl
      intro reg _ s s' hs
      split
      · exact hs.seedReachingDef hapart hbi i reg false
      · exact hs
  · exact hresult

lemma Same.seedArguments {share : Bool} (hapart : share = true → Apart f false)
    (h : Same ctx f st st') {bi : Nat} (hbi : bi < f.blocks.length) (i : Nat) (direct : Bool) :
    Same ctx f (ctx.seedArguments share f bi i direct st)
      (ctx.seedArguments false f bi i direct st') := by
  unfold DceContext.seedArguments argumentRegisters
  rw [h.knownRegisters]
  apply h.foldl
  exact fun reg _ s s' hs => hs.seedReachingDef hapart hbi i reg true

lemma Same.seedPredecessors (h : Same ctx f st st') (block : MedBlock) (direct : Bool) :
    Same ctx f (ctx.seedPredecessors true f block direct st)
      (ctx.seedPredecessors false f block direct st') := by
  apply h.foldl
  intro pred _ s s' hs
  cases f.blockIndex pred with
  | none => exact hs
  | some pi => exact hs.seedParamWrites pi direct _

variable {share : Bool} (hapart : share = true → Apart f false)
include hapart

lemma Same.seedCall (h : Same ctx f st st') {bi : Nat} (hbi : bi < f.blocks.length) (i : Nat)
    (op : MedOp) (hasCall : Bool) :
      Same ctx f (ctx.seedCall share true f (blockAt f bi) bi i op hasCall st)
      (ctx.seedCall false false f (blockAt f bi) bi i op hasCall st') := by
  have hsetup := (h.seedImplicitInputs hapart hbi (blockAt f bi) i op).seedParamWrites bi
    (ctx.isDirectCall op) i
  unfold DceContext.seedCall
  dsimp only
  by_cases htransfers : op.opcode = .call ∨ op.opcode = .indirCall ∨ isTail (blockAt f bi) op
  · rw [if_pos htransfers, if_pos htransfers]
    have harguments := hsetup.seedArguments hapart hbi i (ctx.isDirectCall op)
    split
    · exact harguments
    · exact harguments.seedPredecessors _ _
  · rw [if_neg htransfers, if_neg htransfers]
    split
    · exact hsetup
    · exact hsetup.seedPredecessors _ _

lemma Same.seedCalls (h : Same ctx f st st') {bi : Nat} (hbi : bi < f.blocks.length)
    (ops : List (MedOp × Nat)) (hasCall : Bool) :
      Same ctx f (ctx.seedCalls share true f (blockAt f bi) bi ops hasCall st)
      (ctx.seedCalls false false f (blockAt f bi) bi ops hasCall st') := by
  induction ops generalizing st st' hasCall with
  | nil => exact h
  | cons e rest ih =>
    obtain ⟨op, i⟩ := e
    unfold DceContext.seedCalls
    split
    · exact ih (h.seedCall hapart hbi i op hasCall) _
    · exact ih h _

lemma Same.seedReturns (h : Same ctx f st st') {bi : Nat} (hbi : bi < f.blocks.length)
    (slots : List Nat) (ops : List (MedOp × Nat)) :
    Same ctx f (ctx.seedReturns share f slots bi ops st)
      (ctx.seedReturns false f slots bi ops st') := by
  induction ops generalizing st st' with
  | nil => exact h
  | cons e rest ih =>
    obtain ⟨op, i⟩ := e
    unfold DceContext.seedReturns
    split
    · apply ih
      apply (h.seedReachingDef hapart hbi i ctx.registers.stackPointer false).foldl
      exact fun slot _ s s' hs => hs.seedReachingDef hapart hbi i slot false
    · exact ih h

omit hapart

lemma apart_of_unique (h : f.hasUniqueBlockIds = true) : Apart f false := by
  intro _ bi hbi bi' hbi' hid
  have hnodup : (f.blocks.map (·.id)).Nodup := of_decide_eq_true h
  have hat : ∀ i, i < f.blocks.length → (f.blocks.map (·.id))[i]? = some (blockAt f i).id := by
    intro i hi
    unfold blockAt
    rw [getElem?_map, getD_eq_getElem?_getD, getElem?_eq_getElem hi]
    rfl
  have hlength : bi < (f.blocks.map (·.id)).length := by
    rw [length_map]
    exact hbi
  apply (getElem?_inj hlength hnodup).mp
  rw [hat bi hbi, hat bi' hbi', hid]

lemma zipIdx_blockAt {e : MedBlock × Nat} (he : e ∈ f.blocks.zipIdx) :
    e.2 < f.blocks.length ∧ e.1 = blockAt f e.2 := by
  have hget := mem_zipIdx_iff_getElem?.mp he
  obtain ⟨hlt, hval⟩ := List.getElem?_eq_some_iff.mp hget
  refine ⟨hlt, ?_⟩
  unfold blockAt
  rw [getD_eq_getElem?_getD, hget]
  rfl

lemma Same.seedAllCalls {share : Bool} (hapart : share = true → Apart f false)
    (h : Same ctx f st st') :
    Same ctx f (ctx.seedAllCalls share true f st) (ctx.seedAllCalls false false f st') := by
  apply h.foldl
  intro e he s s' hs
  obtain ⟨hlt, hblock⟩ := zipIdx_blockAt he
  rw [hblock]
  exact hs.seedCalls hapart hlt _ false

lemma Same.seedAllReturns {share : Bool} (hapart : share = true → Apart f false)
    (h : Same ctx f st st') (slots : List Nat) :
    Same ctx f (ctx.seedAllReturns share f slots st) (ctx.seedAllReturns false f slots st') := by
  apply h.foldl
  intro e he s s' hs
  exact hs.seedReturns hapart (zipIdx_blockAt he).1 slots _

lemma Same.x87ReturnSlots (h : Same ctx f st st') :
    ctx.x87ReturnSlots f st = ctx.x87ReturnSlots f st' := by
  unfold DceContext.x87ReturnSlots
  rw [h.knownRegisters]

lemma Same.start (ctx : DceContext) (f : MedFunc) (marked : List MedVar) :
    Same ctx f { marked := marked } { marked := marked } := by
  refine ⟨fun _ => .rfl, fun key => ⟨forall_mem_nil _, ?_, ?_⟩, ⟨?_, ?_⟩⟩
  · rintro bi n _ ⟨-, hmem⟩
    cases hmem
  · intro _ bi j hmem
    cases hmem
  · intro bi j hmem
    cases hmem
  · intro bi j hmem
    cases hmem

/-- With unique names of blocks, the shared walks mark what the others mark. -/
theorem seeds_same (ctx : DceContext) {share : Bool} (hapart : share = true → Apart f false) :
    Same ctx f (ctx.seeds share true f) (ctx.seeds false false f) := by
  have hcalls :=
    (Same.start ctx f (ctx.parentExits ++ f.blocks.flatMap (ctx.returnSeeds f))).seedAllCalls hapart
  have hunresolved := hcalls.mark (ctx.unresolvedSeeds f)
  have hreturns := hunresolved.seedAllReturns hapart (ctx.x87ReturnSlots f
    { ctx.seedAllCalls share true f
      { marked := ctx.parentExits ++ f.blocks.flatMap (ctx.returnSeeds f) } with
      marked := ctx.unresolvedSeeds f ++ (ctx.seedAllCalls share true f
        { marked := ctx.parentExits ++ f.blocks.flatMap (ctx.returnSeeds f) }).marked })
  have hall :=
    hreturns.mark (f.allocationSeeds ctx.registers.isStackPointer ++
      f.blocks.flatMap ctx.phiSeeds ++
    ((f.callClobbers.filter fun c => 0 < c.preservedPrefixSize).map (·.preservedInput)))
  unfold DceContext.seeds
  dsimp only
  rw [← hunresolved.x87ReturnSlots]
  exact hall

end DceContext

end NeverD.Ir
