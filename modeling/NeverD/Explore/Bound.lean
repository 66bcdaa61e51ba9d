import Mathlib.Order.Lattice.Nat
import NeverD.Explore.Finite

namespace NeverD.Explore
open List Function HeaderSearch Explorer
open Option (map_some some toList_none toList_some)

variable {World State Ref : Type}

section

variable (func : LowFunc) (opts : ExploreOptions) (rk : Nat → Nat)

def headerAllowance : Nat := (visitBudget opts true).toNat

def slack (v : Int → UInt32) : Nat :=
  ∑ i ∈ Finset.range func.blocks.length, if func.isLoopHeader i then
    headerAllowance opts + 1 - (v i).toNat else 0

/-- A path that has entered no header more often than it may. -/
def Live (v : Int → UInt32) : Prop :=
  ∀ i : Nat, func.isLoopHeader i = true → (v i).toNat ≤ headerAllowance opts

def depth (f : Frontier State Ref) : Nat :=
  match func.blockIndex f.blockId with
  | none => 0
  | some i => rk i + 1

def opsLeft (f : Frontier State Ref) : Nat :=
  match func.block f.blockId with
  | none => 0
  | some b => b.ops.length + 1 - f.nextOp

def maxDepth : Nat := (Finset.range func.blocks.length).sup rk

def maxOps : Nat :=
  (Finset.range func.blocks.length).sup fun i =>
    ((func.blocks[i]?.map fun b => b.ops.length).getD 0)

def mixed (a b c : Nat) : Nat := (a * (maxDepth func rk + 2) + b) * (maxOps func + 2) + c

def rank (f : Frontier State Ref) : Nat :=
  2 * (if f.infeasible then 0
    else mixed func rk (slack func opts (entered f)) (depth func rk f) (opsLeft func f) + 1) +
  if f.resumed then 0 else 1

variable {func opts rk}

lemma depth_le (f : Frontier State Ref) : depth func rk f ≤ maxDepth func rk + 1 := by
  unfold depth
  cases h : func.blockIndex f.blockId with
  | none => exact Nat.zero_le _
  | some i =>
    have hlt := ((func.blockIndex_eq_some).1 h).2.2
    exact Nat.succ_le_succ (Finset.le_sup (f := rk) (Finset.mem_range.mpr hlt))

lemma opsLeft_le (f : Frontier State Ref) : opsLeft func f ≤ maxOps func + 1 := by
  unfold opsLeft
  cases h : func.block f.blockId with
  | none => exact Nat.zero_le _
  | some b =>
    obtain ⟨i, hi, hb⟩ := func.block_eq_some h
    have hlt := ((func.blockIndex_eq_some).1 hi).2.2
    have := Finset.le_sup (f := fun i => ((func.blocks[i]?.map fun b => b.ops.length).getD 0))
      (Finset.mem_range.mpr hlt)
    simp only [hb, map_some, Option.getD_some] at this
    show b.ops.length + 1 - f.nextOp ≤ maxOps func + 1
    have hm : b.ops.length ≤ maxOps func := this
    omega

lemma mixed_lt_slack {a a' b b' c c' : Nat} (h : a < a') (hb : b ≤ maxDepth func rk + 1)
    (hc : c ≤ maxOps func + 1) : mixed func rk a b c < mixed func rk a' b' c' := by
  unfold mixed
  have h1 : a * (maxDepth func rk + 2) + b + 1 ≤ a' * (maxDepth func rk + 2) := by
    have : (a + 1) * (maxDepth func rk + 2) ≤ a' * (maxDepth func rk + 2) :=
      Nat.mul_le_mul_right _ h
    rw [add_mul, one_mul] at this
    omega
  have h2 : (a * (maxDepth func rk + 2) + b + 1) * (maxOps func + 2) ≤
      (a' * (maxDepth func rk + 2) + b') * (maxOps func + 2) :=
    Nat.mul_le_mul_right _ (h1.trans (Nat.le_add_right _ _))
  rw [add_mul, one_mul] at h2
  omega

lemma mixed_lt_depth {a b b' c c' : Nat} (h : b < b') (hc : c ≤ maxOps func + 1) :
    mixed func rk a b c < mixed func rk a b' c' := by
  unfold mixed
  have h2 : (a * (maxDepth func rk + 2) + b + 1) * (maxOps func + 2) ≤
      (a * (maxDepth func rk + 2) + b') * (maxOps func + 2) := Nat.mul_le_mul_right _ (by omega)
  rw [add_mul, one_mul] at h2
  omega

lemma mixed_mono_slack {a a' b c : Nat} (h : a ≤ a') :
    mixed func rk a b c ≤ mixed func rk a' b c := by
  unfold mixed
  have h1 := Nat.mul_le_mul_right (maxDepth func rk + 2) h
  have h2 := Nat.mul_le_mul_right (maxOps func + 2) (Nat.add_le_add_right h1 b)
  omega

theorem toNat_succ (hA : headerAllowance opts < 2 ^ 32 - 1) {n : UInt32}
    (hn : n.toNat ≤ headerAllowance opts) : (n + 1).toNat = n.toNat + 1 := by
  rw [UInt32.toNat_add]
  have h1 : (1 : UInt32).toNat = 1 := rfl
  rw [h1]
  apply Nat.mod_eq_of_lt
  omega

lemma slack_enter_header (hA : headerAllowance opts < 2 ^ 32 - 1) {v : Int → UInt32}
    (hv : Live func opts v) {id : Int} (hh : func.isLoopHeader id = true) :
    slack func opts (Function.update v id (v id + 1)) < slack func opts v := by
  cases hi : func.blockIndex id with
  | none => simp [LowFunc.isLoopHeader, hi] at hh
  | some i =>
    obtain ⟨h0, hid, hlt⟩ := (func.blockIndex_eq_some).1 hi
    have hcast : id = (i : Int) := by omega
    subst hcast
    apply Finset.sum_lt_sum
    · intro j _
      by_cases hj : (j : Int) = i
      · have hjn : j = i := by omega
        subst hjn
        rw [update_self, if_pos hh, if_pos hh, toNat_succ hA (hv j hh)]
        omega
      · rw [update_of_ne hj]
    · refine ⟨i, Finset.mem_range.mpr hlt, ?_⟩
      rw [update_self, if_pos hh, if_pos hh, toNat_succ hA (hv i hh)]
      have := hv i hh
      omega

lemma slack_enter_other {v : Int → UInt32} {id : Int} (hh : func.isLoopHeader id = false)
    (n : UInt32) : slack func opts (Function.update v id n) = slack func opts v := by
  apply Finset.sum_congr rfl
  intro j _
  by_cases hj : (j : Int) = id
  · rw [hj, hh]
    rfl
  · rw [update_of_ne hj]

theorem live_entered {f : Frontier State Ref} (hv : Live func opts f.visits)
    (hallow : f.nextOp = 0 → func.isLoopHeader f.blockId = true →
      (entered f f.blockId).toNat ≤ headerAllowance opts) : Live func opts (entered f) := by
  intro i hi
  by_cases h0 : f.nextOp = 0
  · by_cases hb : (i : Int) = f.blockId
    · rw [hb]
      rw [hb] at hi
      exact hallow h0 hi
    · simp only [entered, h0, if_true, update_of_ne hb]
      exact hv i hi
  · simp only [entered, h0, if_false]
    exact hv i hi

theorem rank_lt_of_moves (hA : headerAllowance opts < 2 ^ 32 - 1)
    (hrk : ∀ u < func.blocks.length, ∀ succ ∈ succsOf func u, ∀ n,
      func.blockIndex succ = some n → func.isLoopHeader succ = false → rk n < rk u)
    {block : LowBlock} {f g : Frontier State Ref} (hb : func.block f.blockId = some block)
    (hf : f.infeasible = false) (hlive : Live func opts (entered f))
    (h : Moves block block.succs f g) : rank func opts rk g < rank func opts rk f := by
  have hmixed : mixed func rk (slack func opts (entered g)) (depth func rk g) (opsLeft func g) <
      mixed func rk (slack func opts (entered f)) (depth func rk f) (opsLeft func f) := by
    rcases h.place with ⟨h0, hmem⟩ | ⟨hbid, hlt, hle⟩
    · have hent : entered g = Function.update (entered f) g.blockId (entered f g.blockId + 1) := by
        simp [entered, h0, h.visits]
      rw [hent]
      cases hh : func.isLoopHeader g.blockId with
      | true => exact mixed_lt_slack (slack_enter_header hA hlive hh) (depth_le g) (opsLeft_le g)
      | false =>
        rw [slack_enter_other hh]
        apply mixed_lt_depth _ (opsLeft_le g)
        obtain ⟨i, hi, hib⟩ := func.block_eq_some hb
        have hdf : depth func rk f = rk i + 1 := by simp [depth, hi]
        rw [hdf]
        unfold depth
        cases hj : func.blockIndex g.blockId with
        | none => exact Nat.succ_pos _
        | some j =>
          have hlt := ((func.blockIndex_eq_some).1 hi).2.2
          apply Nat.succ_lt_succ
          refine hrk i hlt g.blockId ?_ j hj hh
          simpa [succsOf, hib] using hmem
    · have h0 : g.nextOp ≠ 0 := by omega
      have hent : entered g = entered f := by
        rw [← h.visits]
        simp [entered, h0]
      have hdepth : depth func rk g = depth func rk f := by simp [depth, hbid]
      have hops : opsLeft func g < opsLeft func f := by
        simp only [opsLeft, hbid, hb]
        omega
      rw [hent, hdepth]
      exact Nat.add_lt_add_left hops _
  unfold rank
  rw [h.feasible, h.resumed, hf]
  simp only [Bool.false_eq_true, if_false]
  split <;> omega

end

section

variable (func : LowFunc) (opts : ExploreOptions) (rk : Nat → Nat)

/-- Three to the rank, so that two paths of lower rank weigh less than the one they come from. -/
def weightOf (fs : List (Frontier State Ref)) : Nat := (fs.map fun f => 3 ^ rank func opts rk f).sum

def Explorer.weight (x : Explorer World State Ref) : Nat :=
  weightOf func opts rk (x.current.toList ++ (x.pending ++ x.waiting))

def Explorer.queued (x : Explorer World State Ref) : Nat :=
  2 * x.pending.length + x.current.toList.length

/-- No path alive has overdrawn a header, the path followed is possible, and no paused one
has been resumed. -/
structure Explorer.Ok (x : Explorer World State Ref) : Prop where
  live : ∀ f ∈ x.current.toList ++ (x.pending ++ x.waiting), Live func opts f.visits
  feasible : ∀ f ∈ x.current, f.infeasible = false
  paused : ∀ f ∈ x.waiting, f.resumed = false

variable {func opts rk}

@[simp] lemma weightOf_nil : weightOf func opts rk ([] : List (Frontier State Ref)) = 0 := rfl

@[simp] lemma weightOf_cons (f : Frontier State Ref) (fs : List (Frontier State Ref)) :
    weightOf func opts rk (f :: fs) = 3 ^ rank func opts rk f + weightOf func opts rk fs := by
  simp [weightOf]

@[simp] lemma weightOf_append (fs gs : List (Frontier State Ref)) :
    weightOf func opts rk (fs ++ gs) = weightOf func opts rk fs + weightOf func opts rk gs := by
  simp [weightOf]

lemma weightOf_le_of_lt {n : Nat} (fs : List (Frontier State Ref))
    (h : ∀ f ∈ fs, rank func opts rk f < n) : 3 * weightOf func opts rk fs ≤ fs.length * 3 ^ n := by
  induction fs with
  | nil => simp
  | cons f fs ih =>
    have h1 := ih (fun g hg => h g (mem_cons_of_mem _ hg))
    have h2 : 3 ^ (rank func opts rk f + 1) ≤ 3 ^ n :=
      Nat.pow_le_pow_right (by decide) (h f mem_cons_self)
    rw [weightOf_cons, length_cons, add_mul, one_mul]
    rw [pow_succ] at h2
    omega

lemma weightOf_resume (fs : List (Frontier State Ref)) (h : ∀ f ∈ fs, f.resumed = false)
    (hne : fs ≠ []) :
    weightOf func opts rk (fs.map fun f => { f with resumed := true }) <
      weightOf func opts rk fs := by
  have hone : ∀ f : Frontier State Ref, f.resumed = false →
      3 ^ rank func opts rk { f with resumed := true } < 3 ^ rank func opts rk f := by
    intro f hf
    apply Nat.pow_lt_pow_right (by decide)
    have h1 : rank func opts rk f = rank func opts rk { f with resumed := true } + 1 := by
      unfold rank
      rw [hf]
      rfl
    omega
  induction fs with
  | nil => exact absurd rfl hne
  | cons f fs ih =>
    have h1 := hone f (h f mem_cons_self)
    rw [map_cons, weightOf_cons, weightOf_cons]
    by_cases hfs : fs = []
    · subst hfs
      simpa using h1
    · have h2 := ih (fun g hg => h g (mem_cons_of_mem _ hg)) hfs
      omega

theorem absorbed_le (hA : headerAllowance opts < 2 ^ 32 - 1) {waiter f merged : Frontier State Ref}
    (hc : merged.control = ((waiter.blockId, waiter.nextOp, mergeVisits waiter.visits f.visits,
      waiter.resumed), waiter.infeasible)) (hw : Live func opts waiter.visits)
        (hf : Live func opts f.visits) :
    Live func opts merged.visits ∧ rank func opts rk merged ≤ rank func opts rk waiter := by
  simp only [Frontier.control, Frontier.place, Prod.mk.injEq] at hc
  obtain ⟨⟨hb, hn, hv, hr⟩, hi⟩ := hc
  have hmax : ∀ a b : UInt32, (max a b).toNat = max a.toNat b.toNat := by
    intro a b
    show (if a ≤ b then b else a).toNat = _
    split
    next hab => exact (max_eq_right (UInt32.le_iff_toNat_le.mp hab)).symm
    next hab =>
      exact (max_eq_left (Nat.le_of_not_le fun h => hab (UInt32.le_iff_toNat_le.mpr h))).symm
  have hlive : Live func opts merged.visits := by
    intro i hh
    rw [hv, mergeVisits, hmax]
    exact max_le (hw i hh) (hf i hh)
  refine ⟨hlive, ?_⟩
  have hslack : slack func opts (entered merged) ≤ slack func opts (entered waiter) := by
    apply Finset.sum_le_sum
    intro i _
    cases hh : func.isLoopHeader i with
    | false => simp
    | true =>
      simp only [if_true]
      apply Nat.sub_le_sub_left
      have hle : (waiter.visits i).toNat ≤ (merged.visits i).toNat := by
        rw [hv, mergeVisits, hmax]
        exact le_max_left _ _
      unfold entered
      rw [hn, hb]
      by_cases h0 : waiter.nextOp = 0
      · simp only [h0, if_true]
        by_cases hib : (i : Int) = waiter.blockId
        · rw [← hib, update_self, update_self, toNat_succ hA (hw i hh), toNat_succ hA (hlive i hh)]
          omega
        · rw [update_of_ne hib, update_of_ne hib]
          exact hle
      · simpa only [h0, if_false] using hle
  have hdepth : depth func rk merged = depth func rk waiter := by simp [depth, hb]
  have hops : opsLeft func merged = opsLeft func waiter := by simp [opsLeft, hb, hn]
  have hmixed := @mixed_mono_slack func rk _ _ (depth func rk waiter) (opsLeft func waiter) hslack
  unfold rank
  rw [hi, hr, hdepth, hops]
  split <;> omega

end

section

variable [DecidableEq Ref] (E : Engine World State Ref) (func : LowFunc) (opts : ExploreOptions)

/-- Every address-resolved target the next turn takes is a block the branching block lists
as a successor. -/
def FollowsSuccs (x : Explorer World State Ref) : Prop :=
  ∀ f, x.current = some f → ∀ block, func.block f.blockId = some block →
    ∀ id ∈ addressed E func block (stretch E opts x block (countedIn f)), 0 ≤ id → id ∈ block.succs

variable {E func opts}

variable {x : Explorer World State Ref} {f : Frontier State Ref}

lemma absorbInto_spec {w w' : World} {ws ws' : List (Frontier State Ref)}
    (h : absorbInto E w f ws = (w', some ws')) : ∃ l waiter merged r, ws = l ++ waiter :: r ∧
      ws' = l ++ merged :: r ∧
      merged.control = ((waiter.blockId, waiter.nextOp, mergeVisits waiter.visits f.visits,
        waiter.resumed), waiter.infeasible) := by
  induction ws generalizing w w' ws' with
  | nil => simp [absorbInto] at h
  | cons waiter rest ih =>
    have hrest : ∀ w'',
        ((absorbInto E w'' f rest).1, (absorbInto E w'' f rest).2.map (waiter :: ·)) =
        (w', some ws') →
        ∃ l waiter' merged r, waiter :: rest = l ++ waiter' :: r ∧ ws' = l ++ merged :: r ∧
          merged.control = ((waiter'.blockId, waiter'.nextOp, mergeVisits waiter'.visits f.visits,
            waiter'.resumed), waiter'.infeasible) := by
      intro w'' h1
      generalize hr : absorbInto E w'' f rest = p at h1
      obtain ⟨w1, r1⟩ := p
      cases r1 with
      | none => simp at h1
      | some ws1 =>
        simp only [map_some, Prod.mk.injEq, some.injEq] at h1
        obtain ⟨l, waiter', merged, r, h2, h3, h4⟩ := ih hr
        exact ⟨waiter :: l, waiter', merged, r, by simp [h2], by simp [← h1.2, h3], h4⟩
    unfold absorbInto at h
    split at h
    · exact hrest _ h
    · split at h
      · exact hrest _ h
      next w2 state hm =>
        have h1 := congrArg Prod.snd h
        refine ⟨[], waiter, _, rest, rfl, (some.inj h1).symm, ?_⟩
        rfl

/-- What one turn of a followed path does: it ends, pauses, or leaves paths that moved on. -/
theorem walk_cases (hs : FollowsSuccs E func opts x) (hc : x.current = some f) :
    (walk E func opts x f).current = none ∧ (walk E func opts x f).pending = x.pending ∧
        (walk E func opts x f).waiting = x.waiting ∨
      walk E func opts x f = pauseAtJoin E x { f with incomingMode := none } ∧ f.resumed = false ∨
      ∃ block, func.block f.blockId = some block ∧
        (f.nextOp = 0 → visitBudget opts (func.isLoopHeader f.blockId) ≠ kUnbounded →
          entered f f.blockId ≤ visitBudget opts (func.isLoopHeader f.blockId)) ∧
        Leaves block block.succs f x (walk E func opts x f) := by
  unfold walk
  cases hb : func.block f.blockId with
  | none => exact .inl ⟨rfl, rfl, rfl⟩
  | some block =>
    simp only
    split
    · exact .inl ⟨rfl, rfl, rfl⟩
    · split
      · exact .inl ⟨rfl, rfl, rfl⟩
      · split
        next hjoin =>
          refine .inr (.inl ⟨rfl, ?_⟩)
          simp only [Bool.and_eq_true, Bool.not_eq_true'] at hjoin
          exact hjoin.1.2
        · split
          · exact .inl ⟨rfl, rfl, rfl⟩
          next hbudget =>
            split
            · exact .inl ⟨rfl, rfl, rfl⟩
            next hops =>
              refine .inr (.inr ⟨block, rfl, ?_, ?_⟩)
              · intro h0 hk
                have h1 : ¬ entered f f.blockId > visitBudget opts (func.isLoopHeader f.blockId) :=
                  fun hgt => hbudget ⟨h0, hk, hgt⟩
                rw [UInt32.le_iff_toNat_le]
                exact not_lt.mp fun hlt => h1 (UInt32.lt_iff_toNat_lt.mpr hlt)
              · exact walkStretch_leaves (stretch_place E opts x block (countedIn f))
                  (stretch_terminatorIndex E opts x block (countedIn f) (not_lt.mp hops))
                  (fun t ht => ht) (hs f hc block hb)

theorem visitBudget_header (hl : opts.maxLoopIterations ≠ kUnbounded) :
    visitBudget opts true ≠ kUnbounded := by
  unfold visitBudget
  split
  · exact hl
  next h =>
    intro h0
    simp [h0, hl] at h

theorem pauseAtJoin_decreases (hA : headerAllowance opts < 2 ^ 32 - 1) {rk : Nat → Nat}
    {g : Frontier State Ref} (hx : x.Ok func opts)
    (hc : x.current = some f) (hg : g.control = f.control) (hr : f.resumed = false) :
    (pauseAtJoin E x g).Ok func opts ∧ Prod.Lex (· < ·) (· < ·)
      ((pauseAtJoin E x g).weight func opts rk, (pauseAtJoin E x g).queued)
      (x.weight func opts rk, x.queued) := by
  have hfl : Live func opts f.visits := hx.live f (by simp [hc])
  simp only [Frontier.control, Frontier.place, Prod.mk.injEq] at hg
  obtain ⟨⟨hgb, hgn, hgv, hgr⟩, hgi⟩ := hg
  have hgl : Live func opts g.visits := by
    rw [hgv]
    exact hfl
  have hrest : ∀ h ∈ x.pending ++ x.waiting, Live func opts h.visits :=
    fun h hh => hx.live h (mem_append_right _ hh)
  have hpos : 0 < 3 ^ rank func opts rk f := Nat.pow_pos (by decide)
  unfold pauseAtJoin
  split
  · constructor
    · refine ⟨?_, by simp, ?_⟩
      · intro h hh
        simp only [toList_none, nil_append, mem_append, mem_singleton] at hh
        rcases hh with hh | hh | hh
        · exact hrest h (mem_append_left _ hh)
        · exact hrest h (mem_append_right _ hh)
        · rw [hh]
          exact hgl
      · intro h hh
        rcases mem_append.mp hh with hh | hh
        · exact hx.paused h hh
        · rw [mem_singleton] at hh
          rw [hh, hgr, hr]
    · have hrank : rank func opts rk g = rank func opts rk f := by
        simp [rank, entered, depth, opsLeft, hgb, hgn, hgv, hgr, hgi]
      have hw : weightOf func opts rk (x.pending ++ (x.waiting ++ [g])) =
          x.weight func opts rk := by
        simp only [weight, hc, toList_some, weightOf_append, weightOf_cons, weightOf_nil, hrank]
        omega
      simp only [weight, toList_none, nil_append] at hw ⊢
      rw [hw]
      apply Prod.Lex.right
      simp [queued, hc]
  next w ws hab =>
    obtain ⟨l, waiter, merged, r, h1, h2, h3⟩ := absorbInto_spec hab
    obtain ⟨hml, hmr⟩ : Live func opts merged.visits ∧
        rank func opts rk merged ≤ rank func opts rk waiter :=
      absorbed_le hA h3 (hrest waiter (by simp [h1])) hgl
    constructor
    · refine ⟨?_, by simp, ?_⟩
      · intro h hh
        simp only [toList_none, nil_append, h2, mem_append, mem_cons] at hh
        rcases hh with hh | hh | hh | hh
        · exact hrest h (mem_append_left _ hh)
        · exact hrest h (by simp [h1, hh])
        · rw [hh]
          exact hml
        · exact hrest h (by simp [h1, hh])
      · intro h hh
        simp only [h2, mem_append, mem_cons] at hh
        rcases hh with hh | hh | hh
        · exact hx.paused h (by simp [h1, hh])
        · simp only [Frontier.control, Frontier.place, Prod.mk.injEq] at h3
          rw [hh, h3.1.2.2.2]
          exact hx.paused waiter (by simp [h1])
        · exact hx.paused h (by simp [h1, hh])
    · apply Prod.Lex.left
      have hpow : 3 ^ rank func opts rk merged ≤ 3 ^ rank func opts rk waiter :=
        Nat.pow_le_pow_right (by decide) hmr
      simp only [weight, hc, h1, h2, toList_none, toList_some, weightOf_append, weightOf_cons,
        weightOf_nil]
      omega

omit [DecidableEq Ref] in
theorem leaves_decreases (hA : headerAllowance opts < 2 ^ 32 - 1) {rk : Nat → Nat}
    (hrk : ∀ u < func.blocks.length, ∀ succ ∈ succsOf func u, ∀ n,
      func.blockIndex succ = some n → func.isLoopHeader succ = false → rk n < rk u)
    {x' : Explorer World State Ref} {block : LowBlock}
    (hx : x.Ok func opts) (hc : x.current = some f) (hb : func.block f.blockId = some block)
    (hallow : f.nextOp = 0 → func.isLoopHeader f.blockId = true →
    (entered f f.blockId).toNat ≤ headerAllowance opts)
    (h : Leaves block block.succs f x x') :
    x'.Ok func opts ∧ x'.weight func opts rk < x.weight func opts rk := by
  have hfl : Live func opts f.visits := hx.live f (by simp [hc])
  have hff : f.infeasible = false := hx.feasible f hc
  have hlive : Live func opts (entered f) := live_entered hfl hallow
  obtain ⟨forks, hp, hlen, hall⟩ := h.forks
  have hlt : ∀ g ∈ x'.current.toList ++ forks, rank func opts rk g < rank func opts rk f := by
    intro g hg
    rcases (hall g hg).2 with hinf | hm
    · unfold rank
      rw [hinf, hff]
      simp only [if_true, Bool.false_eq_true, if_false]
      split <;> split <;> omega
    · exact rank_lt_of_moves hA hrk hb hff hlive hm
  constructor
  · refine ⟨?_, h.feasible, by rw [h.waiting]; exact hx.paused⟩
    intro g hg
    rw [h.waiting, hp] at hg
    simp only [mem_append] at hg
    rcases hg with hg | (hg | hg) | hg
    · rw [(hall g (mem_append_left _ hg)).1]
      exact hlive
    · exact hx.live g (by simp [hg])
    · rw [(hall g (mem_append_right _ hg)).1]
      exact hlive
    · exact hx.live g (by simp [hg])
  · have h3 := weightOf_le_of_lt (x'.current.toList ++ forks) hlt
    have hlen2 : (x'.current.toList ++ forks).length ≤ 2 := by
      rw [length_append]
      have : x'.current.toList.length ≤ 1 := by cases x'.current <;> simp
      omega
    have h4 := Nat.mul_le_mul_right (3 ^ rank func opts rk f) hlen2
    have hpos : 0 < 3 ^ rank func opts rk f := Nat.pow_pos (by decide)
    simp only [weight, hc, hp, h.waiting, toList_some, weightOf_append, weightOf_cons,
      weightOf_nil] at h3 ⊢
    omega

omit [DecidableEq Ref] in
/-- Where no other path is left to follow, the paused ones go on, and are lighter for it. -/
theorem resumed_lighter (rk : Nat → Nat) {x : Explorer World State Ref} (hx : x.Ok func opts)
    (hc : x.current = none) {pending waiting : List (Frontier State Ref)}
    (hp : (if x.pending.isEmpty then x.waiting.map fun f => { f with resumed := true }
    else x.pending) = pending)
    (hw : (if x.pending.isEmpty then [] else x.waiting) = waiting) (hne : pending ≠ []) :
    (∀ g ∈ pending ++ waiting, Live func opts g.visits) ∧ (∀ g ∈ waiting, g.resumed = false) ∧
      (weightOf func opts rk (pending ++ waiting) < x.weight func opts rk ∨
        weightOf func opts rk (pending ++ waiting) = x.weight func opts rk ∧
        pending.length = x.pending.length) := by
  refine ⟨?_, ?_, ?_⟩
  · intro g hg
    rw [← hp, ← hw] at hg
    split at hg
    · simp only [append_nil, mem_map] at hg
      obtain ⟨g', hg', rfl⟩ := hg
      exact hx.live g' (by simp [hg'])
    · exact hx.live g (by simpa [hc] using hg)
  · intro g hg
    rw [← hw] at hg
    split at hg
    · cases hg
    · exact hx.paused g hg
  · rw [← hp] at hne
    rw [← hp, ← hw]
    simp only [weight, hc, toList_none, nil_append, weightOf_append]
    split
    next hemp =>
      have hnil : x.pending = [] := by simpa using hemp
      have hwaits : x.waiting ≠ [] := by
        intro hwn
        rw [if_pos hemp, hwn] at hne
        exact hne rfl
      left
      rw [hnil]
      simpa using weightOf_resume x.waiting hx.paused hwaits
    · exact .inr ⟨rfl, rfl⟩

lemma walk_decreases (hl : opts.maxLoopIterations ≠ kUnbounded)
    (hA : headerAllowance opts < 2 ^ 32 - 1) {rk : Nat → Nat}
    (hrk : ∀ u < func.blocks.length, ∀ succ ∈ succsOf func u, ∀ n,
      func.blockIndex succ = some n → func.isLoopHeader succ = false → rk n < rk u)
    (hx : x.Ok func opts) (hs : FollowsSuccs E func opts x) (hc : x.current = some f) :
    (walk E func opts x f).Ok func opts ∧ Prod.Lex (· < ·) (· < ·)
      ((walk E func opts x f).weight func opts rk, (walk E func opts x f).queued)
      (x.weight func opts rk, x.queued) := by
  have hpos : 0 < 3 ^ rank func opts rk f := Nat.pow_pos (by decide)
  rcases walk_cases hs hc with ⟨h1, h2, h3⟩ | ⟨h1, h2⟩ | ⟨block, h1, h2, h3⟩
  · constructor
    · refine ⟨?_, by simp [h1], by rw [h3]; exact hx.paused⟩
      intro g hg
      rw [h1, h2, h3] at hg
      exact hx.live g (mem_append_right _ (by simpa using hg))
    · apply Prod.Lex.left
      simp only [weight, hc, h1, h2, h3, toList_none, toList_some, weightOf_append, weightOf_cons,
        weightOf_nil]
      omega
  · rw [h1]
    exact pauseAtJoin_decreases hA hx hc rfl h2
  · obtain ⟨hok, hlt⟩ := leaves_decreases hA hrk hx hc h1 (fun h0 hh => by
      have hle := h2 h0 (by rw [hh]; exact visitBudget_header hl)
      rw [hh] at hle
      exact UInt32.le_iff_toNat_le.mp hle) h3
    exact ⟨hok, Prod.Lex.left _ _ hlt⟩

/-- A turn keeps the invariant and makes the exploration lighter, or takes up a queued path. -/
theorem explorerStep_decreases (hl : opts.maxLoopIterations ≠ kUnbounded)
    (hA : headerAllowance opts < 2 ^ 32 - 1) {rk : Nat → Nat}
    (hrk : ∀ u < func.blocks.length, ∀ succ ∈ succsOf func u, ∀ n,
      func.blockIndex succ = some n → func.isLoopHeader succ = false → rk n < rk u)
    {x' : Explorer World State Ref} (hx : x.Ok func opts) (hs : FollowsSuccs E func opts x)
    (h : explorerStep E func opts x = some x') :
    x'.Ok func opts ∧ Prod.Lex (· < ·) (· < ·) (x'.weight func opts rk, x'.queued)
      (x.weight func opts rk, x.queued) := by
  unfold explorerStep at h
  cases hc : x.current with
  | some f =>
    rw [hc] at h
    rw [← Option.some.inj h]
    exact walk_decreases hl hA hrk hx hs hc
  | none =>
    rw [hc] at h
    simp only at h
    split at h
    · cases h
    generalize hp : (if x.pending.isEmpty then x.waiting.map fun f => { f with resumed := true }
      else x.pending) = pending at h
    generalize hw : (if x.pending.isEmpty then [] else x.waiting) = waiting at h
    cases hlast : pending.getLast? with
    | none =>
      rw [hlast] at h
      cases h
    | some f =>
      rw [hlast] at h
      simp only at h
      have hsplit : pending = pending.dropLast ++ [f] := by
        rw [dropLast_append_getLast? f hlast]
      have hne : pending ≠ [] := by
        rw [hsplit]
        simp
      obtain ⟨hlive, hpaused, hweight⟩ := resumed_lighter rk hx hc hp hw hne
      have hcount : pending.length = pending.dropLast.length + 1 := by
        conv_lhs => rw [hsplit]
        simp
      have hsum : weightOf func opts rk (pending ++ waiting) =
          3 ^ rank func opts rk f + weightOf func opts rk (pending.dropLast ++ waiting) := by
        conv_lhs => rw [hsplit]
        simp only [weightOf_append, weightOf_cons, weightOf_nil]
        omega
      have hpos : 0 < 3 ^ rank func opts rk f := Nat.pow_pos (by decide)
      have hrest : ∀ g ∈ pending.dropLast ++ waiting, Live func opts g.visits := by
        intro g hg
        apply hlive g
        rcases mem_append.mp hg with hg | hg
        · exact mem_append_left _ (mem_of_mem_dropLast hg)
        · exact mem_append_right _ hg
      split at h
      · have hx' := some.inj h
        rw [← hx']
        refine ⟨⟨hrest, by simp [record], hpaused⟩, ?_⟩
        apply Prod.Lex.left
        show weightOf func opts rk (pending.dropLast ++ waiting) < _
        omega
      next hfeas =>
        have hx' := some.inj h
        rw [← hx']
        refine ⟨⟨?_, ?_, hpaused⟩, ?_⟩
        · intro g hg
          simp only [toList_some, singleton_append, mem_cons] at hg
          rcases hg with hg | hg
          · rw [hg]
            apply hlive f
            rw [hsplit]
            simp
          · exact hrest g hg
        · intro g hg
          have hgf : f = g := by simpa using hg
          rw [← hgf]
          simpa using hfeas
        · have hnew : weightOf func opts rk ([f] ++ (pending.dropLast ++ waiting)) =
              weightOf func opts rk (pending ++ waiting) := by
            rw [hsum, singleton_append, weightOf_cons]
          simp only [weight, toList_some] at hweight ⊢
          rw [hnew]
          rcases hweight with hlt | ⟨heq, hlen⟩
          · exact Prod.Lex.left _ _ hlt
          · rw [heq]
            apply Prod.Lex.right
            simp only [queued, hc, toList_some, toList_none, length_singleton, length_nil]
            omega

variable (E func opts) in
def explorerAfter (x : Explorer World State Ref) : Nat → Option (Explorer World State Ref)
  | 0 => some x
  | n + 1 => (explorerAfter x n).bind (explorerStep E func opts)

omit [DecidableEq Ref] in
lemma initialExplorer_ok (w : World) (state : State) (trusted : Bool) :
    (initialExplorer func w state trusted : Explorer World State Ref).Ok func opts where
  live := by
    intro f hf
    have hv : f.visits = fun _ => 0 := by
      unfold initialExplorer at hf
      split at hf
      · simp at hf
      · simp only [toList_none, nil_append, append_nil, mem_singleton] at hf
        rw [hf]
    intro i _
    rw [hv]
    exact Nat.zero_le _
  feasible := by simp [initialExplorer]
  paused := by simp [initialExplorer]

/-- With a finite loop bound an exploration ends, whatever the other budgets, as long as
address-resolved moves follow the successor lists and the allowance of a header is one a 32-bit
count can exceed. -/
theorem exploration_ends (E : Engine World State Ref) (func : LowFunc) (opts : ExploreOptions)
    (hl : opts.maxLoopIterations ≠ kUnbounded) (hA : (visitBudget opts true).toNat < 2 ^ 32 - 1)
    (w : World) (state : State) (trusted : Bool)
    (hs : ∀ n x, explorerAfter E func opts (initialExplorer func w state trusted) n = some x →
      FollowsSuccs E func opts x) :
    ∃ n, explorerAfter E func opts (initialExplorer func w state trusted) n = none := by
  obtain ⟨rk, hrk⟩ := func.exists_rank
  have hwf : WellFounded (Prod.Lex (· < ·) (· < ·) : Nat × Nat → Nat × Nat → Prop) :=
    (inferInstance : WellFoundedRelation (Nat × Nat)).wf
  -- from any state of the run on, by induction on what it weighs
  have hfrom : ∀ (m : Nat × Nat) (n : Nat) (x : Explorer World State Ref), x.Ok func opts →
      explorerAfter E func opts (initialExplorer func w state trusted) n = some x →
      (x.weight func opts rk, x.queued) = m →
      ∃ k, explorerAfter E func opts (initialExplorer func w state trusted) k = none := by
    intro m
    induction m using hwf.induction with
    | _ m ih =>
      intro n x hx hn hm
      cases hstep : explorerStep E func opts x with
      | none =>
        refine ⟨n + 1, ?_⟩
        rw [explorerAfter, hn]
        exact hstep
      | some x' =>
        obtain ⟨hok, hlt⟩ := explorerStep_decreases hl hA hrk hx (hs n x hn) hstep
        refine ih _ (hm ▸ hlt) (n + 1) x' hok ?_ rfl
        rw [explorerAfter, hn]
        exact hstep
  exact hfrom _ 0 _ (initialExplorer_ok w state trusted) rfl rfl

end

open NeverD.Lib (APInt)

/-- The executor on constant operands: a branch goes where its first operand says, and all else is
left unmodelled. -/
def constantEngine : Engine Unit Unit APInt where
  boundariesValid _ := true
  step _ _ op _ _ _ :=
    match op.opcode, op.inputs with
    | .branch, v :: _ =>
      ⟨(), (), .branch, [], some (APInt.ofNat (8 * v.size) v.offset), APInt.ofNat 1 1⟩
    | _, _ => ⟨(), (), .unmodelled, [], none, APInt.ofNat 1 1⟩
  snapshot _ _ _ := ((), (), none)
  asConst _ r := some r
  width _ r := r.width
  mkConst _ w v := ((), APInt.ofNat w v)
  mkAnd _ rs := ((), rs.headD (APInt.ofNat 1 1))
  mkOr _ a _ := ((), a)
  mkNot _ a := ((), a.not)
  mkEq _ a b := ((), APInt.ofNat 1 (if a = b then 1 else 0))
  mergeIdentical _ _ _ := ((), some ())
  shadowStep _ _ := ((), false)
  shadowValue _ _ := ((), none)

def onlyLoopBound (n : UInt32) : ExploreOptions :=
  { maxPaths := kUnbounded, maxSteps := kUnbounded, maxBlockVisits := kUnbounded,
    maxLoopIterations := n }

def selfBlock : LowBlock where
  startAddr := 0x1000
  endAddr := 0x1004
  ops := [{ opcode := .branch, output := ⟨.const, 0, 0⟩, inputs := [⟨.const, 0x1000, 8⟩],
            addr := 0x1000, seq := 0 }]
  instructionBoundaries := []
  succs := []

def selfBranch : LowFunc := ⟨[selfBlock]⟩

lemma selfBranch_isLoopHeader : selfBranch.isLoopHeader 0 = false := by
  simp [selfBranch, selfBlock, LowFunc.isLoopHeader, LowFunc.blockIndex, search, root, init, run,
    step, succsOf]

theorem stretch_selfBranch (x : Explorer Unit Unit APInt) (f : Frontier Unit APInt)
    (hn : f.nextOp = 0) (hf : f.infeasible = false) (n : UInt32) :
    let s := stretch constantEngine (onlyLoopBound n) x selfBlock (countedIn f)
    s.result = .branch ∧ s.frontier.infeasible = false ∧ s.outOfSteps = false ∧
      s.reachedNoReturnCall = false ∧ s.shadowTrusted = x.shadowTrusted ∧
      s.target = some (APInt.ofNat 64 0x1000) ∧ s.terminatorIndex selfBlock = 0 ∧
      s.frontier.blocks = f.blocks ++ [f.blockId] ∧ s.frontier.incomingMode = none := by
  simp [stretch, countedIn, hn, selfBlock, runOps, executeOp, onlyLoopBound, kUnbounded,
    constantEngine, addConstraints, isCall, hf, Stretch.terminatorIndex]

theorem walk_selfBranch (x : Explorer Unit Unit APInt) (f : Frontier Unit APInt)
    (hb : f.blockId = 0)
    (hn : f.nextOp = 0) (hm : f.incomingMode = none) (hf : f.infeasible = false) (n : UInt32) :
    ∃ g, (walk constantEngine selfBranch (onlyLoopBound n) x f).current = some g ∧
      g.blockId = 0 ∧ g.nextOp = 0 ∧ g.incomingMode = none ∧ g.infeasible = false ∧
        g.blocks = f.blocks ++ [0] := by
  have hblock : selfBranch.block f.blockId = some selfBlock := by
    rw [hb]
    rfl
  have hbudget : visitBudget (onlyLoopBound n) (selfBranch.isLoopHeader f.blockId) =
      kUnbounded := by
    rw [hb, selfBranch_isLoopHeader]
    rfl
  obtain ⟨h1, h2, h3, h4, -, h5, h6, h7, h8⟩ := stretch_selfBranch x f hn hf n
  generalize hs : stretch constantEngine (onlyLoopBound n) x selfBlock (countedIn f) = s at *
  have hplace := stretch_place constantEngine (onlyLoopBound n) x selfBlock (countedIn f)
  rw [hs] at hplace
  have hto : resolveControlTarget selfBranch selfBlock 0 (some (.ofNat 64 0x1000)) none =
      { isConcrete := true, blockId := 0 } := rfl
  have hturn : branchTurn constantEngine selfBranch selfBlock s =
      ⟨(), s.frontier, s.shadowTrusted, false, { isConcrete := true, blockId := 0 }, s.target⟩ := by
    simp [branchTurn, resolve, h1, h5, h6, constantEngine, hto]
  have hwalk : (walk constantEngine selfBranch (onlyLoopBound n) x f).current =
      some { s.frontier with blockId := 0 } := by
    unfold walk
    rw [hblock]
    have hguard : ¬ (decide (f.nextOp = 0) && (onlyLoopBound n).mergeEquivalentPaths &&
        !f.resumed && selfBranch.isJoin f.blockId) = true := by simp [onlyLoopBound]
    have hops : ¬ f.nextOp > selfBlock.ops.length := by simp [hn]
    simp only [hm, hbudget, hs, if_neg hguard, if_neg hops, ne_eq, not_true_eq_false, false_and,
      and_false, if_false]
    have hstretch : (walkStretch constantEngine selfBranch selfBlock s x).current =
        some { s.frontier with blockId := 0 } := by
      simp [walkStretch, h1, h2, h3, h4, hturn, walkBranch]
    exact hstretch
  simp only [Frontier.place, Prod.mk.injEq] at hplace
  refine ⟨_, hwalk, rfl, hplace.2.1, h8, h2, ?_⟩
  rw [← hb]
  exact h7

/-- Under a bound of one iteration, with every other budget lifted, the exploration of `selfBranch`
follows one path for ever. -/
theorem selfBranch_endless : (onlyLoopBound 1).maxLoopIterations ≠ kUnbounded ∧
    ∀ n, ∃ x f, explorerAfter constantEngine selfBranch (onlyLoopBound 1)
        (initialExplorer selfBranch () () false) (n + 1) = some x ∧ x.current = some f ∧
        f.blocks.length = n := by
  refine ⟨by decide, ?_⟩
  have hpath : ∀ n, ∃ x f, explorerAfter constantEngine selfBranch (onlyLoopBound 1)
        (initialExplorer selfBranch () () false) (n + 1) = some x ∧
      x.current = some f ∧ f.blocks.length = n ∧ f.blockId = 0 ∧ f.nextOp = 0 ∧
      f.incomingMode = none ∧ f.infeasible = false := by
    intro n
    induction n with
    | zero =>
      exact ⟨_, _, rfl, rfl, rfl, rfl, rfl, rfl, rfl⟩
    | succ n ih =>
      obtain ⟨x, f, h1, h2, h3, h4, h5, h6, h7⟩ := ih
      obtain ⟨g, k1, k2, k3, k4, k5, k6⟩ := walk_selfBranch x f h4 h5 h6 h7 1
      refine ⟨walk constantEngine selfBranch (onlyLoopBound 1) x f, g, ?_, k1, ?_, k2, k3, k4, k5⟩
      · rw [explorerAfter, h1, Option.bind_some, explorerStep, h2]
      · rw [k6, length_append, h3]
        rfl
  intro n
  obtain ⟨x, f, h1, h2, h3, -⟩ := hpath n
  exact ⟨x, f, h1, h2, h3⟩

/-- A block that falls into itself, and says so. -/
def fallingLoop : LowFunc := ⟨[{ selfBlock with ops := [], succs := [0] }]⟩

/-- A bound of three iterations ends the loop of `fallingLoop`. -/
theorem exploration_ends_fallingLoop :
      ∃ k, explorerAfter constantEngine fallingLoop (onlyLoopBound 3)
      (initialExplorer fallingLoop () () false) k = none := by
  refine exploration_ends constantEngine fallingLoop (onlyLoopBound 3) (by decide) (by decide) ()
    () false ?_
  intro k x _ f _ block hb id hid
  have hops : block.ops = [] := by
    obtain ⟨i, hi, hib⟩ := fallingLoop.block_eq_some hb
    have hmem := mem_of_getElem? hib
    simp only [fallingLoop, mem_singleton] at hmem
    rw [hmem]
  simp [addressed, stretch, hops, runOps] at hid

end NeverD.Explore
