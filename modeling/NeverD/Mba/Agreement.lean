import NeverD.Mba.SampleStream

namespace NeverD.Mba
open Lib NeverD.Sym List SymEvalPlan
open BitVec (eq_of_toNat_eq toNat_setWidth setWidth_add setWidth_zero toNat_ofNat)

variable {left right common : List SymRef}

structure CommonSplit where
  common : List SymRef
  leftRest : List SymRef
  rightRest : List SymRef
deriving DecidableEq, Repr

def mergeCommon : List SymRef → List SymRef → CommonSplit
  | [], right => ⟨[], [], right⟩
  | a :: left, [] => ⟨[], a :: left, []⟩
  | a :: left, b :: right =>
    if a = b then
      let rest := mergeCommon left right
      { rest with common := a :: rest.common }
    else if a < b then
      let rest := mergeCommon left (b :: right)
      { rest with leftRest := a :: rest.leftRest }
    else
      let rest := mergeCommon (a :: left) right
      { rest with rightRest := b :: rest.rightRest }
termination_by left right => left.length + right.length

def splitCommonOperands (ctx : SymContext) (a b : SymRef) : CommonSplit :=
  mergeCommon (sortRefs (ctx.operands a)) (sortRefs (ctx.operands b))

structure PlanOps (α : Type) where
  eval : SymEvalPlan → α
  /-- The value of an unchanged factor. -/
  evalCommon : SymEvalPlan → α
  zero : α
  one : α
  add : α → α → α
  sub : α → α → α
  mul : α → α → α
  mask : α → α
  isZero : α → Bool

def nativeOps (ctx : SymContext) (w : Nat) (lookup : Nat → BitVec 64) : PlanOps (BitVec 64) where
  eval plan := plan.evalU64With ctx lookup
  evalCommon plan :=
    if plan.fitsU64 ctx then plan.evalU64With ctx lookup
    else BitVec.ofNat 64 (plan.evalLookup ctx fun id =>
      some (APInt.ofNat (ctx.varWidth id) (lookup id).toNat)).toNat
  zero := 0
  one := 1
  add := (· + ·)
  sub := (· - ·)
  mul := (· * ·)
  mask := mask64 w
  isZero x := x = 0

def wideOps (ctx : SymContext) (w : Nat) (lookup : Nat → Option APInt) : PlanOps APInt where
  eval plan := plan.evalLookup ctx lookup
  evalCommon plan := plan.evalLookup ctx lookup
  zero := APInt.zero w
  one := APInt.ofNat w 1
  add := APInt.add
  sub := APInt.sub
  mul := APInt.mul
  mask := id
  isZero := APInt.isZero

section

variable {α : Type} (ctx : SymContext) (ops : PlanOps α)

def differenceOf (left right : List SymEvalPlan) : α :=
  right.foldl (fun x plan => ops.sub x (ops.eval plan))
    (left.foldl (fun x plan => ops.add x (ops.eval plan)) ops.zero)

def productOf (plans : List SymEvalPlan) : α :=
  plans.foldl (fun x plan => ops.mul x (ops.eval plan)) ops.one

def commonPlan (common : List SymRef) (i : Nat) : StateM (List SymEvalPlan) SymEvalPlan :=
  modifyGet fun plans =>
    let plans := if plans.length = i then plans ++ [SymEvalPlan.build ctx (common.getD i 0)]
      else plans
    (plans.getD i ⟨[], 0⟩, plans)

/-- Multiply a difference by the common factors from the `i`-th one, until it is zero. -/
def scaleByCommon (common : List SymRef) : Nat → Nat → α → StateM (List SymEvalPlan) α
  | 0, _, difference => pure difference
  | n + 1, i, difference =>
    if ops.isZero difference then pure difference
    else do
      let plan ← commonPlan ctx common i
      scaleByCommon common n (i + 1) (ops.mask (ops.mul difference (ops.evalCommon plan)))

def checkProducts (common : List SymRef) (left right leftSums rightSums : List SymEvalPlan) :
    StateM (List SymEvalPlan) Bool := do
  let rest := differenceOf ops leftSums rightSums
  let difference ← scaleByCommon ctx ops common common.length 0
    (ops.mask (ops.sub (productOf ops left) (productOf ops right)))
  pure (ops.isZero (ops.mask (ops.add difference rest)))

def checkSums (left right : List SymEvalPlan) : Bool :=
  ops.isZero (ops.mask (differenceOf ops left right))

end

section

variable (ctx : SymContext) (a b : SymRef) (samples : Nat)

def agreeAfterFactoringProducts (canceled leftAddends rightAddends : List SymRef) : Option Bool :=
  if ctx.op a ≠ .mul ∨ ctx.op b ≠ .mul ∨ ctx.width a ≠ ctx.width b then none
  else
    let split := splitCommonOperands ctx a b
    if split.common = [] ∨ split.common.length < split.leftRest.length + split.rightRest.length then
      none
    else
      let w := ctx.width a
      let vars := (canceled ++ split.common).foldl (fun vars r => ctx.collectVars r vars) []
      let compile := fun rs : List SymRef => rs.map (SymEvalPlan.build ctx)
      let left := compile split.leftRest
      let right := compile split.rightRest
      let leftSums := compile leftAddends
      let rightSums := compile rightAddends
      let plans := left ++ right ++ leftSums ++ rightSums
      let native := decide (w ≤ 64) && (vars.all fun id => ctx.varWidth id ≤ 64) &&
        plans.all (SymEvalPlan.fitsU64 ctx)
      let check :=
        agreeOnAssignments ctx (vars ++ plans.flatMap (SymEvalPlan.vars ctx)) samples native
        (fun lookup => checkProducts ctx (nativeOps ctx w lookup) split.common left right leftSums
          rightSums)
        (fun lookup => checkProducts ctx (wideOps ctx w lookup) split.common left right leftSums
          rightSums)
      some (check.run []).1

/-- The only product of three factors or more among the terms. -/
def isolatedProduct (terms : List SymRef) : Option Nat :=
  match (List.range terms.length).filter fun i =>
    ctx.op (terms.getD i 0) = .mul && 2 < ctx.numOperands (terms.getD i 0) with
  | [i] => some i
  | _ => none

def agreeAfterCancelingAddends : Option Bool :=
  if ctx.op a ≠ .add ∨ ctx.op b ≠ .add ∨ ctx.width a ≠ ctx.width b then none
  else
    let split := splitCommonOperands ctx a b
    let factored :=
      match isolatedProduct ctx split.leftRest, isolatedProduct ctx split.rightRest with
      | some i, some j =>
        agreeAfterFactoringProducts ctx (split.leftRest.getD i 0) (split.rightRest.getD j 0)
          samples split.common (split.leftRest.eraseIdx i) (split.rightRest.eraseIdx j)
      | _, _ => none
    match factored with
    | some agrees => some agrees
    | none =>
      if split.common = [] then none
      else
        let w := ctx.width a
        let vars := split.common.foldl (fun vars r => ctx.collectVars r vars) []
        let left := split.leftRest.map (SymEvalPlan.build ctx)
        let right := split.rightRest.map (SymEvalPlan.build ctx)
        let plans := left ++ right
        let native := decide (w ≤ 64) && (vars.all fun id => ctx.varWidth id ≤ 64) &&
          plans.all (SymEvalPlan.fitsU64 ctx)
        let check : StateM Unit Bool :=
          agreeOnAssignments ctx (vars ++ plans.flatMap (SymEvalPlan.vars ctx)) samples native
            (fun lookup => pure (checkSums (nativeOps ctx w lookup) left right))
            (fun lookup => pure (checkSums (wideOps ctx w lookup) left right))
        some (check.run ()).1

def agreeCompletely : Bool :=
  let left := SymEvalPlan.build ctx a
  let right := SymEvalPlan.build ctx b
  let check : StateM Unit Bool :=
    agreeOnAssignments ctx (left.vars ctx ++ right.vars ctx) samples
      (left.fitsU64 ctx && right.fitsU64 ctx)
      (fun lookup => pure (left.evalU64With ctx lookup == right.evalU64With ctx lookup))
      (fun lookup => pure (decide (left.evalLookup ctx lookup = right.evalLookup ctx lookup)))
  (check.run ()).1

def agreeOnSamples : Bool :=
  if samples = 0 then true
  else match agreeAfterCancelingAddends ctx a b samples with
    | some agrees => agrees
    | none => match agreeAfterFactoringProducts ctx a b samples [] [] [] with
      | some agrees => agrees
      | none => agreeCompletely ctx a b samples

end

section

lemma mergeCommon_perm (left right : List SymRef) :
    left.Perm ((mergeCommon left right).common ++ (mergeCommon left right).leftRest) ∧
      right.Perm ((mergeCommon left right).common ++ (mergeCommon left right).rightRest) := by
  fun_induction mergeCommon left right with
  | case1 right => exact ⟨.refl _, .refl _⟩
  | case2 a left => exact ⟨.refl _, .refl _⟩
  | case3 left right _ rest ih => exact ⟨ih.1.cons _, ih.2.cons _⟩
  | case4 a left b right _ _ rest ih => exact ⟨(ih.1.cons a).trans perm_middle.symm, ih.2⟩
  | case5 a left b right _ _ rest ih => exact ⟨ih.1, (ih.2.cons b).trans perm_middle.symm⟩

lemma split_perm (ctx : SymContext) (a b : SymRef) :
    (ctx.operands a).Perm ((splitCommonOperands ctx a b).common ++
      (splitCommonOperands ctx a b).leftRest) ∧
      (ctx.operands b).Perm ((splitCommonOperands ctx a b).common ++
        (splitCommonOperands ctx a b).rightRest) := by
  obtain ⟨hleft, hright⟩ := mergeCommon_perm (sortRefs (ctx.operands a)) (sortRefs (ctx.operands b))
  exact ⟨(perm_insertionSort _ _).symm.trans hleft, (perm_insertionSort _ _).symm.trans hright⟩

lemma isolatedProduct_lt {ctx : SymContext} {terms : List SymRef} {i : Nat}
    (h : isolatedProduct ctx terms = some i) : i < terms.length := by
  unfold isolatedProduct at h
  split at h
  next j heq =>
    obtain rfl := Option.some.inj h
    have hmem : j ∈ [j] := mem_singleton_self j
    rw [← heq] at hmem
    exact mem_range.mp (mem_of_mem_filter hmem)
  · exact nomatch h

end

variable {α : Type} {w : Nat}

structure Reads (ops : PlanOps α) (fits : α → Prop) (read : α → BitVec w) : Prop where
  zero : fits ops.zero ∧ read ops.zero = 0
  one : fits ops.one ∧ read ops.one = 1
  add : ∀ x y, fits x → fits y → fits (ops.add x y) ∧ read (ops.add x y) = read x + read y
  sub : ∀ x y, fits x → fits y → fits (ops.sub x y) ∧ read (ops.sub x y) = read x - read y
  mul : ∀ x y, fits x → fits y → fits (ops.mul x y) ∧ read (ops.mul x y) = read x * read y
  mask : ∀ x, fits x → fits (ops.mask x) ∧ read (ops.mask x) = read x
  vanishes : ∀ x, ops.isZero x = true → read x = 0
  isZero : ∀ x, fits x → (ops.isZero (ops.mask x) = true ↔ read x = 0)

lemma nativeOps_reads (ctx : SymContext) (hw : w ≤ 64) (lookup : Nat → BitVec 64) :
    Reads (nativeOps ctx w lookup) (fun _ => True) fun x => x.setWidth w := by
  have hmask : ∀ x : BitVec 64, (mask64 w x).setWidth w = x.setWidth w := by
    intro x
    apply eq_of_toNat_eq
    rw [toNat_setWidth, toNat_setWidth, toNat_mask64 hw, Nat.mod_mod]
  have hsub : ∀ x y : BitVec 64, (x - y).setWidth w = x.setWidth w - y.setWidth w := by
    intro x y
    rw [eq_sub_iff_add_eq, ← setWidth_add (x - y) y hw]
    exact congrArg _ (sub_add_cancel x y)
  refine ⟨⟨trivial, ?_⟩, ⟨trivial, ?_⟩, fun x y _ _ => ⟨trivial, setWidth_add x y hw⟩,
    fun x y _ _ => ⟨trivial, hsub x y⟩, fun x y _ _ => ⟨trivial, BitVec.setWidth_mul x y hw⟩,
    fun x _ => ⟨trivial, hmask x⟩, ?_, ?_⟩
  · exact setWidth_zero w 64
  · apply eq_of_toNat_eq
    show (BitVec.setWidth w 1#64).toNat = (1#w).toNat
    rw [toNat_setWidth, toNat_ofNat, toNat_ofNat, Nat.mod_mod_of_dvd _ (pow_dvd_pow 2 hw)]
  · intro x hx
    rw [of_decide_eq_true hx]
    exact setWidth_zero w 64
  · intro x _
    show decide (mask64 w x = 0) = true ↔ _
    rw [decide_eq_true_iff]
    constructor
    · intro h
      rw [← hmask, h]
      exact setWidth_zero w 64
    · intro h
      apply eq_of_toNat_eq
      have hnum := congrArg BitVec.toNat h
      rw [toNat_setWidth] at hnum
      rw [toNat_mask64 hw]
      exact hnum

lemma wideOps_reads (ctx : SymContext) (w : Nat) (lookup : Nat → Option APInt) :
    Reads (wideOps ctx w lookup) (fun x => x.width = w) fun x => x.read w := by
  have hself : ∀ {x : APInt}, x.width = w → (x.read w).toNat = x.toNat := by
    intro x hx
    rw [APInt.read, toNat_setWidth]
    exact Nat.mod_eq_of_lt (hx ▸ x.toNat_lt)
  have hzero : ∀ {x : APInt}, x.toNat = 0 → x.read w = 0 := by
    intro x hx
    apply eq_of_toNat_eq
    rw [APInt.read, toNat_setWidth]
    show x.toNat % 2 ^ w = _
    rw [hx, Nat.zero_mod]
    exact (BitVec.toNat_zero).symm
  have hread : ∀ {x : APInt} {y : BitVec w}, x.width = w → x.toNat = y.toNat → x.read w = y := by
    intro x y hx hy
    apply eq_of_toNat_eq
    rw [hself hx, hy]
  refine ⟨⟨rfl, hzero (BitVec.toNat_zero)⟩, ⟨rfl, BitVec.setWidth_eq _⟩, ?_, ?_, ?_,
    fun x hx => ⟨hx, rfl⟩, ?_, ?_⟩
  · intro x y hx hy
    refine ⟨hx, hread hx ?_⟩
    show (x.add y).toNat = _
    rw [toNat_add (hy.trans hx.symm), BitVec.toNat_add, hself hx, hself hy, hx]
  · intro x y hx hy
    refine ⟨hx, hread hx ?_⟩
    show (x.sub y).toNat = _
    rw [APInt.sub, APInt.ofNat_toNat, BitVec.toNat_sub, hself hx, hself hy, hx, add_comm]
  · intro x y hx hy
    refine ⟨hx, hread hx ?_⟩
    show (x.mul y).toNat = _
    rw [toNat_mul (hy.trans hx.symm), BitVec.toNat_mul, hself hx, hself hy, hx]
  · intro x hx
    exact hzero (of_decide_eq_true hx)
  · intro x hx
    constructor
    · intro h
      exact hzero (of_decide_eq_true h)
    · intro h
      apply decide_eq_true
      have hnum := congrArg BitVec.toNat h
      rw [hself hx] at hnum
      exact hnum

variable {ops : PlanOps α} {fits : α → Prop} {read : α → BitVec w} {ctx : SymContext}
    {v : SymRef → BitVec w}

def EvalsTo (ctx : SymContext) (eval : SymEvalPlan → α) (fits : α → Prop) (read : α → BitVec w)
    (v : SymRef → BitVec w)
    (r : SymRef) : Prop := fits (eval (SymEvalPlan.build ctx r)) ∧
    read (eval (SymEvalPlan.build ctx r)) = v r

lemma fold_reads {op : α → α → α} (total : BitVec w → List (BitVec w) → BitVec w)
    (hnil : ∀ x, total x [] = x)
    (hop : ∀ x y, fits x → fits y → fits (op x y) ∧ ∀ l, total (read (op x y)) l = total (read x)
    (read y :: l))
    (rs : List SymRef) {x : α} (hx : fits x) (hrs : ∀ r ∈ rs, EvalsTo ctx ops.eval fits read v r) :
    fits ((rs.map (build ctx)).foldl (fun x plan => op x (ops.eval plan)) x) ∧
      read ((rs.map (build ctx)).foldl (fun x plan => op x (ops.eval plan)) x) = total (read x)
        (rs.map v) := by
  induction rs generalizing x with
  | nil => exact ⟨hx, (hnil _).symm⟩
  | cons r rs ih =>
    obtain ⟨hfit, hval⟩ := hrs r mem_cons_self
    obtain ⟨hfits, hread⟩ := hop x _ hx hfit
    obtain ⟨h1, h2⟩ := ih hfits fun q hq => hrs q (mem_cons_of_mem _ hq)
    exact ⟨h1, by rw [map_cons, foldl_cons, h2, hread, hval, map_cons]⟩

lemma Reads.sums (h : Reads ops fits read)
    (hleft : ∀ r ∈ left, EvalsTo ctx ops.eval fits read v r)
    (hright : ∀ r ∈ right, EvalsTo ctx ops.eval fits read v r) :
    fits (differenceOf ops (left.map (build ctx)) (right.map (build ctx))) ∧
      read (differenceOf ops (left.map (build ctx)) (right.map (build ctx))) =
        (left.map v).sum - (right.map v).sum := by
  obtain ⟨h1, h2⟩ := fold_reads (fun x l => x + l.sum) add_zero
    (fun x y hx hy => ⟨(h.add x y hx hy).1,
      fun l => by rw [(h.add x y hx hy).2, sum_cons, add_assoc]⟩) left h.zero.1 hleft
  obtain ⟨h3, h4⟩ := fold_reads (fun x l => x - l.sum) sub_zero
    (fun x y hx hy => ⟨(h.sub x y hx hy).1,
      fun l => by rw [(h.sub x y hx hy).2, sum_cons, sub_sub]⟩) right h1 hright
  refine ⟨h3, ?_⟩
  rw [differenceOf, h4, h2, h.zero.2, zero_add]

lemma Reads.product (h : Reads ops fits read) {rs : List SymRef}
    (hrs : ∀ r ∈ rs, EvalsTo ctx ops.eval fits read v r) :
      fits (productOf ops (rs.map (build ctx))) ∧
      read (productOf ops (rs.map (build ctx))) = (rs.map v).prod := by
  obtain ⟨h1, h2⟩ := fold_reads (fun x l => x * l.prod) mul_one
    (fun x y hx hy => ⟨(h.mul x y hx hy).1,
      fun l => by rw [(h.mul x y hx hy).2, prod_cons, mul_assoc]⟩) rs h.one.1 hrs
  exact ⟨h1, by rw [productOf, h2, h.one.2, one_mul]⟩

def Compiled (ctx : SymContext) (common : List SymRef) (plans : List SymEvalPlan) : Prop :=
  plans = (common.take plans.length).map (SymEvalPlan.build ctx)

/-- A plan is the one of its factor, whether it was compiled before or is compiled now. -/
theorem commonPlan_spec {plans : List SymEvalPlan} (h : Compiled ctx common plans) {i : Nat}
    (hi : i < common.length) (hready : i ≤ plans.length) :
    ((commonPlan ctx common i).run plans).1 = build ctx (common.getD i 0) ∧
      Compiled ctx common ((commonPlan ctx common i).run plans).2 ∧
      i + 1 ≤ ((commonPlan ctx common i).run plans).2.length := by
  have hget : ∀ {plans : List SymEvalPlan}, Compiled ctx common plans → i < plans.length →
      plans.getD i ⟨[], 0⟩ = build ctx (common.getD i 0) := by
    intro plans hplans hlt
    rw [List.getD, hplans, getElem?_map, getElem?_take_of_lt hlt, List.getD, getElem?_eq_getElem hi]
    rfl
  show (if plans.length = i then plans ++ [build ctx (common.getD i 0)] else plans).getD i ⟨[], 0⟩ =
    _ ∧
    Compiled ctx common (if plans.length = i then plans ++ [build ctx (common.getD i 0)]
      else plans) ∧
    i + 1 ≤ (if plans.length = i then plans ++ [build ctx (common.getD i 0)] else plans).length
  split
  next heq =>
    have hnew : Compiled ctx common (plans ++ [build ctx (common.getD i 0)]) := by
      unfold Compiled at h ⊢
      rw [length_append, length_singleton, heq, take_add_one, map_append, ← heq, ← h, heq,
        getElem?_eq_getElem hi, List.getD, getElem?_eq_getElem hi]
      rfl
    have hlt : i < (plans ++ [build ctx (common.getD i 0)]).length := by
      rw [length_append, length_singleton]
      omega
    exact ⟨hget hnew hlt, hnew, hlt⟩
  next hne =>
    have hlt : i < plans.length := by omega
    exact ⟨hget h hlt, h, hlt⟩

variable (h : Reads ops fits read)
include h

theorem Reads.scale
    (hcommon : ∀ r ∈ common, EvalsTo ctx ops.evalCommon fits read v r) {n i : Nat}
    (hn : i + n = common.length)
    {difference : α} (hd : fits difference) {plans : List SymEvalPlan}
    (hplans : Compiled ctx common plans)
    (hready : i ≤ plans.length) :
      Compiled ctx common ((scaleByCommon ctx ops common n i difference).run plans).2 ∧
      fits ((scaleByCommon ctx ops common n i difference).run plans).1 ∧
      read ((scaleByCommon ctx ops common n i difference).run plans).1 =
        read difference * ((common.drop i).map v).prod := by
  induction n generalizing i difference plans with
  | zero =>
    refine ⟨hplans, hd, ?_⟩
    rw [drop_of_length_le (by omega)]
    exact (mul_one _).symm
  | succ n ih =>
    unfold scaleByCommon
    split
    next hzero =>
      refine ⟨hplans, hd, ?_⟩
      rw [h.vanishes _ hzero, zero_mul]
      exact h.vanishes _ hzero
    · have hi : i < common.length := by omega
      obtain ⟨hplan, hplans', hready'⟩ := commonPlan_spec hplans hi hready
      have hget : common.getD i 0 = common[i] := by
        rw [List.getD, getElem?_eq_getElem hi]
        rfl
      obtain ⟨hfit, hval⟩ := hcommon common[i] (getElem_mem hi)
      rw [← hget, ← hplan] at hfit hval
      obtain ⟨hmul, hmulread⟩ := h.mul difference _ hd hfit
      obtain ⟨hmask, hmaskread⟩ := h.mask _ hmul
      obtain ⟨h1, h2, h3⟩ := ih (by omega) hmask hplans' hready'
      refine ⟨h1, h2, ?_⟩
      refine h3.trans ?_
      rw [hmaskread, hmulread, hval, drop_eq_getElem_cons hi, map_cons, prod_cons, mul_assoc, hget]

lemma Reads.checkProducts {leftSums rightSums : List SymRef}
    (hcommon : ∀ r ∈ common, EvalsTo ctx ops.evalCommon fits read v r)
    (hrest : ∀ r ∈ left ++ right ++ leftSums ++ rightSums, EvalsTo ctx ops.eval fits read v r) :
    Checks (Compiled ctx common) (Mba.checkProducts ctx ops common (left.map (build ctx))
      (right.map (build ctx)) (leftSums.map (build ctx)) (rightSums.map (build ctx)))
      (((left.map v).prod - (right.map v).prod) * (common.map v).prod +
        ((leftSums.map v).sum - (rightSums.map v).sum) = 0) := by
  have hmem := fun r (hr : r ∈ left ∨ r ∈ right ∨ r ∈ leftSums ∨ r ∈ rightSums) => hrest r (by
    simp only [mem_append]
    tauto)
  intro plans hplans
  obtain ⟨hl, hlread⟩ := h.product fun r hr => hmem r (.inl hr)
  obtain ⟨hr, hrread⟩ := h.product fun r hr => hmem r (.inr (.inl hr))
  obtain ⟨hs, hsread⟩ := h.sums (fun r hr => hmem r (.inr (.inr (.inl hr))))
    (fun r hr => hmem r (.inr (.inr (.inr hr))))
  obtain ⟨hd, hdread⟩ := h.sub _ _ hl hr
  obtain ⟨hm, hmread⟩ := h.mask _ hd
  obtain ⟨h1, h2, h3⟩ := h.scale hcommon (zero_add _) hm hplans (Nat.zero_le _)
  obtain ⟨ha, haread⟩ := h.add _ _ h2 hs
  refine ⟨h1, (h.isZero _ ha).trans ?_⟩
  rw [haread, h3, hmread, hdread, hlread, hrread, hsread, drop_zero]

lemma Reads.checkSums (hrest : ∀ r ∈ left ++ right, EvalsTo ctx ops.eval fits read v r) :
    Mba.checkSums ops (left.map (build ctx)) (right.map (build ctx)) = true ↔
      (left.map v).sum - (right.map v).sum = 0 := by
  obtain ⟨hs, hsread⟩ := h.sums (fun r hr => hrest r (mem_append_left _ hr))
    (fun r hr => hrest r (mem_append_right _ hr))
  rw [Mba.checkSums, h.isZero _ hs, hsread]

omit h

end NeverD.Mba
