import NeverD.Mba.Agreement
import NeverD.Sym.Meaning

namespace NeverD.Mba
open Lib NeverD.Sym Words List SymContext

variable {ids : List Nat} {id : Nat}

section

variable [BlockHash] {ctx : SymContext} {w : Nat} {r : SymRef}

variable (h : ctx.Typed)
include h

lemma operands_leaf : ∀ a, ctx.op a = .var → ctx.operands a = [] := by
  intro a hop
  by_cases ha : a < ctx.nodes.length
  · exact (h.nodes a ha).leaf (.inr hop)
  · have hnode : ctx.node a = ⟨.const, 0, 0, 0, 0⟩ := by
      rw [node, List.getD, getElem?_eq_none (not_lt.mp ha)]
      rfl
    rw [op, hnode] at hop
    cases hop

variable (hr : r < ctx.nodes.length)
include hr

lemma below_lt {c : SymRef} (hc : ctx.Below r c) : c < ctx.nodes.length := by
  induction hc with
  | refl => exact hr
  | tail _ hb ih => exact h.operand_lt ih hb

lemma varWidth_eq (hop : ctx.op r = .var) : ctx.varWidth (ctx.aux r) = ctx.width r := by
  obtain ⟨v, hv, hw⟩ := (h.nodes r hr).var hop
  rw [varWidth, hv]
  exact hw

lemma varWidth_pos (huses : ctx.UsesVar r id) : 0 < ctx.varWidth id := by
  obtain ⟨c, hc, hop, rfl⟩ := huses
  have hlt := below_lt h hr hc
  rw [varWidth_eq h hlt hop]
  exact (h.nodes c hlt).positive

theorem varWidth_fits
    (hfits : (SymEvalPlan.build ctx r).fitsU64 ctx = true) (huses : ctx.UsesVar r id) :
    ctx.varWidth id ≤ 64 := by
  obtain ⟨st, hst⟩ := h.toAcyclic.lowered hr
  obtain ⟨c, hc, hop, rfl⟩ := huses
  rw [varWidth_eq h (below_lt h hr hc) hop]
  exact hst.fits_iff.mp hfits c (hst.mem_iff.mpr hc)

lemma mem_plan_vars : id ∈ (SymEvalPlan.build ctx r).vars ctx ↔ ctx.UsesVar r id := by
  obtain ⟨st, hst⟩ := h.toAcyclic.lowered hr
  exact hst.mem_vars

omit hr

omit h

def wordAt (ctx : SymContext) (vals : List APInt) (w : Nat) (r : SymRef) : BitVec w :=
  BitVec.ofNat w (ctx.num vals r)

omit [BlockHash] in
lemma read_value (vals : List APInt) (w : Nat) :
    (ctx.value vals r).read w = wordAt ctx vals w r := by
  apply BitVec.eq_of_toNat_eq
  rw [APInt.read, BitVec.toNat_setWidth, wordAt, BitVec.toNat_ofNat]
  rfl

variable {vals : List APInt}

lemma evalsTo_wide (h : ctx.Typed) (hr : r < ctx.nodes.length) (hw : ctx.width r = w)
    {lookup : Nat → Option APInt} (hlookup : ∀ id, ctx.UsesVar r id → lookup id = vals[id]?) :
    EvalsTo ctx (fun plan => plan.evalLookup ctx lookup) (fun x => x.width = w) (fun x => x.read w)
      (wordAt ctx vals w) r := by
  obtain ⟨st, hst⟩ := h.toAcyclic.lowered hr
  have hvalue := hst.evalLookup_eq h.toAcyclic vals hlookup
  have hwidth := (h.value_width vals hr).trans hw
  show APInt.width (SymEvalPlan.evalLookup ctx _ lookup) = w ∧
    (SymEvalPlan.evalLookup ctx _ lookup).read w = _
  rw [hvalue]
  exact ⟨hwidth, read_value vals w⟩

variable {lookup : Nat → BitVec 64}

variable (h : ctx.Typed)
include h

variable (hr : r < ctx.nodes.length)
include hr

lemma evalU64With_word (hreads : ReadsWords ctx ids lookup vals)
    (hids : ∀ id, ctx.UsesVar r id → id ∈ ids)
    (hfits : (SymEvalPlan.build ctx r).fitsU64 ctx = true) :
    (SymEvalPlan.build ctx r).evalU64With ctx lookup = ctx.word64 vals r := by
  obtain ⟨st, hst⟩ := h.toAcyclic.lowered hr
  apply hst.evalU64With_eq h vals hfits
  intro c hc hop
  have hbelow := hst.mem_iff.mp hc
  obtain ⟨hget, hlt⟩ := hreads _ (hids _ ⟨c, hbelow, hop, rfl⟩)
  rw [varWidth_eq h (below_lt h hr hbelow) hop] at hget hlt
  rw [toNat_mask64 (hst.fits_iff.mp hfits c hc), varValue, hget]
  dsimp only
  rw [if_pos (APInt.ofNat_width _ _), APInt.ofNat_toNat]

lemma evalsTo_native (hw : ctx.width r = w) (hle : w ≤ 64) (hreads : ReadsWords ctx ids lookup vals)
    (hids : ∀ id, ctx.UsesVar r id → id ∈ ids)
    (hfits : (SymEvalPlan.build ctx r).fitsU64 ctx = true) :
    EvalsTo ctx (nativeOps ctx w lookup).eval (fun _ => True) (fun x => x.setWidth w)
      (wordAt ctx vals w) r := by
  refine ⟨trivial, ?_⟩
  show ((SymEvalPlan.build ctx r).evalU64With ctx lookup).setWidth w = _
  rw [evalU64With_word h hr hreads hids hfits]
  apply BitVec.eq_of_toNat_eq
  rw [BitVec.toNat_setWidth, toNat_word64 h vals hr (hw.trans_le hle), wordAt, BitVec.toNat_ofNat]

theorem evalsTo_common (hw : ctx.width r = w) (hle : w ≤ 64)
    (hreads : ReadsWords ctx ids lookup vals) (hids : ∀ id, ctx.UsesVar r id → id ∈ ids) :
    EvalsTo ctx (nativeOps ctx w lookup).evalCommon (fun _ => True) (fun x => x.setWidth w)
      (wordAt ctx vals w) r := by
  by_cases hfits : (SymEvalPlan.build ctx r).fitsU64 ctx = true
  · have hnative := (evalsTo_native h hr hw hle hreads hids hfits).2
    refine ⟨trivial, ?_⟩
    show (if _ then _ else _ : BitVec 64).setWidth w = _
    rw [if_pos hfits]
    exact hnative
  · refine ⟨trivial, ?_⟩
    show (if _ then _ else _ : BitVec 64).setWidth w = _
    rw [if_neg hfits]
    obtain ⟨st, hst⟩ := h.toAcyclic.lowered hr
    rw [hst.evalLookup_eq h.toAcyclic vals fun id huses => (hreads id (hids id huses)).1.symm]
    apply BitVec.eq_of_toNat_eq
    have hlt : ctx.num vals r < 2 ^ 64 :=
      (h.num_lt vals hr).trans_le (Nat.pow_le_pow_right two_pos (hw.trans_le hle))
    rw [BitVec.toNat_setWidth, BitVec.toNat_ofNat, wordAt, BitVec.toNat_ofNat]
    show ctx.num vals r % 2 ^ 64 % 2 ^ w = _
    rw [Nat.mod_eq_of_lt hlt]

omit hr

lemma eval_eq_iff {a b : SymRef} (ha : a < ctx.nodes.length) (hb : b < ctx.nodes.length)
    (hwa : ctx.width a = w) (hwb : ctx.width b = w) (vals : List APInt) :
    ctx.eval a vals = ctx.eval b vals ↔ wordAt ctx vals w a - wordAt ctx vals w b = 0 := by
  rw [h.toAcyclic.eval_eq vals ha, h.toAcyclic.eval_eq vals hb, sub_eq_zero]
  have hlt : ∀ {r}, r < ctx.nodes.length → ctx.width r = w → ctx.num vals r < 2 ^ w :=
    fun hr hw => hw ▸ h.num_lt vals hr
  constructor
  · intro heq
    rw [wordAt, wordAt, num, num, heq]
  · intro heq
    have hnum := congrArg BitVec.toNat heq
    rw [wordAt, wordAt, BitVec.toNat_ofNat, BitVec.toNat_ofNat, Nat.mod_eq_of_lt (hlt ha hwa),
      Nat.mod_eq_of_lt (hlt hb hwb)] at hnum
    apply APInt.ext _ hnum
    rw [h.value_width vals ha, h.value_width vals hb, hwa, hwb]

variable (hr : r < ctx.nodes.length)
include hr

lemma wordAt_mul (hop : ctx.op r = .mul) (hw : ctx.width r = w)
    (vals : List APInt) :
    wordAt ctx vals w r = ((ctx.operands r).map (wordAt ctx vals w)).prod := by
  have hnum := h.num_eq vals hr (by rw [hop]; decide) (by rw [hop]; decide)
  rw [hop, hw] at hnum
  have hprod : ∀ xs : List SymRef, ((xs.map (wordAt ctx vals w)).prod).toNat =
      (xs.map (ctx.num vals)).prod % 2 ^ w := by
    intro xs
    induction xs with
    | nil => exact BitVec.toNat_ofNat 1 w
    | cons x xs ih =>
      rw [map_cons, prod_cons, BitVec.toNat_mul, ih, wordAt, BitVec.toNat_ofNat, map_cons,
        prod_cons, ← Nat.mul_mod]
  apply BitVec.eq_of_toNat_eq
  rw [hprod, wordAt, BitVec.toNat_ofNat, hnum]
  show mulAll w (List.map Prod.snd _) % 2 ^ w = _
  rw [map_map, mulAll, Nat.mod_mod]
  rfl

lemma wordAt_add (hop : ctx.op r = .add) (hw : ctx.width r = w)
    (vals : List APInt) : wordAt ctx vals w r = ((ctx.operands r).map (wordAt ctx vals w)).sum := by
  have hnum := h.num_eq vals hr (by rw [hop]; decide) (by rw [hop]; decide)
  rw [hop, hw] at hnum
  have hsum : ∀ xs : List SymRef, ((xs.map (wordAt ctx vals w)).sum).toNat =
      (xs.map (ctx.num vals)).sum % 2 ^ w := by
    intro xs
    induction xs with
    | nil => exact BitVec.toNat_ofNat 0 w
    | cons x xs ih =>
      rw [map_cons, sum_cons, BitVec.toNat_add, ih, wordAt, BitVec.toNat_ofNat, map_cons, sum_cons,
        ← Nat.add_mod]
  apply BitVec.eq_of_toNat_eq
  rw [hsum, wordAt, BitVec.toNat_ofNat, hnum]
  show addAll w (List.map Prod.snd _) % 2 ^ w = _
  rw [map_map, addAll, Nat.mod_mod]
  rfl

theorem operand_shape (hop : ctx.op r = .add ∨ ctx.op r = .mul)
    (hw : ctx.width r = w) : ∀ c ∈ ctx.operands r, c < ctx.nodes.length ∧ ctx.width c = w := by
  intro c hc
  have hshape := h.shapes r hr
  refine ⟨h.operand_lt hr hc, ?_⟩
  rcases hop with hop | hop
  all_goals
    rw [hop, hw] at hshape
    exact hshape.2 _ (mem_map_of_mem hc)

omit hr

lemma mem_collected {rs : List SymRef} {out : List Nat} :
    id ∈ rs.foldl (fun vars r => ctx.collectVars r vars) out ↔ id ∈ out ∨
      ∃ r ∈ rs, ctx.UsesVar r id := by
  induction rs generalizing out with
  | nil => simp
  | cons r rs ih =>
    rw [foldl_cons, ih, mem_collectVars (operands_leaf h), exists_mem_cons_iff, or_assoc]

end

section

variable [BlockHash] {ctx : SymContext} {a b : SymRef} {w samples : Nat}

def Nodes (ctx : SymContext) (w : Nat) (rs : List SymRef) : Prop :=
  ∀ r ∈ rs, r < ctx.nodes.length ∧ ctx.width r = w

theorem checks_plans {σ : Type} (ok : σ → Prop) (h : ctx.Typed) {common rest : List SymRef}
    (hcommon : ∀ r ∈ common, r < ctx.nodes.length) (hrest : Nodes ctx w rest)
    {checkNative : (Nat → BitVec 64) → StateM σ Bool} {checkWide : (Nat → Option APInt) →
    StateM σ Bool}
    (verdict : List APInt → Prop)
      (hnative : w ≤ 64 → ∀ ids lookup vals, ReadsWords ctx ids lookup vals →
      (∀ r ∈ common ++ rest, ∀ id, ctx.UsesVar r id → id ∈ ids) →
      (∀ r ∈ rest, EvalsTo ctx (nativeOps ctx w lookup).eval (fun _ => True) (fun x => x.setWidth w)
        (wordAt ctx vals w) r) → Checks ok (checkNative lookup) (verdict vals))
    (hwide : ∀ lookup vals, (∀ r ∈ common ++ rest, ∀ id, ctx.UsesVar r id → lookup id = vals[id]?) →
      Checks ok (checkWide lookup) (verdict vals))
        (hids : ∀ id, id ∈ ids ↔ ∃ r ∈ common ++ rest, ctx.UsesVar r id) :
    let vars := common.foldl (fun vars r => ctx.collectVars r vars) []
    let plans := rest.map (SymEvalPlan.build ctx)
    Checks ok (agreeOnAssignments ctx (vars ++ plans.flatMap (SymEvalPlan.vars ctx)) samples
      (decide (w ≤ 64) && (vars.all fun id => ctx.varWidth id ≤ 64) &&
        plans.all (SymEvalPlan.fitsU64 ctx))
      checkNative checkWide) (∀ s < samples, verdict (sampleVals ctx (sortedUnique ids) s)) := by
  intro vars plans
  have hlt : ∀ r ∈ common ++ rest, r < ctx.nodes.length := by
    intro r hr
    exact (mem_append.mp hr).elim (hcommon r) fun hr => (hrest r hr).1
  have hvars : ∀ id, id ∈ vars ++ plans.flatMap (SymEvalPlan.vars ctx) ↔ id ∈ ids := by
    intro id
    rw [hids, mem_append, mem_collected h, or_iff_right not_mem_nil]
    constructor
    · intro hid
      rcases hid with ⟨r, hr, huses⟩ | hid
      · exact ⟨r, mem_append_left _ hr, huses⟩
      · obtain ⟨plan, hplan, hid⟩ := mem_flatMap.mp hid
        obtain ⟨r, hr, rfl⟩ := mem_map.mp hplan
        exact ⟨r, mem_append_right _ hr, (mem_plan_vars h (hrest r hr).1).mp hid⟩
    · intro ⟨r, hr, huses⟩
      rcases mem_append.mp hr with hr | hr
      · exact Or.inl ⟨r, hr, huses⟩
      · exact Or.inr (mem_flatMap.mpr ⟨_, mem_map_of_mem hr,
          (mem_plan_vars h (hrest r hr).1).mpr huses⟩)
  have huses : ∀ r ∈ common ++ rest, ∀ id, ctx.UsesVar r id →
      id ∈ vars ++ plans.flatMap (SymEvalPlan.vars ctx) :=
    fun r hr id hid => (hvars id).mpr ((hids id).mpr ⟨r, hr, hid⟩)
  rw [← sortedUnique_congr hvars]
  refine checks_agreeOnAssignments ok verdict ?_ ?_ fun lookup vals hlookup =>
    hwide lookup vals fun r hr id hid => hlookup id (huses r hr id hid)
  · intro hn id hid
    simp only [Bool.and_eq_true, decide_eq_true_eq] at hn
    obtain ⟨⟨_, hnarrow⟩, hfits⟩ := hn
    obtain ⟨r, hr, hu⟩ := (hids id).mp ((hvars id).mp hid)
    refine ⟨varWidth_pos h (hlt r hr) hu, ?_⟩
    rcases mem_append.mp hr with hr | hr
    · exact of_decide_eq_true
        (all_eq_true.mp hnarrow id ((mem_collected h).mpr (Or.inr ⟨r, hr, hu⟩)))
    · exact varWidth_fits h (hrest r hr).1 (all_eq_true.mp hfits _ (mem_map_of_mem hr)) hu
  · intro hn lookup vals hreads
    simp only [Bool.and_eq_true, decide_eq_true_eq] at hn
    obtain ⟨⟨hw, _⟩, hfits⟩ := hn
    refine hnative hw _ lookup vals hreads huses ?_
    intro r hr
    exact evalsTo_native h (hrest r hr).1 (hrest r hr).2 hw hreads (huses r (mem_append_right _ hr))
      (all_eq_true.mp hfits _ (mem_map_of_mem hr))

def Covers (ctx : SymContext) (ids : List Nat) (rs : List SymRef) : Prop :=
  ∀ id, id ∈ ids ↔ ∃ r ∈ rs, ctx.UsesVar r id

omit [BlockHash] in
lemma uses_operands {rs : List SymRef} (hop : ctx.op a ≠ .var) (hperm : (ctx.operands a).Perm rs)
    (id : Nat) : ctx.UsesVar a id ↔ ∃ r ∈ rs, ctx.UsesVar r id := by
  rw [usesVar_iff hop]
  constructor
  · intro ⟨r, hr, hu⟩
    exact ⟨r, hperm.mem_iff.mp hr, hu⟩
  · intro ⟨r, hr, hu⟩
    exact ⟨r, hperm.mem_iff.mpr hr, hu⟩

omit [BlockHash] in
lemma or_regroup {c m l r x y : Prop} : (c ∨ (m ∨ l) ∨ (m ∨ r) ∨ x ∨ y) ↔
    ((c ∨ m) ∨ ((l ∨ r) ∨ x) ∨ y) := by tauto

/-- Products, with addends beside them, agree on the samples as the whole sums do. -/
theorem factored_iff (h : ctx.Typed) (ha : a < ctx.nodes.length) (hb : b < ctx.nodes.length)
    (hw : ctx.width a = w)
    {canceled leftAddends rightAddends : List SymRef}
    (hcanceled : ∀ r ∈ canceled, r < ctx.nodes.length)
    (hleft : Nodes ctx w leftAddends) (hright : Nodes ctx w rightAddends)
    (hids : Covers ctx ids (canceled ++ a :: b :: (leftAddends ++ rightAddends))) {agrees : Bool}
    (hrun : agreeAfterFactoringProducts ctx a b samples canceled leftAddends rightAddends =
    some agrees) :
    agrees = true ↔ ∀ s < samples, let v := wordAt ctx (sampleVals ctx (sortedUnique ids) s) w
      v a - v b + ((leftAddends.map v).sum - (rightAddends.map v).sum) = 0 := by
  unfold agreeAfterFactoringProducts at hrun
  split at hrun
  · exact nomatch hrun
  rename_i hshape
  obtain ⟨hopa, hopb, hwab⟩ : ctx.op a = .mul ∧ ctx.op b = .mul ∧ ctx.width a = ctx.width b := by
    refine ⟨?_, ?_, ?_⟩
    all_goals
      by_contra hne
      exact hshape (by tauto)
  dsimp only at hrun
  split at hrun
  · exact nomatch hrun
  obtain ⟨hpa, hpb⟩ := split_perm ctx a b
  generalize splitCommonOperands ctx a b = split at hpa hpb hrun
  rw [hw] at hrun hwab
  have hmula := operand_shape h ha (.inr hopa) hw
  have hmulb := operand_shape h hb (.inr hopb) hwab.symm
  have hcommon : Nodes ctx w split.common :=
    fun r hr => hmula r (hpa.mem_iff.mpr (mem_append_left _ hr))
  have hleftRest : Nodes ctx w split.leftRest :=
    fun r hr => hmula r (hpa.mem_iff.mpr (mem_append_right _ hr))
  have hrightRest : Nodes ctx w split.rightRest :=
    fun r hr => hmulb r (hpb.mem_iff.mpr (mem_append_right _ hr))
  have hrest : Nodes ctx w (split.leftRest ++ split.rightRest ++ leftAddends ++ rightAddends) := by
    intro r hr
    simp only [mem_append] at hr
    rcases hr with ((hr | hr) | hr) | hr
    · exact hleftRest r hr
    · exact hrightRest r hr
    · exact hleft r hr
    · exact hright r hr
  have hvalue : ∀ vals,
      (((split.leftRest.map (wordAt ctx vals w)).prod
        - (split.rightRest.map (wordAt ctx vals w)).prod) *
      (split.common.map (wordAt ctx vals w)).prod + ((leftAddends.map (wordAt ctx vals w)).sum -
        (rightAddends.map (wordAt ctx vals w)).sum) = 0) ↔
        wordAt ctx vals w a - wordAt ctx vals w b +
      ((leftAddends.map (wordAt ctx vals w)).sum - (rightAddends.map (wordAt ctx vals w)).sum) =
        0 := by
    intro vals
    rw [wordAt_mul h ha hopa hw, wordAt_mul h hb hopb hwab.symm, (hpa.map _).prod_eq,
      (hpb.map _).prod_eq, map_append, map_append, prod_append, prod_append, sub_mul,
      mul_comm (split.leftRest.map _).prod, mul_comm (split.rightRest.map _).prod]
  have hids' : ∀ id, id ∈ ids ↔ ∃ r ∈ canceled ++ split.common ++
      (split.leftRest ++ split.rightRest ++ leftAddends ++ rightAddends), ctx.UsesVar r id := by
    intro id
    have hvara := uses_operands (by rw [hopa]; decide) hpa id
    have hvarb := uses_operands (by rw [hopb]; decide) hpb id
    rw [hids id]
    simp only [mem_append, mem_cons, or_and_right, exists_or, exists_eq_left] at hvara hvarb ⊢
    rw [hvara, hvarb]
    exact or_regroup
  rw [← Option.some.inj hrun, ← map_append, ← map_append, ← map_append]
  refine (checks_plans (Compiled ctx split.common) h
    (fun r hr => (mem_append.mp hr).elim (hcanceled r) fun hr => (hcommon r hr).1) hrest
    (fun vals => wordAt ctx vals w a - wordAt ctx vals w b +
      ((leftAddends.map (wordAt ctx vals w)).sum -
      (rightAddends.map (wordAt ctx vals w)).sum) = 0) ?_ ?_ hids' [] rfl).2
  · intro hle ids lookup vals hreads huses hevals
    refine ((nativeOps_reads ctx hle lookup).checkProducts ?_ hevals).congr (hvalue vals)
    intro r hr
    exact evalsTo_common h (hcommon r hr).1 (hcommon r hr).2 hle hreads
      (huses r (mem_append_left _ (mem_append_right _ hr)))
  · intro lookup vals hlookup
    refine ((wideOps_reads ctx w lookup).checkProducts ?_ ?_).congr (hvalue vals)
    · intro r hr
      exact evalsTo_wide h (hcommon r hr).1 (hcommon r hr).2
        (hlookup r (mem_append_left _ (mem_append_right _ hr)))
    · intro r hr
      exact evalsTo_wide h (hrest r hr).1 (hrest r hr).2 (hlookup r (mem_append_right _ hr))

/-- Sums without their common addends agree on the samples as the whole sums do. -/
theorem canceled_iff (h : ctx.Typed) (ha : a < ctx.nodes.length) (hb : b < ctx.nodes.length)
    (hw : ctx.width a = w)
    (hids : Covers ctx ids [a, b]) {agrees : Bool}
    (hrun : agreeAfterCancelingAddends ctx a b samples = some agrees) :
    agrees = true ↔ ∀ s < samples, wordAt ctx (sampleVals ctx (sortedUnique ids) s) w a -
      wordAt ctx (sampleVals ctx (sortedUnique ids) s) w b = 0 := by
  unfold agreeAfterCancelingAddends at hrun
  split at hrun
  · exact nomatch hrun
  rename_i hshape
  obtain ⟨hopa, hopb, hwab⟩ : ctx.op a = .add ∧ ctx.op b = .add ∧ ctx.width a = ctx.width b := by
    refine ⟨?_, ?_, ?_⟩
    all_goals
      by_contra hne
      exact hshape (by tauto)
  dsimp only at hrun
  obtain ⟨hpa, hpb⟩ := split_perm ctx a b
  generalize splitCommonOperands ctx a b = split at hpa hpb hrun
  rw [hw] at hrun hwab
  have hadda := operand_shape h ha (.inl hopa) hw
  have haddb := operand_shape h hb (.inl hopb) hwab.symm
  have hcommon : Nodes ctx w split.common :=
    fun r hr => hadda r (hpa.mem_iff.mpr (mem_append_left _ hr))
  have hleftRest : Nodes ctx w split.leftRest :=
    fun r hr => hadda r (hpa.mem_iff.mpr (mem_append_right _ hr))
  have hrightRest : Nodes ctx w split.rightRest :=
    fun r hr => haddb r (hpb.mem_iff.mpr (mem_append_right _ hr))
  have hdifference : ∀ vals, wordAt ctx vals w a - wordAt ctx vals w b =
      (split.leftRest.map (wordAt ctx vals w)).sum
      - (split.rightRest.map (wordAt ctx vals w)).sum := by
    intro vals
    rw [wordAt_add h ha hopa hw, wordAt_add h hb hopb hwab.symm, (hpa.map _).sum_eq,
      (hpb.map _).sum_eq, map_append, map_append, sum_append, sum_append, add_sub_add_left_eq_sub]
  have huses : ∀ id, id ∈ ids ↔ ∃ r ∈ split.common ++ (split.leftRest ++ split.rightRest),
      ctx.UsesVar r id := by
    intro id
    have hvara := uses_operands (by rw [hopa]; decide) hpa id
    have hvarb := uses_operands (by rw [hopb]; decide) hpb id
    rw [hids id]
    simp only [mem_append, mem_cons, not_mem_nil, or_false, or_and_right, exists_or,
      exists_eq_left] at hvara hvarb ⊢
    rw [hvara, hvarb]
    exact or_or_distrib_left.symm
  split at hrun
  · -- The products that remain are compared with the other addends beside them.
    rename_i agrees' hfactored
    cases hrun
    split at hfactored
    next i j hi hj =>
      have hi' := isolatedProduct_lt hi
      have hj' := isolatedProduct_lt hj
      have hgeti : split.leftRest.getD i 0 = split.leftRest[i] := by
        rw [List.getD, getElem?_eq_getElem hi']
        rfl
      have hgetj : split.rightRest.getD j 0 = split.rightRest[j] := by
        rw [List.getD, getElem?_eq_getElem hj']
        rfl
      have hperm := getElem_cons_eraseIdx_perm hi'
      have hperm' := getElem_cons_eraseIdx_perm hj'
      rw [hgeti, hgetj] at hfactored
      have hmem : ∀ {r}, r ∈ split.leftRest.eraseIdx i → r ∈ split.leftRest := mem_of_mem_eraseIdx
      have hmem' : ∀ {r}, r ∈ split.rightRest.eraseIdx j → r ∈ split.rightRest :=
        mem_of_mem_eraseIdx
      have hlefti := hleftRest _ (getElem_mem hi')
      have hrightj := hrightRest _ (getElem_mem hj')
      have hcovers : Covers ctx ids (split.common ++ split.leftRest[i] :: split.rightRest[j] ::
          (split.leftRest.eraseIdx i ++ split.rightRest.eraseIdx j)) := by
        intro id
        rw [huses id]
        have hswap : (split.leftRest[i] :: split.rightRest[j] ::
            (split.leftRest.eraseIdx i ++ split.rightRest.eraseIdx j)).Perm
            (split.leftRest ++ split.rightRest) :=
          (List.Perm.cons _ perm_middle.symm).trans (hperm.append hperm')
        constructor
        · intro ⟨r, hr, hu⟩
          exact ⟨r, (hswap.append_left _).mem_iff.mpr hr, hu⟩
        · intro ⟨r, hr, hu⟩
          exact ⟨r, (hswap.append_left _).mem_iff.mp hr, hu⟩
      refine (factored_iff h hlefti.1 hrightj.1 hlefti.2 (fun r hr => (hcommon r hr).1)
        (fun r hr => hleftRest r (hmem hr)) (fun r hr => hrightRest r (hmem' hr))
        hcovers hfactored).trans ?_
      refine forall₂_congr fun s _ => ?_
      rw [hdifference, ← ((hperm.map (wordAt ctx (sampleVals ctx (sortedUnique ids) s) w)).sum_eq),
        ← ((hperm'.map (wordAt ctx (sampleVals ctx (sortedUnique ids) s) w)).sum_eq), map_cons,
        map_cons,
        sum_cons, sum_cons, add_sub_add_comm]
    · exact nomatch hfactored
  · split at hrun
    · exact nomatch hrun
    have hrest : Nodes ctx w (split.leftRest ++ split.rightRest) := fun r hr =>
      (mem_append.mp hr).elim (hleftRest r) (hrightRest r)
    rw [← Option.some.inj hrun, ← map_append]
    refine (checks_plans (fun _ : Unit => True) h (fun r hr => (hcommon r hr).1) hrest
      (fun vals => wordAt ctx vals w a - wordAt ctx vals w b = 0) ?_ ?_ huses () trivial).2
    · intro hle ids lookup vals _ _ hevals
      apply checks_pure
      rw [hdifference]
      exact (nativeOps_reads ctx hle lookup).checkSums hevals
    · intro lookup vals hlookup
      apply checks_pure
      rw [hdifference]
      refine (wideOps_reads ctx w lookup).checkSums ?_
      intro r hr
      exact evalsTo_wide h (hrest r hr).1 (hrest r hr).2 (hlookup r (mem_append_right _ hr))

lemma complete_iff (h : ctx.Typed) (ha : a < ctx.nodes.length) (hb : b < ctx.nodes.length)
    (hw : ctx.width a = w)
    (hwb : ctx.width b = w) (hids : Covers ctx ids [a, b]) :
      agreeCompletely ctx a b samples = true ↔ ∀ s < samples,
      ctx.eval a (sampleVals ctx (sortedUnique ids) s) =
      ctx.eval b (sampleVals ctx (sortedUnique ids) s) := by
  have hvars : ∀ id, id ∈ (SymEvalPlan.build ctx a).vars ctx ++ (SymEvalPlan.build ctx b).vars ctx ↔
      id ∈ ids := by
    intro id
    rw [mem_append, mem_plan_vars h ha, mem_plan_vars h hb, hids id]
    simp only [mem_cons, not_mem_nil, or_false, or_and_right, exists_or, exists_eq_left]
  have husesa : ∀ id, ctx.UsesVar a id →
      id ∈ (SymEvalPlan.build ctx a).vars ctx ++ (SymEvalPlan.build ctx b).vars ctx :=
    fun id hu => mem_append_left _ ((mem_plan_vars h ha).mpr hu)
  have husesb : ∀ id, ctx.UsesVar b id →
      id ∈ (SymEvalPlan.build ctx a).vars ctx ++ (SymEvalPlan.build ctx b).vars ctx :=
    fun id hu => mem_append_right _ ((mem_plan_vars h hb).mpr hu)
  rw [← sortedUnique_congr hvars]
  refine (checks_agreeOnAssignments (fun _ : Unit => True) (fun vals => ctx.eval a vals =
    ctx.eval b vals) ?_ ?_ ?_ () trivial).2
  · intro hn id hid
    rw [Bool.and_eq_true] at hn
    rcases mem_append.mp hid with hid | hid
    · have hu := (mem_plan_vars h ha).mp hid
      exact ⟨varWidth_pos h ha hu, varWidth_fits h ha hn.1 hu⟩
    · have hu := (mem_plan_vars h hb).mp hid
      exact ⟨varWidth_pos h hb hu, varWidth_fits h hb hn.2 hu⟩
  · intro hn lookup vals hreads
    rw [Bool.and_eq_true] at hn
    apply checks_pure
    have hle : w ≤ 64 := by
      obtain ⟨st, hst⟩ := h.toAcyclic.lowered ha
      rw [← hw]
      exact hst.fits_iff.mp hn.1 a (mem_of_getElem? hst.root_slot)
    rw [evalU64With_word h ha hreads husesa hn.1, evalU64With_word h hb hreads husesb hn.2,
      beq_iff_eq, h.toAcyclic.eval_eq vals ha, h.toAcyclic.eval_eq vals hb]
    constructor
    · intro heq
      have hnum := congrArg BitVec.toNat heq
      rw [toNat_word64 h vals ha (hw.trans_le hle),
        toNat_word64 h vals hb (hwb.trans_le hle)] at hnum
      apply APInt.ext _ hnum
      rw [h.value_width vals ha, h.value_width vals hb, hw, hwb]
    · intro heq
      rw [word64, word64, num, num, heq]
  · intro lookup vals hlookup
    apply checks_pure
    obtain ⟨st, hst⟩ := h.toAcyclic.lowered ha
    obtain ⟨st', hst'⟩ := h.toAcyclic.lowered hb
    rw [hst.evalLookup_eq h.toAcyclic vals fun id hu => hlookup id (husesa id hu),
      hst'.evalLookup_eq h.toAcyclic vals fun id hu => hlookup id (husesb id hu),
      decide_eq_true_iff,
      h.toAcyclic.eval_eq vals ha, h.toAcyclic.eval_eq vals hb]

/-- The shortcuts change nothing: the verdict is that of both complete expressions on every
valuation of the sample stream over all their inputs. -/
theorem agreeOnSamples_iff (h : ctx.Typed) (ha : a < ctx.nodes.length) (hb : b < ctx.nodes.length)
    (hwidth : ctx.width a = ctx.width b) (samples : Nat) :
    agreeOnSamples ctx a b samples = true ↔ ∀ s < samples,
      let ids :=
      sortedUnique ((SymEvalPlan.build ctx a).vars ctx ++ (SymEvalPlan.build ctx b).vars ctx)
      ctx.eval a (sampleVals ctx ids s) = ctx.eval b (sampleVals ctx ids s) := by
  have hids : Covers ctx ((SymEvalPlan.build ctx a).vars ctx ++ (SymEvalPlan.build ctx b).vars ctx)
      [a, b] := by
    intro id
    rw [mem_append, mem_plan_vars h ha, mem_plan_vars h hb]
    simp only [mem_cons, not_mem_nil, or_false, or_and_right, exists_or, exists_eq_left]
  unfold agreeOnSamples
  split
  next hzero => exact ⟨fun _ s hs => absurd hs (by omega), fun _ => rfl⟩
  · split
    next agrees hrun =>
      refine (canceled_iff h ha hb rfl hids hrun).trans ?_
      exact forall₂_congr fun s _ => (eval_eq_iff h ha hb rfl hwidth.symm _).symm
    · split
      next agrees hrun =>
        refine (factored_iff h ha hb rfl (forall_mem_nil _) (forall_mem_nil _) (forall_mem_nil _)
          hids hrun).trans ?_
        refine forall₂_congr fun s _ => ?_
        dsimp only
        rw [map_nil, sum_nil, sub_zero, add_zero]
        exact (eval_eq_iff h ha hb rfl hwidth.symm _).symm
      · exact complete_iff h ha hb rfl hwidth.symm hids

omit [BlockHash] in
/-- Two products of three factors that share two of them. -/
theorem agreeOnSamples_iff_products : letI : BlockHash := ⟨fun _ => 0⟩
    let inputs := (SymContext.mkVar (SymContext.mkVar {} "x" 8).2 "y" 8).2
    let ctx := ((inputs.intern .mul 8 [0, 0, 1] 0).2.intern .mul 8 [0, 0, 0] 0).2
    agreeOnSamples ctx 2 3 64 = true ↔ ∀ s < 64,
      let ids :=
        sortedUnique ((SymEvalPlan.build ctx 2).vars ctx ++ (SymEvalPlan.build ctx 3).vars ctx)
      ctx.eval 2 (sampleVals ctx ids s) = ctx.eval 3 (sampleVals ctx ids s) := by
  let _ : BlockHash := ⟨fun _ => 0⟩
  intro inputs ctx
  have hempty : SymContext.Typed {} :=
    ⟨SymContext.init_ok, fun r hr =>
      absurd hr (Nat.not_lt_zero r), fun r hr => absurd hr (Nat.not_lt_zero r)⟩
  have hinputs : SymContext.Typed inputs :=
    (hempty.declares (.mkVar {} "x" 8 (by decide))).declares (.mkVar _ "y" 8 (by decide))
  have hproduct : ∀ {ctx : SymContext}, ctx.Typed → ∀ ops :
      List SymRef, (∀ c ∈ ops, c < ctx.nodes.length) →
      2 ≤ (ops.map ctx.width).length ∧ (∀ x ∈ ops.map ctx.width, x = 8) →
        (ctx.intern .mul 8 ops 0).2.Typed := by
    intro ctx h ops hops hwidths
    have hnode : ctx.NodeOk .mul 8 ops 0 :=
      SymContext.nodeOk_operator (by decide) (by decide) (by decide)
    have hshape : shapeOk .mul 8 0 (ops.map ctx.width) := hwidths
    have harms : armsOk .mul ops := fun ho => nomatch ho
    exact (h.intern hops hnode hshape harms).1
  have hfirst := hproduct hinputs [0, 0, 1] (by decide) (by decide)
  have hsecond := hproduct hfirst [0, 0, 0] (by decide) (by decide)
  exact agreeOnSamples_iff hsecond (by decide) (by decide) (by decide) 64

/-- Inputs collected below a reference are those that occur there, once each and in order, and
decide its value. -/
theorem collectVars_decide [ProjectionHash] [KnownTransfer] (hT : KnownTransfer.Sound)
    {s t : SymBuilder}
    {r : SymRef} (hs : s.Built) (ht : t.Built) (he : s.ctx.Extends t.ctx)
    (hr : r < s.ctx.nodes.length) :
    (s.ctx.collectVars r []).Pairwise (· < ·) ∧
      (∀ id, id ∈ s.ctx.collectVars r [] ↔ s.ctx.UsesVar r id) ∧
      ∀ vals vals' : List APInt, (∀ id ∈ s.ctx.collectVars r [], vals[id]? = vals'[id]?) →
        t.ctx.eval r vals = s.ctx.eval r vals' := by
  have h := (hs.valid hT []).typed
  have hused : ∀ id, id ∈ s.ctx.collectVars r [] ↔ s.ctx.UsesVar r id := fun id =>
    (mem_collectVars (operands_leaf h)).trans (or_iff_right not_mem_nil)
  refine ⟨sorted_sortedUnique _, hused, fun vals vals' hvals => ?_⟩
  have hkept : t.ctx.eval r vals = s.ctx.eval r vals := by
    have ht' := (ht.valid hT).eval_toNat (.refl _) vals ⟨hr.trans_le he.length_le, he.width hr⟩
    have hs' := (hs.valid hT).eval_toNat he vals ⟨hr, rfl⟩
    exact APInt.ext (ht'.1.trans hs'.1.symm) (ht'.2.trans hs'.2.symm)
  obtain ⟨st, hst⟩ := h.toAcyclic.lowered hr
  have hlookup : ∀ id, s.ctx.UsesVar r id → vals[id]? = vals'[id]? :=
    fun id hid => hvals id ((hused id).mpr hid)
  rw [hkept, h.toAcyclic.eval_eq vals hr, h.toAcyclic.eval_eq vals' hr,
    ← hst.evalLookup_eq h.toAcyclic vals' hlookup]
  exact (hst.evalLookup_eq h.toAcyclic vals fun _ _ => rfl).symm

end

attribute [local instance] KnownTransfer.silent BlockHash.flat ProjectionHash.sum

def differenceNetwork : SymBuilder :=
  (Sym.twoVariables.calls 8 [.logic 8 (.mkXor [0, 1])]).get (by decide +kernel)

def sumNetwork : SymRef × SymBuilder :=
  (((ArithCall.mkAdd [0, 2]).run 8).run differenceNetwork).get (by decide +kernel)

/-- Both words decide the difference, also when a sum of it was built later and more values are
given. -/
theorem collectVars_decide_difference : differenceNetwork.ctx.collectVars 2 [] = [0, 1] ∧
    sumNetwork.2.ctx.eval 2 [APInt.ofNat 8 5, APInt.ofNat 8 9] =
      differenceNetwork.ctx.eval 2 [APInt.ofNat 8 5, APInt.ofNat 8 9, APInt.ofNat 8 7] := by
  have hs : differenceNetwork.Built := twoVariables_built.calls (Option.some_get _).symm
  have hrun : ((ArithCall.mkAdd [0, 2]).run 8).run differenceNetwork = some sumNetwork :=
    (Option.some_get _).symm
  have hlegal : (ArithCall.mkAdd [0, 2]).Legal differenceNetwork 8 := by
    show ∀ q ∈ [0, 2], Has differenceNetwork q 8
    decide +kernel
  have hvars : differenceNetwork.ctx.collectVars 2 [] = [0, 1] := by decide +kernel
  obtain ⟨-, -, hvalue⟩ :=
    collectVars_decide KnownTransfer.silent_sound hs (hs.arith 8 8 _ hlegal hrun)
    (((ArithCall.mkAdd [0, 2]).run 8).grows hrun) (by decide +kernel : 2 < _)
  refine ⟨hvars, hvalue _ _ ?_⟩
  rw [hvars]
  decide

end NeverD.Mba
