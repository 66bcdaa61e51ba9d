import NeverD.Sym.EvalU64
import NeverD.Sym.Meaning

namespace NeverD.Sym
open Lib List

variable {lookup : Nat → BitVec 64}

/-- Steps with their output slots. Constants have a slot and no step. -/
structure SlotPlan where
  steps : List (PlanStep × Nat)
  rootSlot : Nat
  fitsU64 : Bool
  scratch : List (BitVec 64)

namespace SlotPlan

/-- The slots start at zero, except that constants are stored in theirs. -/
def build (ctx : SymContext) (root : SymRef) : SlotPlan :=
  let plan := SymEvalPlan.build ctx root
  let fits := plan.fitsU64 ctx
  { steps := plan.steps.zipIdx.filter fun p => ctx.op p.1.node ≠ .const
    rootSlot := plan.rootSlot
    fitsU64 := fits
    scratch :=
      if fits then plan.steps.map fun p => if ctx.op p.node = .const then
        BitVec.ofNat 64 (ctx.aux p.node) else 0
      else [] }

def runStep (ctx : SymContext) (lookup : Nat → BitVec 64) (scratch : List (BitVec 64))
    (p : PlanStep × Nat) : List (BitVec 64) :=
  scratch.set p.2 (SymEvalPlan.stepU64 ctx lookup scratch p.1)

def evalU64With (ctx : SymContext) (plan : SlotPlan) (lookup : Nat → BitVec 64) :
    BitVec 64 × SlotPlan :=
  let scratch := plan.steps.foldl (runStep ctx lookup) plan.scratch
  (scratch.getD plan.rootSlot 0, { plan with scratch := scratch })

def after (ctx : SymContext) (plan : SlotPlan) (lookups : List (Nat → BitVec 64)) : SlotPlan :=
  lookups.foldl (fun plan lookup => (plan.evalU64With ctx lookup).2) plan

end SlotPlan

section

variable {ctx : SymContext} {order : List SymRef} {val : SymRef → BitVec 64} {k : Nat}
    {scratch : List (BitVec 64)}

/-- There is a slot for every node, and the first `k` hold their nodes' words, as do all that hold
constants. -/
structure SlotPlan.Filled (ctx : SymContext) (order : List SymRef) (val : SymRef → BitVec 64)
    (k : Nat) (scratch : List (BitVec 64)) : Prop where
  length : scratch.length = order.length
  words : ∀ j r, order[j]? = some r → j < k ∨ ctx.op r = .const → scratch[j]? = some (val r)

namespace SlotPlan

lemma Filled.const (h : Filled ctx order val k scratch) {r : SymRef} (hr : order[k]? = some r)
    (hc : ctx.op r = .const) : Filled ctx order val (k + 1) scratch := by
  refine ⟨h.length, ?_⟩
  intro j q hq hj
  rcases hj with hj | hj
  · rcases Nat.lt_succ_iff_lt_or_eq.mp hj with hlt | rfl
    · exact h.words j q hq (.inl hlt)
    · cases hr.symm.trans hq
      exact h.words j r hr (.inr hc)
  · exact h.words j q hq (.inr hj)

lemma Filled.step (h : Filled ctx order val k scratch) {r : SymRef} (hr : order[k]? = some r) :
    Filled ctx order val (k + 1) (scratch.set k (val r)) := by
  refine ⟨length_set.trans h.length, ?_⟩
  intro j q hq hj
  have hk : k < scratch.length := h.length ▸ (List.getElem?_eq_some_iff.mp hr).1
  by_cases hjk : j = k
  · subst hjk
    cases hr.symm.trans hq
    rw [getElem?_set_self hk]
  · rw [getElem?_set_ne (Ne.symm hjk)]
    exact h.words j q hq (hj.imp (fun hlt => by omega) id)

theorem Filled.other (h : Filled ctx order val 0 scratch) {r : SymRef} (hr : order[k]? = some r)
    (hc : ctx.op r ≠ .const) (v : BitVec 64) : Filled ctx order val 0 (scratch.set k v) := by
  refine ⟨length_set.trans h.length, ?_⟩
  intro j q hq hj
  by_cases hjk : j = k
  · subst hjk
    cases hr.symm.trans hq
    exact absurd (hj.resolve_left (Nat.not_lt_zero j)) hc
  · rw [getElem?_set_ne (Ne.symm hjk)]
    exact h.words j q hq hj

lemma Filled.congr (h : Filled ctx order val 0 scratch) {val' : SymRef → BitVec 64}
    (hval : ∀ r ∈ order, ctx.op r = .const → val r = val' r) : Filled ctx order val' 0 scratch := by
  refine ⟨h.length, ?_⟩
  intro j r hr hj
  rw [← hval r (mem_of_getElem? hr) (hj.resolve_left (Nat.not_lt_zero j))]
  exact h.words j r hr hj

/-- A sweep over filled constants fills every slot, if a step gives the word of its node from the
words of the operands. -/
theorem filled_sweep {root : SymRef} {st : PlanState} (h : SymEvalPlan.Visiting ctx root st)
    (hstep : ∀ r ∈ st.postOrder, ∀ scratch args, args.map (fun k => scratch.getD k 0) =
      (ctx.operands r).map val → SymEvalPlan.stepU64 ctx lookup scratch ⟨r, args⟩ = val r)
    (pre rest : List SymRef) (hsplit : st.postOrder = pre ++ rest)
    (hfilled : Filled ctx st.postOrder val pre.length scratch) :
      Filled ctx st.postOrder val st.postOrder.length
      ((((rest.map fun r => (⟨r, (ctx.operands r).map fun c => (st.slot c).getD 0 - 1⟩ :
        PlanStep)).zipIdx
        pre.length).filter fun p => ctx.op p.1.node ≠ .const).foldl (runStep ctx lookup)
          scratch) := by
  induction rest generalizing pre scratch with
  | nil =>
    rw [hsplit, append_nil] at hfilled ⊢
    exact hfilled
  | cons r rest ih =>
    have hr : st.postOrder[pre.length]? = some r := by rw [hsplit]; simp
    have hnext : st.postOrder = (pre ++ [r]) ++ rest := by rw [hsplit, append_assoc]; rfl
    have hlen : (pre ++ [r]).length = pre.length + 1 := length_append
    rw [map_cons, zipIdx_cons, filter_cons]
    split
    · -- The operands were stored before their node.
      have hargs : ((ctx.operands r).map fun c => (st.slot c).getD 0 - 1).map
          (fun k => scratch.getD k 0) = (ctx.operands r).map val := by
        rw [map_map]
        apply map_congr_left
        intro c hc
        obtain ⟨j, hj, hjc⟩ := h.closed pre.length r hr c hc
        show scratch.getD ((st.slot c).getD 0 - 1) 0 = val c
        rw [(h.slots c j).mpr hjc, Option.getD_some, Nat.add_sub_cancel, List.getD,
          hfilled.words j c hjc (.inl hj), Option.getD_some]
      rw [foldl_cons, runStep, hstep r (mem_of_getElem? hr) scratch _ hargs, ← hlen]
      exact ih (pre ++ [r]) hnext (hlen ▸ hfilled.step hr)
    next hc =>
      rw [decide_eq_true_eq, not_not] at hc
      rw [← hlen]
      exact ih (pre ++ [r]) hnext (hlen ▸ hfilled.const hr hc)

lemma Filled.run (h : Filled ctx order val 0 scratch) (steps : List (PlanStep × Nat))
    (hsteps : ∀ p ∈ steps, order[p.2]? = some p.1.node ∧ ctx.op p.1.node ≠ .const) :
    Filled ctx order val 0 (steps.foldl (runStep ctx lookup) scratch) := by
  induction steps generalizing scratch with
  | nil => exact h
  | cons p steps ih =>
    obtain ⟨hp, hc⟩ := hsteps p mem_cons_self
    exact ih (h.other hp hc _) fun q hq => hsteps q (mem_cons_of_mem _ hq)

theorem filled_after {plan : SlotPlan} (h : Filled ctx order val 0 plan.scratch)
    (hsteps : ∀ p ∈ plan.steps, order[p.2]? = some p.1.node ∧ ctx.op p.1.node ≠ .const)
    (lookups : List (Nat → BitVec 64)) :
    (plan.after ctx lookups).steps = plan.steps ∧
      (plan.after ctx lookups).rootSlot = plan.rootSlot ∧
      Filled ctx order val 0 (plan.after ctx lookups).scratch := by
  induction lookups generalizing plan with
  | nil => exact ⟨rfl, rfl, h⟩
  | cons lookup lookups ih =>
    exact @ih (plan.evalU64With ctx lookup).2 (h.run plan.steps hsteps) hsteps

end SlotPlan

end

section

variable [BlockHash] {ctx : SymContext} {root : SymRef}

def inputWord (vals : List APInt) (id : Nat) : BitVec 64 :=
  BitVec.ofNat 64 (SymContext.varValue vals id 64).toNat

omit [BlockHash] in
lemma toNat_inputWord {w : Nat} (hw : w ≤ 64) (vals : List APInt) (id : Nat) :
    (mask64 w (inputWord vals id)).toNat = (SymContext.varValue vals id w).toNat := by
  have hvalue : ∀ n, (SymContext.varValue vals id n).toNat =
      ((vals[id]?).map APInt.toNat).getD 0 % 2 ^ n := by
    intro n
    unfold SymContext.varValue
    cases vals[id]? with
    | none => rfl
    | some v =>
      show (if v.width = n then v else v.zextOrTrunc n).toNat = v.toNat % 2 ^ n
      split
      next hn => rw [← hn, Nat.mod_eq_of_lt v.toNat_lt]
      · exact toNat_zextOrTrunc v n
  rw [toNat_mask64 hw, inputWord, BitVec.toNat_ofNat, hvalue, hvalue, mod_mod_64 hw, mod_mod_64 hw]

theorem SlotPlan.evalU64With_word (h : ctx.Typed) (hroot : root < ctx.nodes.length)
    (hfits : (build ctx root).fitsU64 = true) (earlier : List (Nat → BitVec 64)) (vals : List APInt)
    (hlookup : ∀ r, ctx.op r = .var → lookup (ctx.aux r) = inputWord vals (ctx.aux r)) :
    (((build ctx root).after ctx earlier).evalU64With ctx lookup).1 = ctx.word64 vals root := by
  obtain ⟨st, hst⟩ := h.toAcyclic.lowered hroot
  have hflag : SymEvalPlan.fitsU64 ctx (.build ctx root) = true := hfits
  have hnarrow := hst.fits_iff.mp hflag
  have hinputs : ∀ r ∈ st.postOrder, ctx.op r = .var →
      (mask64 (ctx.width r) (lookup (ctx.aux r))).toNat =
      (SymContext.varValue vals (ctx.aux r) (ctx.width r)).toNat := by
    intro r hr hv
    rw [hlookup r hv]
    exact toNat_inputWord (hnarrow r hr) vals _
  have hnodes : st.postOrder = (SymEvalPlan.build ctx root).steps.map PlanStep.node := by
    rw [hst.steps, map_map]
    exact (map_id _).symm
  have hplaced : Filled ctx st.postOrder (fun r => BitVec.ofNat 64 (ctx.aux r)) 0
      (build ctx root).scratch := by
    show Filled _ _ _ _ (if _ then _ else _)
    rw [if_pos hflag]
    refine ⟨by rw [hnodes, length_map, length_map], fun j r hr hj => ?_⟩
    rw [hnodes, getElem?_map] at hr
    obtain ⟨p, hp, rfl⟩ := Option.map_eq_some_iff.mp hr
    rw [getElem?_map, hp, Option.map_some, if_pos (hj.resolve_left (Nat.not_lt_zero j))]
  have hsteps : ∀ p ∈ (build ctx root).steps, st.postOrder[p.2]? = some p.1.node ∧
      ctx.op p.1.node ≠ .const := by
    intro p hp
    obtain ⟨hp, hc⟩ := mem_filter.mp hp
    refine ⟨?_, of_decide_eq_true hc⟩
    rw [hnodes, getElem?_map, mem_zipIdx_iff_getElem?.mp hp]
    rfl
  obtain ⟨hsame, hslot, hfilled⟩ := filled_after hplaced hsteps earlier
  have hconst : ∀ r ∈ st.postOrder, ctx.op r = .const →
      BitVec.ofNat 64 (ctx.aux r) = ctx.word64 vals r := by
    intro r hr hc
    have hshape := h.shapes r (hst.visiting.finished r hr)
    rw [hc] at hshape
    have hleaf : ctx.operands r = [] := map_eq_nil_iff.mp hshape
    have hword : ctx.evalNodeU64 lookup r _ = _ :=
      evalNodeU64_word h vals (hst.visiting.finished r hr) (hnarrow r hr)
        (by rw [hleaf]; exact forall_mem_nil _) (fun hv => absurd (hc.symm.trans hv) (by decide))
    rw [← hword, SymContext.evalNodeU64, hc]
  have hswept := filled_sweep hst.visiting (hst.step_word h vals hfits hinputs) [] st.postOrder rfl
    (hfilled.congr hconst)
  rw [← hst.steps] at hswept
  have hlast :=
    hswept.words _ root hst.root_slot (.inl (List.getElem?_eq_some_iff.mp hst.root_slot).1)
  show List.getD _ _ 0 = _
  rw [hsame, hslot]
  exact congrArg (Option.getD · 0) hlast

variable [ProjectionHash] [KnownTransfer] {s : SymBuilder}

/-- The word is the exact value, for every graph that fits, all values of its variables and all
evaluations before. -/
theorem SlotPlan.evalU64With_eval (hT : KnownTransfer.Sound) (hs : s.Built)
    (hroot : root < s.ctx.nodes.length)
    (hfits : (build s.ctx root).fitsU64 = true) (earlier : List (Nat → BitVec 64))
    (vals : List APInt) {lookup : Nat → BitVec 64}
    (hlookup : ∀ r, s.ctx.op r = .var → lookup (s.ctx.aux r) = inputWord vals (s.ctx.aux r)) :
    (((build s.ctx root).after s.ctx earlier).evalU64With s.ctx lookup).1.toNat =
    (s.ctx.eval root vals).toNat := by
  have htyped := (hs.valid hT vals).typed
  obtain ⟨st, hst⟩ := htyped.toAcyclic.lowered hroot
  have hw : s.ctx.width root ≤ 64 := hst.fits_iff.mp hfits root (mem_of_getElem? hst.root_slot)
  rw [evalU64With_word htyped hroot hfits earlier vals hlookup, toNat_word64 htyped vals hroot hw,
    htyped.toAcyclic.eval_eq vals hroot]
  rfl

end

attribute [local instance] KnownTransfer.silent BlockHash.flat ProjectionHash.sum

/-- A zero-extended byte, after an evaluation of another one. -/
theorem SlotPlan.evalU64With_eval_extended :
    (((build extendedByte.2.ctx extendedByte.1).after extendedByte.2.ctx
      [fun _ => 0x1ff]).evalU64With extendedByte.2.ctx (inputWord [APInt.ofNat 64 0x105])).1.toNat =
        (extendedByte.2.ctx.eval extendedByte.1 [APInt.ofNat 64 0x105]).toNat :=
  evalU64With_eval KnownTransfer.silent_sound extendedByte_built (by decide) (by decide)
    _ _ fun _ _ => rfl

end NeverD.Sym
