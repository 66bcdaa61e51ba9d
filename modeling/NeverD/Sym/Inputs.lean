import NeverD.Lib.Worklist
import NeverD.Sym.Bitwise
import NeverD.Sym.EvalU64

namespace NeverD.Sym
open Lib List Worklist

variable {id : Nat}

def sortedUnique (ids : List Nat) : List Nat := uniqueRefs (sortRefs ids)

lemma mem_sortedUnique {ids : List Nat} : id ∈ sortedUnique ids ↔ id ∈ ids :=
  (mem_uniqueRefs _).trans (mem_insertionSort _)

lemma sorted_uniqueRefs {rs : List SymRef} (h : rs.Pairwise (· ≤ ·)) :
    (uniqueRefs rs).Pairwise (· < ·) := by
  fun_induction uniqueRefs rs with
  | case1 => exact .nil
  | case2 r => exact pairwise_singleton _ _
  | case3 q rs ih => exact ih (pairwise_cons.mp h).2
  | case4 r q rs hne ih =>
    obtain ⟨hr, hrest⟩ := pairwise_cons.mp h
    apply pairwise_cons.mpr
    refine ⟨?_, ih hrest⟩
    intro p hp
    have hq : r < q := lt_of_le_of_ne (hr q mem_cons_self) hne
    rcases mem_cons.mp ((mem_uniqueRefs _).mp hp) with rfl | hp
    · exact hq
    · exact hq.trans_le ((pairwise_cons.mp hrest).1 p hp)

lemma sorted_sortedUnique (ids : List Nat) : (sortedUnique ids).Pairwise (· < ·) :=
  sorted_uniqueRefs (pairwise_insertionSort (· ≤ ·) ids)

lemma sortedUnique_congr {xs ys : List Nat} (h : ∀ id, id ∈ xs ↔ id ∈ ys) :
    sortedUnique xs = sortedUnique ys := by
  have hnodup : ∀ zs : List Nat, (sortedUnique zs).Nodup :=
    fun zs => (sorted_sortedUnique zs).imp fun h => ne_of_lt h
  apply List.Perm.eq_of_pairwise' (r := (· < ·)) (sorted_sortedUnique xs) (sorted_sortedUnique ys)
  apply (perm_ext_iff_of_nodup (hnodup xs) (hnodup ys)).mpr
  intro id
  rw [mem_sortedUnique, mem_sortedUnique, h]

namespace SymContext

def Below (ctx : SymContext) : SymRef → SymRef → Prop :=
  Relation.ReflTransGen fun a b => b ∈ ctx.operands a

def UsesVar (ctx : SymContext) (r : SymRef) (id : Nat) : Prop :=
  ∃ c, ctx.Below r c ∧ ctx.op c = .var ∧ ctx.aux c = id

def varWidth (ctx : SymContext) (id : Nat) : Nat :=
  match ctx.vars[id]? with
  | some v => v.width
  | none => 0

/-- The inputs below the nodes of a work list, whose head is its last element. -/
def collectFrom (ctx : SymContext) : Nat → List SymRef → List SymRef → List Nat → List Nat
  | 0, _, _, out => out
  | _ + 1, [], _, out => out
  | fuel + 1, cur :: work, seen, out =>
    if cur ∈ seen then collectFrom ctx fuel work seen out
    else if ctx.op cur = .var then collectFrom ctx fuel work (cur :: seen) (out ++ [ctx.aux cur])
    else collectFrom ctx fuel ((ctx.operands cur).reverse ++ work) (cur :: seen) out

def collectVars (ctx : SymContext) (r : SymRef) (out : List Nat) : List Nat :=
  sortedUnique (ctx.collectFrom (SymEvalPlan.traversalBound ctx) [r] [] out)

end SymContext

namespace SymEvalPlan

def vars (ctx : SymContext) (plan : SymEvalPlan) : List Nat :=
  sortedUnique ((plan.steps.filter fun s => ctx.op s.node = .var).map fun s => ctx.aux s.node)

def stepLookup (ctx : SymContext) (lookup : Nat → Option APInt) (scratch : List APInt)
    (s : PlanStep) : APInt :=
  if ctx.op s.node = .var then
    match lookup (ctx.aux s.node) with
    | none => APInt.zero (ctx.width s.node)
    | some v => if v.width = ctx.width s.node then v else v.zextOrTrunc (ctx.width s.node)
  else ctx.evalNodeAP s.node (s.args.map fun k => scratch.getD k (APInt.zero 0))

def evalLookup (ctx : SymContext) (plan : SymEvalPlan) (lookup : Nat → Option APInt) : APInt :=
  (plan.steps.foldl (fun scratch s => scratch ++ [stepLookup ctx lookup scratch s]) []).getD
    plan.rootSlot (APInt.zero 0)

end SymEvalPlan

section

variable {ctx : SymContext} {r : SymRef}

lemma SymContext.usesVar_var (hop : ctx.op r = .var) (hnil : ctx.operands r = []) :
    ctx.UsesVar r id ↔ ctx.aux r = id := by
  constructor
  · intro ⟨c, hc, _, haux⟩
    rcases Relation.ReflTransGen.cases_head hc with rfl | ⟨b, hb, _⟩
    · exact haux
    · rw [hnil] at hb
      exact nomatch hb
  · intro haux
    exact ⟨r, .refl, hop, haux⟩

lemma SymContext.usesVar_iff (hop : ctx.op r ≠ .var) :
    ctx.UsesVar r id ↔ ∃ c ∈ ctx.operands r, ctx.UsesVar c id := by
  constructor
  · intro ⟨c, hc, hvar, haux⟩
    rcases Relation.ReflTransGen.cases_head hc with rfl | ⟨b, hb, hbc⟩
    · exact absurd hvar hop
    · exact ⟨b, hb, c, hbc, hvar, haux⟩
  · intro ⟨b, hb, c, hbc, hvar, haux⟩
    exact ⟨c, .head hb hbc, hvar, haux⟩

theorem SymContext.collectFrom_spec {fuel : Nat} {work seen : List SymRef} (out : List Nat)
    (hfuel : work.length + pending ctx.operands (List.range ctx.nodes.length) seen ≤ fuel)
    (hleaf : ∀ a, ctx.op a = .var → ctx.operands a = [])
    (hcovered : Covered ctx.operands work seen) (htaken : ∀ a ∈ seen, ctx.op a = .var →
    ctx.aux a ∈ out) :
    (∃ marked : List SymRef, (∀ a ∈ work, a ∈ marked) ∧ (∀ a ∈ seen, a ∈ marked) ∧
      (∀ a ∈ marked, ∀ b ∈ ctx.operands a, b ∈ marked) ∧
      ∀ a ∈ marked, ctx.op a = .var → ctx.aux a ∈ ctx.collectFrom fuel work seen out) ∧
    (∀ id ∈ out, id ∈ ctx.collectFrom fuel work seen out) ∧
    ∀ id ∈ ctx.collectFrom fuel work seen out, id ∈ out ∨ ∃ a ∈ work, ctx.UsesVar a id := by
  have hempty : ∀ (seen : List SymRef) (out : List Nat), Covered ctx.operands [] seen →
      (∀ a ∈ seen, ctx.op a = .var → ctx.aux a ∈ out) →
      ∃ marked : List SymRef, (∀ a ∈ ([] : List SymRef), a ∈ marked) ∧ (∀ a ∈ seen, a ∈ marked) ∧
        (∀ a ∈ marked, ∀ b ∈ ctx.operands a, b ∈ marked) ∧ ∀ a ∈ marked, ctx.op a = .var →
        ctx.aux a ∈ out := by
    intro seen out hcovered htaken
    exact ⟨seen, forall_mem_nil _, fun a ha => ha,
      fun a ha b hb => (hcovered a ha b hb).resolve_right not_mem_nil, htaken⟩
  induction fuel generalizing work seen out with
  | zero =>
    obtain rfl : work = [] := eq_nil_of_length_eq_zero (by omega)
    exact ⟨hempty seen out hcovered htaken, fun _ h => h, fun _ h => .inl h⟩
  | succ fuel ih =>
    cases work with
    | nil => exact ⟨hempty seen out hcovered htaken, fun _ h => h, fun _ h => .inl h⟩
    | cons cur work =>
      rw [length_cons] at hfuel
      unfold collectFrom
      split
      next hin =>
        have hcovered' : Covered ctx.operands work seen := by
          intro a ha b hb
          rcases hcovered a ha b hb with h | h
          · exact .inl h
          · rcases mem_cons.mp h with rfl | h
            · exact .inl hin
            · exact .inr h
        obtain ⟨⟨marked, hwork, hseen, hclosed, hvars⟩, hkept, hfound⟩ :=
          ih _ (by omega) hcovered' htaken
        refine ⟨⟨marked, ?_, hseen, hclosed, hvars⟩, hkept, ?_⟩
        · intro a ha
          rcases mem_cons.mp ha with rfl | ha
          · exact hseen _ hin
          · exact hwork a ha
        · intro id hid
          refine (hfound id hid).imp_right ?_
          rintro ⟨a, ha, huses⟩
          exact ⟨a, mem_cons_of_mem _ ha, huses⟩
      next hnew =>
        have hpending : (ctx.operands cur).length + pending ctx.operands
            (List.range ctx.nodes.length) (cur :: seen) ≤
            pending ctx.operands (List.range ctx.nodes.length) seen := by
          by_cases hcur : cur ∈ List.range ctx.nodes.length
          · exact pending_cons hcur hnew
          · have hnil : ctx.operands cur = [] := by
              have hnode : ctx.node cur = ⟨.const, 0, 0, 0, 0⟩ := by
                rw [node, List.getD, getElem?_eq_none (not_lt.mp fun h => hcur (mem_range.mpr h))]
                rfl
              rw [operands, hnode]
              exact take_zero
            rw [hnil, length_nil, zero_add]
            exact pending_cons_le ctx.operands cur _ seen
        split
        next hvar =>
          have hnil := hleaf cur hvar
          have hcovered' : Covered ctx.operands work (cur :: seen) := by
            intro a ha b hb
            rcases mem_cons.mp ha with rfl | ha
            · rw [hnil] at hb
              cases hb
            · rcases hcovered a ha b hb with h | h
              · exact .inl (mem_cons_of_mem _ h)
              · rcases mem_cons.mp h with rfl | h
                · exact .inl mem_cons_self
                · exact .inr h
          have htaken' : ∀ a ∈ cur :: seen, ctx.op a = .var → ctx.aux a ∈ out ++ [ctx.aux cur] := by
            intro a ha ho
            rcases mem_cons.mp ha with rfl | ha
            · exact mem_append_right _ (mem_singleton_self _)
            · exact mem_append_left _ (htaken a ha ho)
          obtain ⟨⟨marked, hwork, hseen, hclosed, hvars⟩, hkept, hfound⟩ :=
            ih _ (by omega) hcovered' htaken'
          refine ⟨⟨marked, ?_, fun a ha => hseen a (mem_cons_of_mem _ ha), hclosed, hvars⟩,
            fun id hid => hkept id (mem_append_left _ hid), ?_⟩
          · intro a ha
            rcases mem_cons.mp ha with rfl | ha
            · exact hseen _ mem_cons_self
            · exact hwork a ha
          · intro id hid
            rcases hfound id hid with h | ⟨a, ha, huses⟩
            · rcases mem_append.mp h with h | h
              · exact .inl h
              · exact .inr ⟨cur, mem_cons_self,
                  (usesVar_var hvar hnil).mpr (mem_singleton.mp h).symm⟩
            · exact .inr ⟨a, mem_cons_of_mem _ ha, huses⟩
        next hop =>
          have hcovered' : Covered ctx.operands ((ctx.operands cur).reverse ++ work)
              (cur :: seen) := by
            intro a ha b hb
            rcases mem_cons.mp ha with rfl | ha
            · exact .inr (mem_append_left _ (mem_reverse.mpr hb))
            · rcases hcovered a ha b hb with h | h
              · exact .inl (mem_cons_of_mem _ h)
              · rcases mem_cons.mp h with rfl | h
                · exact .inl mem_cons_self
                · exact .inr (mem_append_right _ h)
          have htaken' : ∀ a ∈ cur :: seen, ctx.op a = .var → ctx.aux a ∈ out := by
            intro a ha ho
            rcases mem_cons.mp ha with rfl | ha
            · exact absurd ho hop
            · exact htaken a ha ho
          obtain ⟨⟨marked, hwork, hseen, hclosed, hvars⟩, hkept, hfound⟩ :=
            ih _ (by rw [length_append, length_reverse]; omega) hcovered' htaken'
          refine ⟨⟨marked, ?_, fun a ha => hseen a (mem_cons_of_mem _ ha), hclosed, hvars⟩,
            hkept, ?_⟩
          · intro a ha
            rcases mem_cons.mp ha with rfl | ha
            · exact hseen _ mem_cons_self
            · exact hwork a (mem_append_right _ ha)
          · intro id hid
            rcases hfound id hid with h | ⟨a, ha, huses⟩
            · exact .inl h
            · rcases mem_append.mp ha with ha | ha
              · exact .inr ⟨cur, mem_cons_self, (usesVar_iff hop).mpr ⟨a, mem_reverse.mp ha, huses⟩⟩
              · exact .inr ⟨a, mem_cons_of_mem _ ha, huses⟩

theorem SymContext.Below.mem {marked : List SymRef}
    (hclosed : ∀ a ∈ marked, ∀ b ∈ ctx.operands a, b ∈ marked)
    {c : SymRef} (h : ctx.Below r c) (hr : r ∈ marked) : c ∈ marked := by
  induction h with
  | refl => exact hr
  | tail _ hb ih => exact hclosed _ ih _ hb

lemma SymContext.mem_collectVars (hleaf : ∀ a, ctx.op a = .var → ctx.operands a = [])
    {out : List Nat} : id ∈ ctx.collectVars r out ↔ id ∈ out ∨ ctx.UsesVar r id := by
  have hbound : [r].length + pending ctx.operands (List.range ctx.nodes.length) [] ≤
      SymEvalPlan.traversalBound ctx := by
    have hall : (List.range ctx.nodes.length).filter (fun a => decide (a ∉ ([] : List SymRef))) =
        List.range ctx.nodes.length := filter_eq_self.mpr fun a _ => decide_eq_true not_mem_nil
    rw [length_singleton, SymEvalPlan.traversalBound, pending, hall]
    apply Nat.add_le_add_left
    apply sum_le_sum
    intro a _
    exact (length_take_le ..).trans (Nat.le_add_left _ _)
  obtain ⟨⟨marked, hwork, _, hclosed, hvars⟩, hkept, hfound⟩ :=
    collectFrom_spec out hbound hleaf (forall_mem_nil _) (forall_mem_nil _)
  rw [collectVars, mem_sortedUnique]
  constructor
  · intro h
    refine (hfound id h).imp_right ?_
    rintro ⟨a, ha, huses⟩
    exact mem_singleton.mp ha ▸ huses
  · intro h
    rcases h with h | ⟨c, hc, hvar, rfl⟩
    · exact hkept id h
    · exact hvars c (hc.mem hclosed (hwork r mem_cons_self)) hvar

end

namespace SymEvalPlan

variable {ctx : SymContext} {root : SymRef} {st : PlanState}

variable (h : Lowered ctx root st)
include h

lemma Lowered.mem_iff {c : SymRef} : c ∈ st.postOrder ↔ ctx.Below root c := by
  constructor
  · exact h.reached c
  · intro hc
    refine SymContext.Below.mem ?_ hc (mem_of_getElem? h.root_slot)
    intro a ha b hb
    obtain ⟨k, hk⟩ := mem_iff_getElem?.mp ha
    obtain ⟨j, _, hj⟩ := h.visiting.closed k a hk b hb
    exact mem_of_getElem? hj

lemma Lowered.mem_vars : id ∈ vars ctx (build ctx root) ↔ ctx.UsesVar root id := by
  rw [vars, mem_sortedUnique, h.steps, filter_map, map_map, mem_map]
  constructor
  · intro ⟨c, hc, haux⟩
    obtain ⟨hin, hvar⟩ := mem_filter.mp hc
    exact ⟨c, h.mem_iff.mp hin, of_decide_eq_true hvar, haux⟩
  · intro ⟨c, hc, hvar, haux⟩
    exact ⟨c, mem_filter.mpr ⟨h.mem_iff.mpr hc, decide_eq_true hvar⟩, haux⟩

theorem Lowered.evalLookup_eq (hc : ctx.Acyclic) (vals : List APInt)
    {lookup : Nat → Option APInt} (hlookup : ∀ id, ctx.UsesVar root id → lookup id = vals[id]?) :
    evalLookup ctx (build ctx root) lookup = ctx.value vals root := by
  apply h.sweep_root (stepLookup ctx lookup)
  intro c hcm scratch args hargs
  rw [hc.value_eq vals (h.visiting.finished c hcm), ← hargs, SymContext.nodeValue, stepLookup,
    SymContext.varValue]
  by_cases hvar : ctx.op c = .var
  · have hread : lookup (ctx.aux c) = vals[ctx.aux c]? := hlookup _ ⟨c, h.mem_iff.mp hcm, hvar, rfl⟩
    rw [if_pos hvar, if_pos hvar]
    exact hread ▸ rfl
  · rw [if_neg hvar, if_neg hvar]

omit h

end SymEvalPlan

end NeverD.Sym
