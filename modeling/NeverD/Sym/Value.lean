import Mathlib.Algebra.BigOperators.Group.Finset.Basic
import NeverD.Sym.Eval
import NeverD.Sym.Intern

namespace NeverD.Sym
open Lib List Function

variable {work : List (SymRef × Bool)} {ready : SymRef → Prop}

namespace SymContext

def nodeValue (ctx : SymContext) (vals : List APInt) (r : SymRef) (args : List APInt) : APInt :=
  if ctx.op r = .var then varValue vals (ctx.aux r) (ctx.width r) else ctx.evalNodeAP r args

def value (ctx : SymContext) (vals : List APInt) (r : SymRef) : APInt :=
  ctx.nodeValue vals r ((ctx.operands r).map fun c =>
    if c < r then ctx.value vals c else APInt.zero 0)
termination_by r

lemma Acyclic.value_eq {ctx : SymContext} (h : Acyclic ctx) (vals : List APInt) {r : SymRef}
    (hr : r < ctx.nodes.length) :
    ctx.value vals r = ctx.nodeValue vals r ((ctx.operands r).map (ctx.value vals)) := by
  rw [value]
  congr 1
  apply map_congr_left
  intro c hc
  rw [if_pos (h.below r hr c hc)]

end SymContext

namespace SymEvalPlan

/-- Every operand of an expanded entry is ready once the entries above it are done. -/
def Pending (ctx : SymContext) : (SymRef → Prop) → List (SymRef × Bool) → Prop
  | _, [] => True
  | ready, (n, expanded) :: rest =>
    (expanded = true → ∀ c ∈ ctx.operands n, ready c) ∧ Pending ctx (fun x => ready x ∨ x = n) rest

lemma Pending.mono {ctx : SymContext} {ready' : SymRef → Prop}
    (h : Pending ctx ready work) (hr : ∀ x, ready x → ready' x) : Pending ctx ready' work := by
  induction work generalizing ready ready' with
  | nil => trivial
  | cons e rest ih =>
    obtain ⟨n, expanded⟩ := e
    refine ⟨fun he c hc => hr c (h.1 he c hc), ih h.2 ?_⟩
    intro x hx
    exact hx.imp (hr x) id

lemma pending_unexpanded {ctx : SymContext} {xs : List SymRef} {rest : List (SymRef × Bool)}
    (h : Pending ctx (fun x => ready x ∨ x ∈ xs) rest) :
    Pending ctx ready (xs.map (fun c => (c, false)) ++ rest) := by
  induction xs generalizing ready with
  | nil => exact h.mono fun x hx => hx.elim id fun hn => (nomatch hn)
  | cons x xs ih =>
    refine ⟨fun he => (nomatch he), ih (h.mono ?_)⟩
    intro y hy
    rcases hy with hy | hy
    · exact .inl (.inl hy)
    · rcases mem_cons.mp hy with rfl | hy
      · exact .inl (.inr rfl)
      · exact .inr hy

/-- Entries above an expanded one are below it in the graph. -/
def Descending : List (SymRef × Bool) → Prop :=
  List.Pairwise fun x y => y.2 = true → x.1 < y.1

theorem Pending.drop {ctx : SymContext}
    {c : SymRef} (hbelow : ∀ n expanded, (n, expanded) ∈ work → ∀ x ∈ ctx.operands n, x < n)
    (hd : Descending work) (hc : (c, true) ∈ work)
    (h : Pending ctx (fun x => ready x ∨ x = c) work) : Pending ctx ready work := by
  induction work generalizing ready with
  | nil => cases hc
  | cons e rest ih =>
    obtain ⟨n, expanded⟩ := e
    have hn := hbelow n expanded mem_cons_self
    have hrest := (pairwise_cons.mp hd).1
    refine ⟨fun he x hx => (h.1 he x hx).resolve_right ?_, ?_⟩
    · -- The operand `c` of `n` is below `n`, but its own entry is further down.
      intro hxc
      subst hxc
      have hlt := hn x hx
      rcases mem_cons.mp hc with heq | hmem
      · cases heq
        exact absurd hlt (lt_irrefl _)
      · exact absurd (hrest (x, true) hmem rfl) (lt_asymm hlt)
    · rcases mem_cons.mp hc with heq | hmem
      · cases heq
        exact h.2.mono fun x hx => hx.elim id Or.inr
      · apply ih (fun m b hm => hbelow m b (mem_cons_of_mem _ hm)) (pairwise_cons.mp hd).2 hmem
        apply h.2.mono
        intro x hx
        rcases hx with (hx | hx) | hx
        · exact .inl (.inl hx)
        · exact .inr hx
        · exact .inl (.inr hx)

def Done (st : PlanState) (r : SymRef) : Prop := ∃ k, st.slot r = some (k + 1)

/-- The invariant of the traversal. -/
structure Visiting (ctx : SymContext) (root : SymRef) (st : PlanState) : Prop where
  slots : ∀ r k, st.slot r = some (k + 1) ↔ st.postOrder[k]? = some r
  closed : ∀ (k : Nat) (r : SymRef), st.postOrder[k]? = some r →
    ∀ c ∈ ctx.operands r, ∃ j < k, st.postOrder[j]? = some c
  scheduled : ∀ r, st.slot r = some 0 → (r, true) ∈ st.work
  expanded : ∀ r, (r, true) ∈ st.work → (st.slot r).isSome
  bound : ∀ e ∈ st.work, e.1 < ctx.nodes.length
  finished : ∀ r ∈ st.postOrder, r < ctx.nodes.length
  descending : Descending st.work
  pending : Pending ctx (Done st) st.work
  root : (st.slot root).isSome ∨ (root, false) ∈ st.work

section

variable {ctx : SymContext} {root : SymRef} {st : PlanState}

theorem Visiting.complete (h : Visiting ctx root st) {cur : SymRef}
    (hw : st.work = (cur, true) :: work) (hs : st.slot cur = some 0) :
    Visiting ctx root { slot := Function.update st.slot cur (some (st.postOrder.length + 1))
                        work := work
                        postOrder := st.postOrder ++ [cur] } := by
  have hpend := h.pending
  rw [hw] at hpend
  have hdone : ∀ x, Done st x ∨ x = cur →
      ∃ k, Function.update st.slot cur (some (st.postOrder.length + 1)) x = some (k + 1) := by
    intro x hx
    by_cases hxc : x = cur
    · exact ⟨_, by rw [hxc, update_self]⟩
    · rw [update_of_ne hxc]
      exact hx.resolve_right hxc
  have hmem : ∀ e ∈ work, e ∈ st.work := fun e he => hw ▸ mem_cons_of_mem _ he
  refine ⟨fun r k => ?_, fun k r hr c hc => ?_, fun r hr => ?_, fun r hr => ?_,
    fun e he => h.bound e (hmem e he), fun r hr => ?_, ?_, hpend.2.mono hdone, ?_⟩
  · dsimp only
    by_cases hrc : r = cur
    · subst hrc
      rw [update_self, Option.some.injEq, Nat.succ.injEq]
      constructor
      · intro hk
        rw [← hk]
        exact getElem?_concat_length
      · intro hk
        by_contra hne
        -- An earlier position would mean that the node was completed before.
        have hlt : k < st.postOrder.length := by
          have := (List.getElem?_eq_some_iff.mp hk).1
          rw [length_append, length_singleton] at this
          omega
        rw [getElem?_append_left hlt] at hk
        rw [(h.slots r k).mpr hk, Option.some.injEq] at hs
        cases hs
    · rw [update_of_ne hrc, h.slots r k]
      constructor
      · intro hk
        rw [getElem?_append_left (List.getElem?_eq_some_iff.mp hk).1, hk]
      · intro hk
        by_cases hlt : k < st.postOrder.length
        · rwa [getElem?_append_left hlt] at hk
        · rw [getElem?_append_right (not_lt.mp hlt), getElem?_singleton] at hk
          split at hk
          · exact absurd (Option.some.inj hk).symm hrc
          · cases hk
  · by_cases hlt : k < st.postOrder.length
    · rw [getElem?_append_left hlt] at hr
      obtain ⟨j, hj, hcj⟩ := h.closed k r hr c hc
      exact ⟨j, hj, by rw [getElem?_append_left (hj.trans hlt), hcj]⟩
    · rw [getElem?_append_right (not_lt.mp hlt), getElem?_singleton] at hr
      split at hr
      · cases hr
        obtain ⟨j, hj⟩ := hpend.1 rfl c hc
        have hjc := (h.slots c j).mp hj
        have hjlt := (List.getElem?_eq_some_iff.mp hjc).1
        exact ⟨j, hjlt.trans_le (not_lt.mp hlt), by rw [getElem?_append_left hjlt, hjc]⟩
      · cases hr
  · dsimp only at hr ⊢
    have hrc : r ≠ cur := by
      intro heq
      rw [heq, update_self] at hr
      cases hr
    rw [update_of_ne hrc] at hr
    have hin := h.scheduled r hr
    rw [hw] at hin
    exact (mem_cons.mp hin).resolve_left fun heq => hrc (congrArg Prod.fst heq)
  · dsimp only
    by_cases hrc : r = cur
    · rw [hrc, update_self]
      rfl
    · rw [update_of_ne hrc]
      exact h.expanded r (hmem _ hr)
  · rcases mem_append.mp hr with hr | hr
    · exact h.finished r hr
    · rw [mem_singleton.mp hr]
      exact h.bound (cur, true) (hw ▸ mem_cons_self)
  · have hd := h.descending
    rw [hw] at hd
    exact (pairwise_cons.mp hd).2
  · dsimp only
    by_cases hrc : root = cur
    · rw [hrc, update_self]
      exact .inl rfl
    · rw [update_of_ne hrc]
      refine h.root.imp id fun hin => ?_
      rw [hw] at hin
      exact (mem_cons.mp hin).resolve_left fun heq => hrc (congrArg Prod.fst heq)

lemma Visiting.skip (hc : SymContext.Acyclic ctx) (h : Visiting ctx root st) {cur : SymRef}
    {expanded : Bool} {work : List (SymRef × Bool)} (hw : st.work = (cur, expanded) :: work)
    (hknown : (st.slot cur).isSome) (hnot : expanded = true → st.slot cur ≠ some 0) :
    Visiting ctx root { st with work := work } := by
  have hpend := h.pending
  have hd := h.descending
  rw [hw] at hpend hd
  have hmem : ∀ e ∈ work, e ∈ st.work := fun e he => hw ▸ mem_cons_of_mem _ he
  have hscheduled : ∀ r, st.slot r = some 0 → (r, true) ∈ work := by
    intro r hr
    have hin := h.scheduled r hr
    rw [hw] at hin
    refine (mem_cons.mp hin).resolve_left fun heq => ?_
    cases heq
    exact hnot rfl hr
  refine ⟨h.slots, h.closed, hscheduled, fun r hr => h.expanded r (hmem _ hr),
    fun e he => h.bound e (hmem e he), h.finished, (pairwise_cons.mp hd).2, ?_, ?_⟩
  · by_cases hzero : st.slot cur = some 0
    · refine hpend.2.drop (fun n b hn => ?_) (pairwise_cons.mp hd).2 (hscheduled cur hzero)
      exact hc.below n (h.bound (n, b) (hmem _ hn))
    · apply hpend.2.mono
      intro x hx
      rcases hx with hx | rfl
      · exact hx
      · obtain ⟨k, hk⟩ := Option.isSome_iff_exists.mp hknown
        cases k with
        | zero => exact absurd hk hzero
        | succ k => exact ⟨k, hk⟩
  · by_cases hrc : root = cur
    · exact .inl (hrc ▸ hknown)
    · refine h.root.imp id fun hin => ?_
      rw [hw] at hin
      exact (mem_cons.mp hin).resolve_left fun heq => hrc (congrArg Prod.fst heq)

lemma Visiting.schedule (hc : SymContext.Acyclic ctx) (h : Visiting ctx root st) {cur : SymRef}
    (hw : st.work = (cur, false) :: work) (hnew : st.slot cur = none) : Visiting ctx root { st with
      slot := Function.update st.slot cur (some 0)
      work := (ctx.operands cur).reverse.map (fun c => (c, false)) ++ (cur, true) :: work } := by
  have hpend := h.pending
  have hd := h.descending
  rw [hw] at hpend hd
  have hcur : cur < ctx.nodes.length := h.bound (cur, false) (hw ▸ mem_cons_self)
  have hmem : ∀ e ∈ work, e ∈ st.work := fun e he => hw ▸ mem_cons_of_mem _ he
  have hop : ∀ e ∈ (ctx.operands cur).reverse.map (fun c => (c, false)), e.1 < cur ∧
      e.2 = false := by
    intro e he
    obtain ⟨c, hcm, rfl⟩ := mem_map.mp he
    exact ⟨hc.below cur hcur c (mem_reverse.mp hcm), rfl⟩
  refine ⟨fun r k => ?_, h.closed, fun r hr => ?_, fun r hr => ?_, fun e he => ?_, h.finished,
    ?_, ?_, ?_⟩
  · dsimp only
    by_cases hrc : r = cur
    · subst hrc
      rw [update_self, ← h.slots r k, hnew]
      simp
    · rw [update_of_ne hrc]
      exact h.slots r k
  · dsimp only at hr ⊢
    by_cases hrc : r = cur
    · rw [hrc]
      exact mem_append_right _ mem_cons_self
    · rw [update_of_ne hrc] at hr
      have hin := h.scheduled r hr
      rw [hw] at hin
      refine mem_append_right _ (mem_cons_of_mem _ ?_)
      exact (mem_cons.mp hin).resolve_left fun heq => hrc (congrArg Prod.fst heq)
  · dsimp only at hr ⊢
    by_cases hrc : r = cur
    · rw [hrc, update_self]
      rfl
    · rw [update_of_ne hrc]
      rcases mem_append.mp hr with hin | hin
      · cases (hop _ hin).2
      · rcases mem_cons.mp hin with heq | hin
        · exact absurd (congrArg Prod.fst heq) hrc
        · exact h.expanded r (hmem _ hin)
  · rcases mem_append.mp he with hin | hin
    · exact (hop e hin).1.trans hcur
    · rcases mem_cons.mp hin with rfl | hin
      · exact hcur
      · exact h.bound e (hmem e hin)
  · refine pairwise_append.mpr ⟨?_, ?_, fun x hx y hy hexp => ?_⟩
    · refine .imp_of_mem (R := fun _ _ => True) (fun {x y} hx hy _ hexp => ?_) ?_
      · rw [(hop y hy).2] at hexp
        cases hexp
      · exact pairwise_of_forall fun _ _ => trivial
    · exact pairwise_cons.mpr (pairwise_cons.mp hd)
    · rcases mem_cons.mp hy with rfl | hy
      · exact (hop x hx).1
      · exact (hop x hx).1.trans ((pairwise_cons.mp hd).1 y hy hexp)
  · have hdone : ∀ x, Done st x → ∃ k, Function.update st.slot cur (some 0) x = some (k + 1) := by
      intro x ⟨k, hk⟩
      have hxc : x ≠ cur := by
        intro heq
        rw [heq, hnew] at hk
        cases hk
      exact ⟨k, by rw [update_of_ne hxc, hk]⟩
    apply pending_unexpanded
    refine ⟨fun _ c hcm => .inr (mem_reverse.mpr hcm), hpend.2.mono ?_⟩
    intro x hx
    exact hx.imp (fun hx => .inl (hdone x hx)) id
  · dsimp only
    by_cases hrc : root = cur
    · rw [hrc, update_self]
      exact .inl rfl
    · rw [update_of_ne hrc]
      refine h.root.imp id fun hin => ?_
      rw [hw] at hin
      refine mem_append_right _ (mem_cons_of_mem _ ?_)
      exact (mem_cons.mp hin).resolve_left fun heq => hrc (congrArg Prod.fst heq)

lemma Visiting.visit (hc : SymContext.Acyclic ctx) (h : Visiting ctx root st) :
    Visiting ctx root (SymEvalPlan.visit ctx st) := by
  unfold SymEvalPlan.visit
  split
  · exact h
  next cur work hw =>
    split
    · exact h.complete hw ‹_›
    next hs => refine h.skip hc hw (h.expanded cur (hw ▸ mem_cons_self)) fun _ => hs
  next cur work hw =>
    split
    · exact h.skip hc hw ‹_› fun he => (nomatch he)
    next hs => exact h.schedule hc hw (by simpa using hs)

end

def toPush (ctx : SymContext) (slot : SymRef → Option Nat) (r : SymRef) : Nat :=
  if slot r = none then 1 + (ctx.node r).numOperands else 0

/-- Entries on the work list, and those that unscheduled nodes may still push. -/
def toVisit (ctx : SymContext) (st : PlanState) : Nat :=
  st.work.length + ∑ r ∈ Finset.range ctx.nodes.length, toPush ctx st.slot r

lemma toVisit_init (ctx : SymContext) (root : SymRef) :
    toVisit ctx { work := [(root, false)] } = traversalBound ctx := by
  have hsum : ∀ (f : Nat → Nat) (n : Nat), ∑ r ∈ Finset.range n,
      f r = ((List.range n).map f).sum := by
    intro f n
    induction n with
    | zero => rfl
    | succ n ih =>
      rw [Finset.sum_range_succ, ih, range_succ, map_append, sum_append, map_singleton,
        sum_singleton]
  rw [toVisit, traversalBound, ← hsum]
  simp [toPush]

variable {ctx : SymContext}

lemma toVisit_visit {st : PlanState} (hb : ∀ e ∈ st.work, e.1 < ctx.nodes.length)
    (hne : st.work ≠ []) : toVisit ctx (visit ctx st) < toVisit ctx st := by
  unfold visit
  split
  · exact absurd ‹_› hne
  next cur work hw =>
    have hlen : st.work.length = work.length + 1 := by rw [hw, length_cons]
    split
    next hs =>
      have hsame : toPush ctx (Function.update st.slot cur (some (st.postOrder.length + 1))) =
          toPush ctx st.slot := by
        funext r
        by_cases hrc : r = cur
        · rw [toPush, toPush, hrc, if_neg (by simp), if_neg (by simp [hs])]
        · rw [toPush, toPush, update_of_ne hrc]
      simp only [toVisit, hsame]
      omega
    · simp only [toVisit]
      omega
  next cur work hw =>
    have hlen : st.work.length = work.length + 1 := by rw [hw, length_cons]
    split
    · simp only [toVisit]
      omega
    next hs =>
      have hnone : st.slot cur = none := by simpa using hs
      have hcur : cur ∈ Finset.range ctx.nodes.length :=
        Finset.mem_range.mpr (hb (cur, false) (hw ▸ mem_cons_self))
      have hops : (ctx.operands cur).length ≤ (ctx.node cur).numOperands := length_take_le ..
      have hrest : ∀ r ∈ (Finset.range ctx.nodes.length).erase cur,
          toPush ctx (Function.update st.slot cur (some 0)) r = toPush ctx st.slot r := by
        intro r hr
        rw [toPush, toPush, update_of_ne (Finset.ne_of_mem_erase hr)]
      have hzero : toPush ctx (Function.update st.slot cur (some 0)) cur = 0 := if_neg (by simp)
      have hone : toPush ctx st.slot cur = 1 + (ctx.node cur).numOperands := if_pos hnone
      have hsum : ∑ r ∈ Finset.range ctx.nodes.length,
            toPush ctx st.slot r = ∑ r ∈ Finset.range ctx.nodes.length,
            toPush ctx (Function.update st.slot cur (some 0)) r +
              (1 + (ctx.node cur).numOperands) := by
        rw [← Finset.add_sum_erase _ _ hcur, ← Finset.add_sum_erase _ _ hcur,
          Finset.sum_congr rfl hrest, hzero, hone, zero_add, add_comm]
      simp only [toVisit, length_append, length_map, length_reverse, length_cons, hsum]
      omega

lemma Visiting.traverse {root : SymRef} (hc : SymContext.Acyclic ctx)
    {fuel : Nat} {st : PlanState} (h : Visiting ctx root st) (hf : toVisit ctx st ≤ fuel) :
    Visiting ctx root (traverse ctx fuel st) ∧ (traverse ctx fuel st).work = [] := by
  induction fuel generalizing st with
  | zero =>
    refine ⟨h, eq_nil_of_length_eq_zero ?_⟩
    have := Nat.le_zero.mp hf
    exact (Nat.add_eq_zero_iff.mp this).1
  | succ fuel ih =>
    rw [SymEvalPlan.traverse]
    split
    · exact ⟨h, List.isEmpty_iff.mp ‹_›⟩
    next hne =>
      have hlt := toVisit_visit h.bound (by simpa using hne)
      exact ih (h.visit hc) (by omega)

lemma visiting_init {root : SymRef} (hr : root < ctx.nodes.length) :
    Visiting ctx root { work := [(root, false)] } := by
  refine ⟨fun r k => ?_, fun k r hk => ?_, fun r hs => ?_, fun r he => ?_, fun e he => ?_,
    forall_mem_nil _, ?_, ?_, ?_⟩
  · simp
  · simp at hk
  · cases hs
  · simp at he
  · rw [mem_singleton.mp he]
    exact hr
  · exact pairwise_singleton ..
  · exact ⟨fun he => (nomatch he), trivial⟩
  · exact .inr mem_cons_self

/-- The slots hold the values of their nodes once a prefix of the steps has run. -/
theorem Visiting.sweep {root : SymRef} {st : PlanState} (h : Visiting ctx root st)
    {α : Type} {val : SymRef → α} {d : α} {step : List α → PlanStep → α}
    (hstep : ∀ r ∈ st.postOrder, ∀ scratch args, args.map (fun k => scratch.getD k d) =
      (ctx.operands r).map val →
      step scratch ⟨r, args⟩ = val r) {pre rest : List SymRef}
      (hsplit : st.postOrder = pre ++ rest) :
    (rest.map fun r => (⟨r, (ctx.operands r).map fun c => (st.slot c).getD 0 - 1⟩ : PlanStep)).foldl
      (fun scratch s => scratch ++ [step scratch s]) (pre.map val) = st.postOrder.map val := by
  induction rest generalizing pre with
  | nil => rw [hsplit, append_nil]; rfl
  | cons r rest ih =>
    have hr : st.postOrder[pre.length]? = some r := by rw [hsplit]; simp
    have hargs : ((ctx.operands r).map fun c => (st.slot c).getD 0 - 1).map
        (fun k => (pre.map val).getD k d) = (ctx.operands r).map val := by
      rw [map_map]
      apply map_congr_left
      intro c hcm
      show (pre.map val).getD ((st.slot c).getD 0 - 1) d = val c
      obtain ⟨j, hj, hjc⟩ := h.closed pre.length r hr c hcm
      rw [(h.slots c j).mpr hjc, Option.getD_some, Nat.add_sub_cancel, List.getD, getElem?_map]
      rw [hsplit, getElem?_append_left hj] at hjc
      rw [hjc]
      rfl
    rw [map_cons, foldl_cons, hstep r (mem_of_getElem? hr) _ _ hargs]
    have := @ih (pre ++ [r]) (by rw [hsplit, append_assoc]; rfl)
    rwa [map_append, map_singleton] at this

structure Lowered (ctx : SymContext) (root : SymRef) (st : PlanState) : Prop where
  visiting : Visiting ctx root st
  steps : (build ctx root).steps = st.postOrder.map fun r =>
    ⟨r, (ctx.operands r).map fun c => (st.slot c).getD 0 - 1⟩
  root_slot : st.postOrder[(build ctx root).rootSlot]? = some root
  reached : ∀ r ∈ st.postOrder, Relation.ReflTransGen (fun a b => b ∈ ctx.operands a) root r

/-- What waits in the work list and what is done was reached from the root. -/
def Reached (ctx : SymContext) (root : SymRef) (st : PlanState) : Prop :=
  (∀ e ∈ st.work, Relation.ReflTransGen (fun a b => b ∈ ctx.operands a) root e.1) ∧
    ∀ r ∈ st.postOrder, Relation.ReflTransGen (fun a b => b ∈ ctx.operands a) root r

lemma Reached.visit {ctx : SymContext} {root : SymRef} {st : PlanState} (h : Reached ctx root st) :
    Reached ctx root (SymEvalPlan.visit ctx st) := by
  unfold SymEvalPlan.visit
  split
  · exact h
  next cur work hw =>
    have hmem : ∀ e ∈ work, e ∈ st.work := fun e he => hw ▸ mem_cons_of_mem _ he
    have hcur := h.1 (cur, true) (hw ▸ mem_cons_self)
    split
    · refine ⟨fun e he => h.1 e (hmem e he), ?_⟩
      intro r hr
      rcases mem_append.mp hr with hr | hr
      · exact h.2 r hr
      · exact mem_singleton.mp hr ▸ hcur
    · exact ⟨fun e he => h.1 e (hmem e he), h.2⟩
  next cur work hw =>
    have hmem : ∀ e ∈ work, e ∈ st.work := fun e he => hw ▸ mem_cons_of_mem _ he
    have hcur := h.1 (cur, false) (hw ▸ mem_cons_self)
    split
    · exact ⟨fun e he => h.1 e (hmem e he), h.2⟩
    · refine ⟨?_, h.2⟩
      intro e he
      rcases mem_append.mp he with he | he
      · obtain ⟨c, hc, rfl⟩ := mem_map.mp he
        exact hcur.tail (mem_reverse.mp hc)
      · rcases mem_cons.mp he with rfl | he
        · exact hcur
        · exact h.1 e (hmem e he)

lemma Reached.traverse {root : SymRef} (fuel : Nat) {st : PlanState}
    (h : Reached ctx root st) : Reached ctx root (SymEvalPlan.traverse ctx fuel st) := by
  induction fuel generalizing st with
  | zero => exact h
  | succ fuel ih =>
    rw [SymEvalPlan.traverse]
    split
    · exact h
    · exact ih h.visit

end SymEvalPlan

lemma SymContext.Acyclic.lowered {ctx : SymContext} (h : Acyclic ctx) {r : SymRef}
    (hr : r < ctx.nodes.length) : ∃ st, SymEvalPlan.Lowered ctx r st := by
  have hfuel := (SymEvalPlan.toVisit_init ctx r).le
  obtain ⟨hv, hempty⟩ := (SymEvalPlan.visiting_init hr).traverse h hfuel
  have hreached : SymEvalPlan.Reached ctx r { work := [(r, false)] } := by
    refine ⟨?_, forall_mem_nil _⟩
    intro e he
    rw [mem_singleton.mp he]
  refine ⟨_, hv, rfl, ?_, (hreached.traverse _).2⟩
  rw [SymEvalPlan.build]
  generalize SymEvalPlan.traverse ctx (SymEvalPlan.traversalBound ctx) { work := [(r, false)] } =
    st at hv hempty ⊢
  obtain ⟨k, hk⟩ : ∃ k, st.slot r = some (k + 1) := by
    rcases hv.root with hs | hin
    · obtain ⟨k, hk⟩ := Option.isSome_iff_exists.mp hs
      cases k with
      | zero =>
        have hin := hv.scheduled r hk
        rw [hempty] at hin
        cases hin
      | succ k => exact ⟨k, hk⟩
    · rw [hempty] at hin
      cases hin
  rw [hk, Option.getD_some, Nat.add_sub_cancel]
  exact (hv.slots r k).mp hk

theorem SymEvalPlan.Lowered.sweep_root {ctx : SymContext} {root : SymRef} {st : PlanState}
    (h : Lowered ctx root st) {α : Type} {val : SymRef → α} {d : α} (step : List α → PlanStep → α)
    (hstep : ∀ r ∈ st.postOrder, ∀ scratch args, args.map (fun k => scratch.getD k d) =
      (ctx.operands r).map val → step scratch ⟨r, args⟩ = val r) :
    ((build ctx root).steps.foldl (fun scratch s => scratch ++ [step scratch s]) []).getD
      (build ctx root).rootSlot d = val root := by
  have hsweep := h.visiting.sweep hstep (nil_append _).symm
  rw [map_nil, ← h.steps] at hsweep
  rw [hsweep, List.getD, getElem?_map, h.root_slot]
  rfl

lemma SymContext.Acyclic.eval_eq {ctx : SymContext} (h : Acyclic ctx) (vals : List APInt)
    {r : SymRef} (hr : r < ctx.nodes.length) : ctx.eval r vals = ctx.value vals r := by
  obtain ⟨st, hst⟩ := h.lowered hr
  apply hst.sweep_root (SymEvalPlan.stepValue ctx vals)
  intro c hc scratch args hargs
  rw [h.value_eq vals (hst.visiting.finished c hc), ← hargs]
  rfl

end NeverD.Sym
