import NeverD.Lib.Masks
import NeverD.Sym.Shape

namespace NeverD.Sym
open Lib
open Words List

namespace SymContext

variable (ctx : SymContext)

def operand (r : SymRef) (i : Nat) : SymRef := (ctx.operands r).getD i 0

def numOperands (r : SymRef) : Nat := (ctx.operands r).length

def isConst (r : SymRef) : Bool := ctx.op r = .const

def isVar (r : SymRef) : Bool := ctx.op r = .var

def isConstZero (r : SymRef) : Bool := ctx.isConst r && (ctx.constValue r).isZero

def isConstOnes (r : SymRef) : Bool := ctx.isConst r && (ctx.constValue r).isAllOnes

lemma intern_extends [BlockHash] (op : SymOp) (w : Nat) (ops : List SymRef) (aux : Nat) :
    Extends ctx (ctx.intern op w ops aux).2 := by
  unfold intern internHashed
  split
  · exact .refl ctx
  · exact ctx.appendInterned_extends ..

lemma wideSlot_extends (v : APInt) : Extends ctx (ctx.wideSlot v).2 := by
  unfold wideSlot
  split
  · exact .refl ctx
  · exact ⟨prefix_rfl, prefix_rfl, prefix_append .., fun _ x hx => ⟨x, hx, rfl, rfl, rfl⟩⟩

lemma mkConst_extends [BlockHash] (v : APInt) : Extends ctx (ctx.mkConst v).2 := by
  unfold mkConst
  split
  · exact ctx.intern_extends ..
  · exact (ctx.wideSlot_extends v).trans (intern_extends ..)

end SymContext

def isBitwise (op : SymOp) : Bool := op = .and ∨ op = .or ∨ op = .xor ∨ op = .not

def isPredicate (op : SymOp) : Bool :=
  op = .eq ∨ op = .ult ∨ op = .ule ∨ op = .slt ∨ op = .sle

lemma mem_of_lookup {β : Type} {xs : List (SymRef × β)} {r : SymRef} {b : β}
    (h : xs.lookup r = some b) : (r, b) ∈ xs := by
  obtain ⟨before, behind, heq, -⟩ := lookup_eq_some_iff.mp h
  rw [heq]
  exact mem_append_right before mem_cons_self

structure LowWordProjectionEntry where
  width : Nat := 0
  source : SymRef := 0
  image : Option SymRef := none

class ProjectionHash where
  hash : Nat → SymRef → Nat

structure SymBuilder where
  ctx : SymContext := {}
  lowWordProjections : List LowWordProjectionEntry := []
  lowWordProjectionInsertions : Nat := 0

structure Build (α : Type) where
  run : SymBuilder → Option (α × SymBuilder)
  grows : ∀ {s a t}, run s = some (a, t) → s.ctx.Extends t.ctx

namespace Build

variable {α β : Type}

def ret (a : α) : Build α where
  run s := some (a, s)
  grows h := by
    cases h
    exact SymContext.Extends.refl _

def andThen (m : Build α) (f : α → Build β) : Build β where
  run s := (m.run s).bind fun p => (f p.1).run p.2
  grows h := by
    obtain ⟨⟨a, t⟩, hm, hf⟩ := Option.bind_eq_some_iff.mp h
    exact (m.grows hm).trans ((f a).grows hf)

instance : Monad Build where
  pure := ret
  bind := andThen

def stop : Build α where
  run _ := none
  grows h := by cases h

def context : Build SymContext where
  run s := some (s.ctx, s)
  grows h := by
    cases h
    exact SymContext.Extends.refl _

variable [BlockHash]

def intern (op : SymOp) (w : Nat) (ops : List SymRef) (aux : Nat) : Build SymRef where
  run s := some ((s.ctx.intern op w ops aux).1, { s with ctx := (s.ctx.intern op w ops aux).2 })
  grows h := by
    cases h
    exact SymContext.intern_extends ..

def mkConst (v : APInt) : Build SymRef where
  run s := some ((s.ctx.mkConst v).1, { s with ctx := (s.ctx.mkConst v).2 })
  grows h := by
    cases h
    exact SymContext.mkConst_extends ..

def mkZero (w : Nat) : Build SymRef := mkConst (APInt.zero w)

def mkOnes (w : Nat) : Build SymRef := mkConst (APInt.allOnes w)

def mkTrue : Build SymRef := mkConst (APInt.ofNat 1 1)

def mkFalse : Build SymRef := mkConst (APInt.ofNat 1 0)

def each (f : α → Build β) : List α → Build (List β)
  | [] => pure []
  | x :: xs => do
    let y ← f x
    let ys ← each f xs
    pure (y :: ys)

end Build

def kSymExprStructMaximum : Nat := 4096

section

variable [ProjectionHash]

def lowWordProjectionSlot (source : SymRef) (w size : Nat) : Nat :=
  ProjectionHash.hash w source % size

def findLowWordProjection (source : SymRef) (w : Nat) : Build (Option SymRef) where
  run s :=
    let table := s.lowWordProjections
    if table.isEmpty then some (none, s)
    else
      let entry := table.getD (lowWordProjectionSlot source w table.length) {}
      if entry.image.isSome ∧ entry.width = w ∧ entry.source = source then some (entry.image, s)
      else some (none, s)
  grows {s a t} h := by
    have hs : t = s := by
      dsimp only at h
      split at h
      · cases h; rfl
      · split at h
        · cases h; rfl
        · cases h; rfl
    subst hs
    exact SymContext.Extends.refl _

def grownProjections (table : List LowWordProjectionEntry) (insertions : Nat) :
    List LowWordProjectionEntry × Nat :=
  if table.isEmpty ∨ (table.length < kSymExprStructMaximum ∧ table.length ≤ insertions) then
    let next := if table.isEmpty then 32 else min kSymExprStructMaximum (2 * table.length)
    (table.foldl (fun acc e =>
      if e.image.isSome then acc.set (lowWordProjectionSlot e.source e.width next) e else acc)
      (List.replicate next {}), 0)
  else (table, insertions)

def retainLowWordProjection (source : SymRef) (w : Nat) (image : SymRef) : Build Unit where
  run s :=
    let (table, insertions) := grownProjections s.lowWordProjections s.lowWordProjectionInsertions
    let slot := lowWordProjectionSlot source w table.length
    let entry := table.getD slot {}
    let fresh := (entry.image.isNone ∨ ¬ (entry.width = w ∧ entry.source = source)) ∧
      table.length < kSymExprStructMaximum
    some ((), { s with
      lowWordProjections := table.set slot ⟨w, source, some image⟩
      lowWordProjectionInsertions := if fresh then insertions + 1 else insertions })
  grows h := by
    cases h
    exact SymContext.Extends.refl _

end

section

variable [BlockHash] (last : SymContext) (vals : List APInt)

/-- The graph is well-shaped and every retained image is its word's low part. -/
structure SymBuilder.Ok (s : SymBuilder) : Prop where
  typed : s.ctx.Typed
  projections : ∀ e ∈ s.lowWordProjections, ∀ image, e.image = some image →
    e.source < s.ctx.nodes.length ∧ image < s.ctx.nodes.length ∧ s.ctx.width image = e.width ∧
      last.num vals image = last.num vals e.source % 2 ^ e.width

structure At (s : SymBuilder) : Prop extends SymBuilder.Ok last vals s where
  below : s.ctx.Extends last

def Has (s : SymBuilder) (r : SymRef) (w : Nat) : Prop :=
  r < s.ctx.nodes.length ∧ s.ctx.width r = w

def Den (s : SymBuilder) (r : SymRef) (w x : Nat) : Prop := Has s r w ∧ last.num vals r = x

/-- When `m` ends on the way to the last context, that state is well-formed again, and the result is
in `Q`. -/
def Triple {α : Type} (s : SymBuilder) (m : Build α) (Q : α → SymBuilder → Prop) : Prop :=
  s.Ok last vals → ∀ a t, m.run s = some (a, t) → t.ctx.Extends last → t.Ok last vals ∧ Q a t

end

section

variable {α β : Type} {s t : SymBuilder} {r : SymRef} {w x : Nat}

lemma Has.mono (h : Has s r w) (he : s.ctx.Extends t.ctx) : Has t r w :=
  ⟨h.1.trans_le he.length_le, (he.width h.1).trans h.2⟩

variable [BlockHash] {last : SymContext} {vals : List APInt}

omit [BlockHash] in
lemma Den.mono (h : Den last vals s r w x) (he : s.ctx.Extends t.ctx) : Den last vals t r w x :=
  ⟨h.1.mono he, h.2⟩

variable {P : α → SymBuilder → Prop} {Q : β → SymBuilder → Prop}

lemma triple_of_at {m : Build α} (h : At last vals s → Triple last vals s m P) :
    Triple last vals s m P := by
  intro hs a t hm hl
  exact h ⟨hs, (m.grows hm).trans hl⟩ hs a t hm hl

lemma triple_pure {a : α} (h : At last vals s → P a s) : Triple last vals s (pure a) P := by
  intro hs b t hm hl
  cases hm
  exact ⟨hs, h ⟨hs, hl⟩⟩

lemma triple_bind {m : Build α} {f : α → Build β} (h : Triple last vals s m P)
    (hf : ∀ a t, At last vals t → s.ctx.Extends t.ctx → P a t → Triple last vals t (f a) Q) :
    Triple last vals s (m >>= f) Q := by
  intro hs b u hu hl
  obtain ⟨⟨a, t⟩, hm, hk⟩ := Option.bind_eq_some_iff.mp hu
  have htl := ((f a).grows hk).trans hl
  obtain ⟨ht, hp⟩ := h hs a t hm htl
  exact hf a t ⟨ht, htl⟩ (m.grows hm) hp ht b u hk hl

lemma triple_mono {m : Build α} {P' : α → SymBuilder → Prop} (h : Triple last vals s m P)
    (hq : ∀ a t, At last vals t → s.ctx.Extends t.ctx → P a t → P' a t) :
    Triple last vals s m P' := by
  intro hs a t hm hl
  obtain ⟨h1, h2⟩ := h hs a t hm hl
  exact ⟨h1, hq a t ⟨h1, hl⟩ (m.grows hm) h2⟩

lemma triple_context {f : SymContext → Build β}
    (h : At last vals s → Triple last vals s (f s.ctx) Q) :
    Triple last vals s (Build.context >>= f) Q := by
  intro hs b u hu hl
  exact h ⟨hs, ((f s.ctx).grows hu).trans hl⟩ hs b u hu hl

lemma triple_ite {c : Prop} [Decidable c] {m m' : Build α} (ht : c → Triple last vals s m P)
    (hf : ¬ c → Triple last vals s m' P) : Triple last vals s (if c then m else m') P := by
  by_cases h : c
  · rw [if_pos h]
    exact ht h
  · rw [if_neg h]
    exact hf h

lemma triple_stop : Triple last vals s (Build.stop : Build α) P := by
  intro hs a t hm
  cases hm

end

namespace At

variable [BlockHash] {last : SymContext} {vals : List APInt} {s : SymBuilder} {r : SymRef} {w : Nat}

variable (h : At last vals s)
include h

lemma num_eq (hr : r < s.ctx.nodes.length) : last.num vals r = s.ctx.num vals r :=
  h.typed.num_extend h.below vals hr

variable (hr : Has s r w)
include hr

lemma lt : last.num vals r < 2 ^ w := by
  rw [h.num_eq hr.1, ← hr.2]
  exact h.typed.num_lt vals hr.1

lemma pos : 0 < w := by
  rw [← hr.2]
  exact (h.typed.nodes r hr.1).positive

lemma operand_has {c : SymRef} (hc : c ∈ s.ctx.operands r) :
    Has s c (s.ctx.width c) := ⟨h.typed.operand_lt hr.1 hc, rfl⟩

lemma const_num (hop : s.ctx.isConst r = true) : last.num vals r = (s.ctx.constValue r).toNat := by
  rw [h.num_eq hr.1]
  exact h.typed.num_const vals hr.1 (of_decide_eq_true hop)

lemma const_width (hop : s.ctx.isConst r = true) : (s.ctx.constValue r).width = w := by
  rw [← hr.2]
  exact h.typed.constValue_width hr.1 (of_decide_eq_true hop)

lemma op_num (hc : s.ctx.op r ≠ .const)
    (hv : s.ctx.op r ≠ .var) : last.num vals r = opNum (s.ctx.op r) w (s.ctx.aux r)
      ((s.ctx.operands r).map fun c => (s.ctx.width c, last.num vals c)) := by
  rw [h.num_eq hr.1, h.typed.num_eq vals hr.1 hc hv, hr.2]
  congr 1
  apply map_congr_left
  intro c hcm
  rw [h.num_eq (h.typed.operand_lt hr.1 hcm)]

lemma shape : shapeOk (s.ctx.op r) w (s.ctx.aux r) ((s.ctx.operands r).map s.ctx.width) := by
  rw [← hr.2]
  exact h.typed.shapes r hr.1

theorem operands_shape
    (hop : s.ctx.op r = .add ∨ s.ctx.op r = .mul ∨ s.ctx.op r = .and ∨ s.ctx.op r = .or ∨
    s.ctx.op r = .xor) :
    2 ≤ ((s.ctx.operands r).map s.ctx.width).length ∧ ∀ x ∈ (s.ctx.operands r).map s.ctx.width,
      x = w := by
  have hs := h.shape hr
  rcases hop with hop | hop | hop | hop | hop
  all_goals
    rw [hop] at hs
    exact hs

lemma arity (hop : s.ctx.op r = .add ∨ s.ctx.op r = .mul ∨ s.ctx.op r = .and ∨ s.ctx.op r = .or ∨
    s.ctx.op r = .xor) : 2 ≤ (s.ctx.operands r).length := by
  have hs := (h.operands_shape hr hop).1
  rwa [length_map] at hs

lemma nary (hop : s.ctx.op r = .add ∨ s.ctx.op r = .mul ∨ s.ctx.op r = .and ∨ s.ctx.op r = .or ∨
    s.ctx.op r = .xor) : s.ctx.operands r ≠ [] ∧ ∀ c ∈ s.ctx.operands r, Has s c w := by
  refine ⟨length_pos_iff.mp (Nat.zero_lt_of_lt (h.arity hr hop)), ?_⟩
  intro c hc
  exact ⟨h.typed.operand_lt hr.1 hc, (h.operands_shape hr hop).2 _ (mem_map_of_mem hc)⟩

omit hr

omit h

omit [BlockHash] in
lemma op_num_snd : ((s.ctx.operands r).map fun c => (s.ctx.width c, last.num vals c)).map Prod.snd =
      (s.ctx.operands r).map (last.num vals) := by
  rw [map_map]
  rfl

variable (h : At last vals s)
include h

variable (hr : Has s r w)
include hr

lemma add_num (hop : s.ctx.op r = .add) :
    last.num vals r = addAll w ((s.ctx.operands r).map (last.num vals)) := by
  rw [h.op_num hr (by simp [hop]) (by simp [hop]), hop, ← op_num_snd]
  rfl

lemma mul_num (hop : s.ctx.op r = .mul) :
    last.num vals r = mulAll w ((s.ctx.operands r).map (last.num vals)) := by
  rw [h.op_num hr (by simp [hop]) (by simp [hop]), hop, ← op_num_snd]
  rfl

lemma and_num (hop : s.ctx.op r = .and) :
    last.num vals r = andAll w ((s.ctx.operands r).map (last.num vals)) := by
  rw [h.op_num hr (by simp [hop]) (by simp [hop]), hop, ← op_num_snd]
  rfl

lemma or_num (hop : s.ctx.op r = .or) :
    last.num vals r = orAll ((s.ctx.operands r).map (last.num vals)) := by
  rw [h.op_num hr (by simp [hop]) (by simp [hop]), hop, ← op_num_snd]
  rfl

lemma xor_num (hop : s.ctx.op r = .xor) :
    last.num vals r = xorAll ((s.ctx.operands r).map (last.num vals)) := by
  rw [h.op_num hr (by simp [hop]) (by simp [hop]), hop, ← op_num_snd]
  rfl

lemma one {x : Nat} (hs : (s.ctx.operands r).map s.ctx.width = [x]) :
    s.ctx.operands r = [s.ctx.operand r 0] ∧ Has s (s.ctx.operand r 0) x := by
  unfold SymContext.operand
  generalize hops : s.ctx.operands r = ops at hs ⊢
  match ops, hs with
  | [a], hs =>
    have ha : a ∈ s.ctx.operands r := by rw [hops]; exact mem_cons_self ..
    exact ⟨rfl, h.typed.operand_lt hr.1 ha, by simpa using hs⟩

lemma two {x y : Nat} (hs : (s.ctx.operands r).map s.ctx.width = [x, y]) :
    s.ctx.operands r = [s.ctx.operand r 0, s.ctx.operand r 1] ∧ Has s (s.ctx.operand r 0) x ∧
      Has s (s.ctx.operand r 1) y := by
  unfold SymContext.operand
  generalize hops : s.ctx.operands r = ops at hs ⊢
  match ops, hs with
  | [a, b], hs =>
    have ha : a ∈ s.ctx.operands r := by rw [hops]; exact mem_cons_self ..
    have hb : b ∈ s.ctx.operands r := by rw [hops]; simp
    simp only [map_cons, map_nil, List.cons.injEq, and_true] at hs
    exact ⟨rfl, ⟨h.typed.operand_lt hr.1 ha, hs.1⟩, ⟨h.typed.operand_lt hr.1 hb, hs.2⟩⟩

lemma not_num (hop : s.ctx.op r = .not) :
    Has s (s.ctx.operand r 0) w ∧
      last.num vals r = notOf w (last.num vals (s.ctx.operand r 0)) := by
  have hs := h.shape hr
  rw [hop] at hs
  obtain ⟨hops, ha⟩ := h.one hr hs
  refine ⟨ha, ?_⟩
  rw [h.op_num hr (by simp [hop]) (by simp [hop]), hop, hops]
  rfl

lemma zext_num (hop : s.ctx.op r = .zext) : s.ctx.operands r = [s.ctx.operand r 0] ∧
    Has s (s.ctx.operand r 0) (s.ctx.width (s.ctx.operand r 0)) ∧
      s.ctx.width (s.ctx.operand r 0) < w ∧
        last.num vals r = last.num vals (s.ctx.operand r 0) := by
  have hs := h.shape hr
  rw [hop] at hs
  obtain ⟨x, hs, hx⟩ := hs
  obtain ⟨hops, ha⟩ := h.one hr hs
  refine ⟨hops, ⟨ha.1, rfl⟩, ha.2 ▸ hx, ?_⟩
  rw [h.op_num hr (by simp [hop]) (by simp [hop]), hop, hops]
  rfl

lemma sext_num (hop : s.ctx.op r = .sext) : s.ctx.operands r = [s.ctx.operand r 0] ∧
    Has s (s.ctx.operand r 0) (s.ctx.width (s.ctx.operand r 0)) ∧
      s.ctx.width (s.ctx.operand r 0) < w ∧ last.num vals r =
        sextOf (s.ctx.width (s.ctx.operand r 0)) w (last.num vals (s.ctx.operand r 0)) := by
  have hs := h.shape hr
  rw [hop] at hs
  obtain ⟨x, hs, hx⟩ := hs
  obtain ⟨hops, ha⟩ := h.one hr hs
  refine ⟨hops, ⟨ha.1, rfl⟩, ha.2 ▸ hx, ?_⟩
  rw [h.op_num hr (by simp [hop]) (by simp [hop]), hop, hops]
  rfl

lemma extract_num (hop : s.ctx.op r = .extract) : s.ctx.operands r = [s.ctx.operand r 0] ∧
    Has s (s.ctx.operand r 0) (s.ctx.width (s.ctx.operand r 0)) ∧
      s.ctx.aux r + w ≤ s.ctx.width (s.ctx.operand r 0) ∧
      last.num vals r = last.num vals (s.ctx.operand r 0) / 2 ^ s.ctx.aux r % 2 ^ w := by
  have hs := h.shape hr
  rw [hop] at hs
  obtain ⟨x, hs, hx⟩ := hs
  obtain ⟨hops, ha⟩ := h.one hr hs
  refine ⟨hops, ⟨ha.1, rfl⟩, ha.2 ▸ hx, ?_⟩
  rw [h.op_num hr (by simp [hop]) (by simp [hop]), hop, hops]
  rfl

lemma shift_num (hop : s.ctx.op r = .shl ∨ s.ctx.op r = .lshr ∨ s.ctx.op r = .ashr) :
    Has s (s.ctx.operand r 0) w ∧ Has s (s.ctx.operand r 1) (s.ctx.width (s.ctx.operand r 1)) ∧
      s.ctx.operands r = [s.ctx.operand r 0, s.ctx.operand r 1] ∧
      last.num vals r = opNum (s.ctx.op r) w (s.ctx.aux r) [(w, last.num vals (s.ctx.operand r 0)),
        (s.ctx.width (s.ctx.operand r 1), last.num vals (s.ctx.operand r 1))] := by
  have hs := h.shape hr
  have hs' : ∃ x, (s.ctx.operands r).map s.ctx.width = [w, x] := by
    rcases hop with hop | hop | hop
    all_goals
      rw [hop] at hs
      exact hs
  obtain ⟨y, hs'⟩ := hs'
  obtain ⟨hops, ha, hb⟩ := h.two hr hs'
  refine ⟨ha, ⟨hb.1, rfl⟩, hops, ?_⟩
  have hne : s.ctx.op r ≠ .const ∧ s.ctx.op r ≠ .var := by
    rcases hop with hop | hop | hop
    all_goals simp [hop]
  rw [h.op_num hr hne.1 hne.2, hops, map_cons, map_cons, map_nil, ha.2]

lemma lshr_num (hop : s.ctx.op r = .lshr) :
    Has s (s.ctx.operand r 0) w ∧ Has s (s.ctx.operand r 1) (s.ctx.width (s.ctx.operand r 1)) ∧
      last.num vals r = last.num vals (s.ctx.operand r 0) / 2 ^ last.num vals
        (s.ctx.operand r 1) := by
  have hs := h.shape hr
  rw [hop] at hs
  obtain ⟨y, hs⟩ := hs
  obtain ⟨hops, ha, hb⟩ := h.two hr hs
  refine ⟨ha, ⟨hb.1, rfl⟩, ?_⟩
  rw [h.op_num hr (by simp [hop]) (by simp [hop]), hop, hops]
  rfl

lemma compared (hop : isPredicate (s.ctx.op r) = true) :
    w = 1 ∧ s.ctx.operands r = [s.ctx.operand r 0, s.ctx.operand r 1] ∧
      Has s (s.ctx.operand r 0) (s.ctx.width (s.ctx.operand r 0)) ∧
      Has s (s.ctx.operand r 1) (s.ctx.width (s.ctx.operand r 0)) := by
  have hs := h.shape hr
  have hs' : w = 1 ∧ ∃ x, (s.ctx.operands r).map s.ctx.width = [x, x] := by
    simp only [isPredicate, decide_eq_true_eq] at hop
    rcases hop with hop | hop | hop | hop | hop
    all_goals
      rw [hop] at hs
      exact hs
  obtain ⟨h1, x, hx⟩ := hs'
  obtain ⟨hops, ha, hb⟩ := h.two hr hx
  exact ⟨h1, hops, ⟨ha.1, rfl⟩, ⟨hb.1, hb.2.trans ha.2.symm⟩⟩

lemma ite_num (hop : s.ctx.op r = .ite) :
    Has s (s.ctx.operand r 0) 1 ∧ Has s (s.ctx.operand r 1) w ∧ Has s (s.ctx.operand r 2) w ∧
      last.num vals r = if last.num vals (s.ctx.operand r 0) = 0 then
        last.num vals (s.ctx.operand r 2)
        else last.num vals (s.ctx.operand r 1) := by
  have hs := h.shape hr
  rw [hop] at hs
  have hnum := h.op_num hr (by simp [hop]) (by simp [hop])
  rw [hop] at hnum
  have hmem : ∀ c ∈ s.ctx.operands r, c < s.ctx.nodes.length :=
    fun c hc => h.typed.operand_lt hr.1 hc
  have hs' : (s.ctx.operands r).map s.ctx.width = [1, w, w] := hs
  unfold SymContext.operand
  clear hs
  revert hnum hmem hs'
  generalize s.ctx.operands r = ops
  intro hnum hmem hs'
  match ops with
  | [c, a, b] =>
    simp only [map_cons, map_nil, List.cons.injEq, and_true] at hs'
    exact ⟨⟨hmem c (by simp), hs'.1⟩, ⟨hmem a (by simp), hs'.2.1⟩, ⟨hmem b (by simp), hs'.2.2⟩,
      hnum⟩
  | [] | [_] | [_, _] | _ :: _ :: _ :: _ :: _ => simp at hs'

lemma concat_num (hop : s.ctx.op r = .concat) :
      s.ctx.operands r ≠ [] ∧ ((s.ctx.operands r).map s.ctx.width).sum = w ∧
      last.num vals r = joinAll ((s.ctx.operands r).map fun c => (s.ctx.width c,
      last.num vals c)) := by
  have hs := h.shape hr
  rw [hop] at hs
  refine ⟨fun hn => hs.1 (by rw [hn]; rfl), hs.2, ?_⟩
  rw [h.op_num hr (by simp [hop]) (by simp [hop]), hop]
  rfl

omit hr

end At

section

variable [BlockHash] {last : SymContext} {vals : List APInt} {s : SymBuilder} {w : Nat}

lemma SymBuilder.Ok.extend {ctx' : SymContext} (h : s.Ok last vals) (ht : ctx'.Typed)
    (he : s.ctx.Extends ctx') : SymBuilder.Ok last vals { s with ctx := ctx' } := by
  refine ⟨ht, ?_⟩
  intro e hm image hi
  obtain ⟨h0, h1, h2, h3⟩ := h.projections e hm image hi
  exact ⟨h0.trans_le he.length_le, h1.trans_le he.length_le, (he.width h1).trans h2, h3⟩

lemma triple_intern {op : SymOp} {aux : Nat} {ops : List SymRef} (hw : 0 < w)
    (hc : op ≠ .const) (hv : op ≠ .var) (hops : ∀ c ∈ ops, c < s.ctx.nodes.length)
    (hshape : shapeOk op w aux (ops.map s.ctx.width)) (harms : armsOk op ops) :
    Triple last vals s (Build.intern op w ops aux) fun r t =>
      Den last vals t r w (opNum op w aux (ops.map fun c => (s.ctx.width c, last.num vals c))) := by
  intro hs a t hm hl
  have hnode : s.ctx.NodeOk op w ops aux := by
    refine ⟨hw, fun ho => ?_, fun ho =>
      absurd ho hc, fun ho => absurd ho hc, fun ho => absurd ho hv⟩
    exact absurd ho (by simp [hc, hv])
  obtain ⟨ht, hf⟩ := hs.typed.intern hops hnode hshape harms
  cases hm
  have hid := hf.identity
  simp only [SymContext.identity, Prod.mk.injEq] at hid
  have hok := hs.extend ht hf.extension
  have hat : At last vals { s with ctx := (s.ctx.intern op w ops aux).2 } := ⟨hok, hl⟩
  have hr : Has { s with ctx := (s.ctx.intern op w ops aux).2 } (s.ctx.intern op w ops aux).1 w :=
    ⟨hf.lt, hid.2.1⟩
  refine ⟨hok, hr, ?_⟩
  have hn := hat.op_num hr (by rw [hid.1]; exact hc) (by rw [hid.1]; exact hv)
  rw [hn, hid.1, hid.2.2.1, hid.2.2.2]
  congr 1
  apply map_congr_left
  intro c hcm
  rw [hf.extension.width (hops c hcm)]

lemma triple_mkConst {v : APInt} (hv : 0 < v.width) :
    Triple last vals s (Build.mkConst v) fun r t => Den last vals t r v.width v.toNat := by
  intro hs a t hm hl
  obtain ⟨ht, hlit⟩ := hs.typed.mkConst hv
  cases hm
  have hok := hs.extend ht (SymContext.mkConst_extends ..)
  have hat : At last vals { s with ctx := (s.ctx.mkConst v).2 } := ⟨hok, hl⟩
  have hr : Has { s with ctx := (s.ctx.mkConst v).2 } (s.ctx.mkConst v).1 v.width :=
    ⟨hlit.1, hlit.2.2.1⟩
  refine ⟨hok, hr, ?_⟩
  rw [hat.const_num hr (by simpa [SymContext.isConst] using hlit.2.1), hlit.2.2.2]

end

variable [BlockHash] [ProjectionHash] {last : SymContext} {vals : List APInt} {s : SymBuilder}
    {w : Nat} {r : SymRef}

lemma triple_findLowWordProjection : Triple last vals s (findLowWordProjection r w) fun o t =>
    ∀ image, o = some image → Den last vals t image w (last.num vals r % 2 ^ w) := by
  intro hs o t hm hl
  unfold findLowWordProjection at hm
  dsimp only at hm
  split at hm
  · cases hm
    exact ⟨hs, fun _ h => (nomatch h)⟩
  next hne =>
    split at hm
    next hc =>
      cases hm
      refine ⟨hs, ?_⟩
      intro image himage
      rw [List.isEmpty_iff] at hne
      have hslot : lowWordProjectionSlot r w s.lowWordProjections.length <
          s.lowWordProjections.length :=
        Nat.mod_lt _ (length_pos_iff.mpr hne)
      have hmem : s.lowWordProjections.getD (lowWordProjectionSlot r w s.lowWordProjections.length)
          {} ∈ s.lowWordProjections := by
        rw [getD_eq_getElem _ _ hslot]
        exact getElem_mem _
      obtain ⟨-, h1, h2, h3⟩ := hs.projections _ hmem image himage
      rw [hc.2.1] at h2 h3
      rw [hc.2.2] at h3
      exact ⟨⟨h1, h2⟩, h3⟩
    · cases hm
      exact ⟨hs, fun _ h => (nomatch h)⟩

omit [BlockHash] in
lemma grownProjections_mem {table : List LowWordProjectionEntry} {n : Nat}
    {e : LowWordProjectionEntry}
    (he : e ∈ (grownProjections table n).1) : e ∈ table ∨ e.image = none := by
  unfold grownProjections at he
  split at he
  · generalize (if table.isEmpty then 32 else min kSymExprStructMaximum (2 * table.length)) =
      next at he
    have hfold : ∀ (xs acc : List LowWordProjectionEntry), (∀ x ∈ xs, x ∈ table) →
        (∀ x ∈ acc, x ∈ table ∨ x.image = none) →
        ∀ x ∈ xs.foldl (fun acc e => if e.image.isSome then
          acc.set (lowWordProjectionSlot e.source e.width next) e else acc) acc, x ∈ table ∨
            x.image = none := by
      intro xs
      induction xs with
      | nil => exact fun _ _ h => h
      | cons x xs ih =>
        intro acc hxs hacc
        refine ih _ (fun y hy => hxs y (mem_cons_of_mem _ hy)) ?_
        intro y hy
        dsimp only at hy
        split at hy
        · rcases mem_or_eq_of_mem_set hy with hy | rfl
          · exact hacc y hy
          · exact .inl (hxs _ (mem_cons_self ..))
        · exact hacc y hy
    refine hfold table _ (fun _ h => h) ?_ e he
    intro x hx
    rw [(mem_replicate.mp hx).2]
    exact .inr rfl
  · exact .inl he

lemma triple_retainLowWordProjection {image : SymRef} (hr : r < s.ctx.nodes.length)
    (hi : Den last vals s image w (last.num vals r % 2 ^ w)) :
    Triple last vals s (retainLowWordProjection r w image) fun _ t => s.ctx.Extends t.ctx := by
  intro hs _ t hm hl
  cases hm
  refine ⟨⟨hs.typed, ?_⟩, .refl _⟩
  intro e he image' himage
  rcases mem_or_eq_of_mem_set he with he | rfl
  · rcases grownProjections_mem he with he | he
    · exact hs.projections e he image' himage
    · rw [he] at himage
      cases himage
  · cases himage
    exact ⟨hr, hi.1.1, hi.1.2, hi.2⟩

end NeverD.Sym
