import NeverD.Sym.Create

namespace NeverD.Sym
open Lib

variable {r : SymRef} {ctx' : SymContext}

namespace SymContext

variable [BlockHash]

/-- One creation. An operator node may take any earlier nodes as operands. -/
inductive Creates : SymContext → SymContext → Prop
  | mkConst (ctx : SymContext) (v : APInt) (hv : 0 < v.width) : Creates ctx (ctx.mkConst v).2
  | mkConstWord (ctx : SymContext) (width : Nat) (val : UInt64) (hw : 0 < width) :
    Creates ctx (ctx.mkConstWord width val).2
  | mkVar (ctx : SymContext) (name : String) (width : Nat) (hw : 0 < width) :
      Creates ctx (ctx.mkVar name width).2
  | declareInput (ctx : SymContext) (name : String) (width : Nat) (origin : SymInputOrigin)
    (hw : 0 < width) : Creates ctx (ctx.declareInput name width origin).2
  | varRef (ctx ctx' : SymContext) (id : Nat) (r : SymRef)
    (hr : ctx.varRef id = some (r, ctx')) : Creates ctx ctx'
  | mkFreshVar (ctx : SymContext) (width : Nat) (stem : String) (hw : 0 < width) :
    Creates ctx (ctx.mkFreshVar width stem).2
  | operator (ctx : SymContext) (op : SymOp) (width : Nat) (ops : List SymRef) (aux : Nat)
    (hw : 0 < width) (hconst : op ≠ .const) (hvar : op ≠ .var)
    (hops : ∀ c ∈ ops, c < ctx.nodes.length) : Creates ctx (ctx.intern op width ops aux).2

def Creations : SymContext → SymContext → Prop := Relation.ReflTransGen Creates

variable {ctx : SymContext}

omit [BlockHash] in
lemma nodeOk_operator {op : SymOp} {width aux : Nat} {ops : List SymRef}
    (hw : 0 < width) (hconst : op ≠ .const) (hvar : op ≠ .var) : ctx.NodeOk op width ops aux :=
  ⟨hw, fun h => (h.elim hconst hvar).elim, fun h => (hconst h).elim, fun h => (hconst h).elim,
    fun h => (hvar h).elim⟩

lemma Creates.ok (h : Ok ctx) (hs : Creates ctx ctx') : Ok ctx' ∧ Extends ctx ctx' := by
  cases hs with
  | mkConst v hv => exact ⟨(h.mkConst hv).1, (h.mkConst hv).2.1⟩
  | mkConstWord width val hw => exact ⟨(h.mkConstWord hw val).1, (h.mkConstWord hw val).2.1⟩
  | mkVar name width hw => exact ⟨(h.mkVar name hw).1.ok, (h.mkVar name hw).1.extension⟩
  | declareInput name width origin hw =>
    exact ⟨(h.declareInput name hw origin).ok, (h.declareInput name hw origin).extension⟩
  | varRef _ id r hr => exact ⟨(h.varRef hr).ok, (h.varRef hr).extension⟩
  | mkFreshVar width stem hw => exact ⟨(h.mkFreshVar hw stem).ok, (h.mkFreshVar hw stem).extension⟩
  | operator op width ops aux hw hconst hvar hops =>
    obtain ⟨hok, hf⟩ := h.intern hops (nodeOk_operator hw hconst hvar)
    exact ⟨hok, hf.extension⟩

lemma Creations.ok (h : Ok ctx) (hs : Creations ctx ctx') : Ok ctx' ∧ Extends ctx ctx' := by
  induction hs with
  | refl => exact ⟨h, Extends.refl ctx⟩
  | tail _ hstep ih =>
    obtain ⟨hok, he⟩ := Creates.ok ih.1 hstep
    exact ⟨hok, ih.2.trans he⟩

/-- The value of a literal, the number of a variable, the low bit of an extract. -/
def payload (ctx : SymContext) (r : SymRef) : Nat :=
  if ctx.op r = .const then (ctx.constValue r).toNat else ctx.aux r

omit [BlockHash] in
lemma Leaves.slot_unique (h : Leaves ctx) {i j : Nat} {v : APInt}
    (hi : ctx.wideConsts[i]? = some v) (hj : ctx.wideConsts[j]? = some v) : i = j :=
  Option.some.inj ((h.filed i v hi).symm.trans (h.filed j v hj))

variable (h : Ok ctx)
include h

lemma Ok.wide_constValue (hr : r < ctx.nodes.length) (hc : ctx.op r = .const)
    (hw : ¬ ctx.width r ≤ 64) : ctx.wideConsts[ctx.aux r]? = some (ctx.constValue r) := by
  obtain ⟨v, hv, -⟩ := (h.nodes r hr).wide hc (not_le.mp hw)
  rw [constValue, if_neg hw, List.getD, hv]
  rfl

lemma Ok.constValue_width (hr : r < ctx.nodes.length) (hc : ctx.op r = .const) :
    (ctx.constValue r).width = ctx.width r := by
  by_cases hw : ctx.width r ≤ 64
  · rw [constValue, if_pos hw]
    rfl
  · obtain ⟨v, hv, hvw⟩ := (h.nodes r hr).wide hc (not_le.mp hw)
    rw [h.wide_constValue hr hc hw, Option.some.injEq] at hv
    rw [hv, hvw]

lemma Ok.const_aux {s : SymRef} (hr : r < ctx.nodes.length)
    (hs : s < ctx.nodes.length) (hrc : ctx.op r = .const) (hsc : ctx.op s = .const)
    (hw : ctx.width r = ctx.width s) (hv : (ctx.constValue r).toNat = (ctx.constValue s).toNat) :
    ctx.aux r = ctx.aux s := by
  by_cases hn : ctx.width r ≤ 64
  · have hra := (h.nodes r hr).narrow hrc hn
    have hsa := (h.nodes s hs).narrow hsc (hw ▸ hn)
    rw [constValue, constValue, if_pos hn, if_pos (hw ▸ hn), APInt.ofNat_toNat, APInt.ofNat_toNat,
      Nat.mod_eq_of_lt hra, Nat.mod_eq_of_lt hsa] at hv
    exact hv
  · have hsame : ctx.constValue r = ctx.constValue s := by
      apply APInt.ext _ hv
      rw [h.constValue_width hr hrc, h.constValue_width hs hsc, hw]
    apply h.toLeaves.slot_unique (h.wide_constValue hr hrc hn)
    rw [hsame]
    exact h.wide_constValue hs hsc (hw ▸ hn)

lemma Ok.eq_iff {s : SymRef} (hr : r < ctx.nodes.length)
    (hs : s < ctx.nodes.length) : r = s ↔ ctx.op r = ctx.op s ∧ ctx.width r = ctx.width s ∧
      ctx.payload r = ctx.payload s ∧ ctx.operands r = ctx.operands s := by
  constructor
  · intro heq
    rw [heq]
    exact ⟨rfl, rfl, rfl, rfl⟩
  · intro ⟨hop, hwidth, hpay, hops⟩
    apply h.unique r hr s hs
    have haux : ctx.aux r = ctx.aux s := by
      unfold payload at hpay
      by_cases hc : ctx.op r = .const
      · rw [if_pos hc, if_pos (hop ▸ hc)] at hpay
        exact h.const_aux hr hs hc (hop ▸ hc) hwidth hpay
      · rwa [if_neg hc, if_neg (hop ▸ hc)] at hpay
    rw [identity, identity, hop, hwidth, hops, haux]

lemma Ok.payload_extend (he : Extends ctx ctx') (hr : r < ctx.nodes.length) :
    ctx'.payload r = ctx.payload r := by
  unfold payload
  rw [he.op hr, he.aux hr]
  by_cases hc : ctx.op r = .const
  · rw [if_pos hc, if_pos hc, constValue, constValue, he.width hr, he.aux hr]
    by_cases hn : ctx.width r ≤ 64
    · rw [if_pos hn, if_pos hn]
    · rw [if_neg hn, if_neg hn]
      obtain ⟨v, hv, -⟩ := (h.nodes r hr).wide hc (not_le.mp hn)
      obtain ⟨t, ht⟩ := he.wide
      rw [← ht, List.getD, List.getD, List.getElem?_append_left (List.getElem?_eq_some_iff.mp hv).1]
  · rw [if_neg hc, if_neg hc]

omit h

/-- In every context that creations lead to, two references are equal exactly when their nodes are,
operands come before their users, and nodes are never renumbered. -/
theorem Creations.canonical {ctx ctx' : SymContext} (h : Creations {} ctx)
    (h' : Creations ctx ctx') : (∀ r < ctx.nodes.length, ∀ s < ctx.nodes.length,
      (r = s ↔ ctx.op r = ctx.op s ∧ ctx.width r = ctx.width s ∧ ctx.payload r = ctx.payload s ∧
        ctx.operands r = ctx.operands s)) ∧ (∀ r < ctx.nodes.length, ∀ c ∈ ctx.operands r, c < r) ∧
      ∀ r < ctx.nodes.length, r < ctx'.nodes.length ∧ ctx'.op r = ctx.op r ∧
        ctx'.width r = ctx.width r ∧ ctx'.payload r = ctx.payload r ∧
          ctx'.operands r = ctx.operands r := by
  obtain ⟨hok, -⟩ := h.ok init_ok
  obtain ⟨-, he⟩ := h'.ok hok
  refine ⟨fun r hr s hs => hok.eq_iff hr hs, hok.below, fun r hr => ?_⟩
  exact ⟨hr.trans_le he.length_le, he.op hr, he.width hr, hok.payload_extend he hr,
    hok.toAcyclic.operands_extend he hr⟩

omit [BlockHash] in
/-- A variable and its double, created twice over. -/
theorem Creations.canonical_doubled : letI : BlockHash := ⟨fun _ => 0⟩
    let single := (mkVar {} "x" 8).2
    let double := (single.intern .add 8 [0, 0] 0).2
    let again := (double.intern .add 8 [0, 0] 0).2
    Creations {} double ∧ Creations double again ∧ double.nodes.length = 2 ∧
      (∀ r < 2, ∀ s < 2, (r = s ↔ double.op r = double.op s ∧ double.width r = double.width s ∧
        double.payload r = double.payload s ∧ double.operands r = double.operands s)) ∧
      again.operands 1 = double.operands 1 := by
  let _ : BlockHash := ⟨fun _ => 0⟩
  let single := (mkVar {} "x" 8).2
  let double := (single.intern .add 8 [0, 0] 0).2
  have hlen : double.nodes.length = 2 := by decide
  have h₁ : Creates {} single := .mkVar {} "x" 8 (by decide)
  have h₂ : Creates single double :=
    .operator single .add 8 [0, 0] 0 (by decide) (by decide) (by decide) (by decide)
  have h₃ : Creates double (double.intern .add 8 [0, 0] 0).2 :=
    .operator double .add 8 [0, 0] 0 (by decide) (by decide) (by decide) (by decide)
  have h : Creations {} double := (Relation.ReflTransGen.single h₁).tail h₂
  have h' : Creations double (double.intern .add 8 [0, 0] 0).2 := Relation.ReflTransGen.single h₃
  obtain ⟨heq, -, hkeep⟩ := Creations.canonical h h'
  rw [hlen] at heq hkeep
  exact ⟨h, h', hlen, heq, (hkeep 1 (by decide)).2.2.2.2⟩

/-- In every context that creations lead to, the search for a generated name ends at one that no
variable has. -/
theorem Creations.freshName_unused (h : Creations {} ctx) (stem : String) (counter : Nat) :
    ctx.varByName (ctx.freshName stem ctx.vars.length counter).1 = none :=
  (h.ok init_ok).1.freshName_free stem counter

omit [BlockHash] in
theorem Creations.freshName_unused_taken : letI : BlockHash := ⟨fun _ => 0⟩
    let ctx := (mkVar {} "t0" 8).2
    ctx.varByName "t0" ≠ none ∧ ctx.varByName (ctx.freshName "t" ctx.vars.length 0).1 = none := by
  let _ : BlockHash := ⟨fun _ => 0⟩
  refine ⟨by decide, Creations.freshName_unused (.single ?_) "t" 0⟩
  exact .mkVar {} "t0" 8 (by decide)

end SymContext

end NeverD.Sym
