import NeverD.Sym.Predicate

namespace NeverD.Sym
open Lib
open Words List

variable {ctx' : SymContext}

section

variable [BlockHash] [ProjectionHash] [KnownTransfer]

def Builders.halted : Builders where
  mkAdd _ := Build.stop
  mkMul _ := Build.stop
  mkAnd _ := Build.stop
  mkOr _ := Build.stop
  mkXor _ := Build.stop
  mkConcat _ := Build.stop
  mkNot _ := Build.stop
  mkNeg _ := Build.stop
  mkURem _ _ := Build.stop
  mkLShr _ _ := Build.stop
  mkExtract _ _ _ := Build.stop
  mkZExt _ _ := Build.stop
  mkSExt _ _ := Build.stop
  mkIte _ _ _ := Build.stop
  mkEq _ _ := Build.stop
  mkUlt _ _ := Build.stop
  mkSlt _ _ := Build.stop

def Builders.next (n : Nat) (B : Builders) : Builders where
  mkAdd := Sym.mkAdd n B
  mkMul := Sym.mkMul n B
  mkAnd := Sym.mkAnd n B
  mkOr := Sym.mkOr n B
  mkXor := Sym.mkXor n B
  mkConcat := Sym.mkConcat B
  mkNot := Sym.mkNot B
  mkNeg := Sym.mkNeg B
  mkURem := Sym.mkURem B
  mkLShr := Sym.mkLShr B
  mkExtract := Sym.mkExtract n B
  mkZExt := Sym.mkZExt B
  mkSExt := Sym.mkSExt B
  mkIte := Sym.mkIte B
  mkEq := Sym.mkEq n B
  mkUlt := Sym.mkUlt B
  mkSlt := Sym.mkSlt B

/-- The builders, with calls nested at most `n` deep and loops of at most `n` rounds. -/
def builders : Nat → Builders
  | 0 => Builders.halted
  | n + 1 => Builders.next n (builders n)

omit [ProjectionHash] [KnownTransfer] in
lemma Builders.halted_sound (last : SymContext) (vals : List APInt) :
    Builders.halted.Sound last vals := by
  constructor
  all_goals
    intros
    exact means_stop

lemma Builders.Sound.next (hT : KnownTransfer.Sound) {last : SymContext} {vals : List APInt}
    {B : Builders} (hB : B.Sound last vals) (n : Nat) : (Builders.next n B).Sound last vals where
  mkAdd h := means_mkAdd hB h
  mkMul h := means_mkMul hB h
  mkAnd h := means_mkAnd hT hB h
  mkOr h := means_mkOr hB h
  mkXor h := means_mkXor hB h
  mkConcat h := means_mkConcat hB h
  mkNot h := means_mkNot hB h
  mkNeg h := means_mkNeg hB h
  mkURem ha hb := means_mkURem hB ha hb
  mkLShr ha hb := means_mkLShr hB ha hb
  mkExtract h := means_mkExtract hB h
  mkZExt h _ := means_mkZExt hB h
  mkSExt h _ := means_mkSExt hB h
  mkIte hc ha hb := means_mkIte hB hc ha hb
  mkEq ha hb := means_mkEq hB ha hb
  mkUlt ha hb := means_mkUlt hB ha hb
  mkSlt ha hb := means_mkSlt hB ha hb

/-- At every depth the builders mean their operators. -/
theorem builders_sound (hT : KnownTransfer.Sound) (last : SymContext) (vals : List APInt)
    (n : Nat) : (builders n).Sound last vals := by
  induction n with
  | zero => exact Builders.halted_sound last vals
  | succ n ih => exact ih.next hT n

end

inductive ArithCall
  | mkAdd (ops : List SymRef)
  | mkSub (a b : SymRef)
  | mkNeg (a : SymRef)
  | mkMul (ops : List SymRef)
  | mkUDiv (a b : SymRef)
  | mkURem (a b : SymRef)
  | mkSDiv (a b : SymRef)
  | mkSRem (a b : SymRef)

inductive LogicCall
  | mkAnd (ops : List SymRef)
  | mkOr (ops : List SymRef)
  | mkXor (ops : List SymRef)
  | mkNot (a : SymRef)
  | mkShl (a b : SymRef)
  | mkLShr (a b : SymRef)
  | mkAShr (a b : SymRef)
  | mkRotL (a b : SymRef)
  | mkRotR (a b : SymRef)

inductive StructCall
  | mkExtract (a : SymRef) (low w : Nat)
  | mkConcat (ops : List SymRef)
  | mkZExt (a : SymRef) (w : Nat)
  | mkSExt (a : SymRef) (w : Nat)
  | mkIte (c t e : SymRef)

inductive CompareCall
  | mkEq (a b : SymRef)
  | mkNe (a b : SymRef)
  | mkUlt (a b : SymRef)
  | mkUle (a b : SymRef)
  | mkSlt (a b : SymRef)
  | mkSle (a b : SymRef)

section

variable [BlockHash] [ProjectionHash] [KnownTransfer] (n : Nat)

def ArithCall.run : ArithCall → Build SymRef
  | mkAdd ops => Sym.mkAdd n (builders n) ops
  | mkSub a b => Sym.mkSub (builders n) a b
  | mkNeg a => Sym.mkNeg (builders n) a
  | mkMul ops => Sym.mkMul n (builders n) ops
  | mkUDiv a b => Sym.mkUDiv a b
  | mkURem a b => Sym.mkURem (builders n) a b
  | mkSDiv a b => Sym.mkSDiv a b
  | mkSRem a b => Sym.mkSRem a b

def LogicCall.run : LogicCall → Build SymRef
  | mkAnd ops => Sym.mkAnd n (builders n) ops
  | mkOr ops => Sym.mkOr n (builders n) ops
  | mkXor ops => Sym.mkXor n (builders n) ops
  | mkNot a => Sym.mkNot (builders n) a
  | mkShl a b => Sym.mkShl (builders n) a b
  | mkLShr a b => Sym.mkLShr (builders n) a b
  | mkAShr a b => Sym.mkAShr (builders n) a b
  | mkRotL a b => Sym.mkRol a b
  | mkRotR a b => Sym.mkRor a b

def StructCall.run : StructCall → Build SymRef
  | mkExtract a low w => Sym.mkExtract n (builders n) a low w
  | mkConcat ops => Sym.mkConcat (builders n) ops
  | mkZExt a w => Sym.mkZExt (builders n) a w
  | mkSExt a w => Sym.mkSExt (builders n) a w
  | mkIte c t e => Sym.mkIte (builders n) c t e

def CompareCall.run : CompareCall → Build SymRef
  | mkEq a b => Sym.mkEq n (builders n) a b
  | mkNe a b => Sym.mkNe (builders n) a b
  | mkUlt a b => Sym.mkUlt (builders n) a b
  | mkUle a b => Sym.mkUle (builders n) a b
  | mkSlt a b => Sym.mkSlt (builders n) a b
  | mkSle a b => Sym.mkSle a b

end

section

variable (s : SymBuilder)

def ArithCall.Legal (w : Nat) : ArithCall → Prop
  | mkAdd ops | mkMul ops => ∀ q ∈ ops, Has s q w
  | mkNeg a => Has s a w
  | mkSub a b | mkUDiv a b | mkURem a b | mkSDiv a b | mkSRem a b => Has s a w ∧ Has s b w

/-- An amount may have any width. -/
def LogicCall.Legal (w : Nat) : LogicCall → Prop
  | mkAnd ops | mkOr ops | mkXor ops => ∀ q ∈ ops, Has s q w
  | mkNot a => Has s a w
  | mkShl a b | mkLShr a b | mkAShr a b | mkRotL a b | mkRotR a b => Has s a w ∧
      Has s b (s.ctx.width b)

def StructCall.Legal : StructCall → Prop
  | mkExtract a low w => Has s a (s.ctx.width a) ∧ 0 < w ∧ low + w ≤ s.ctx.width a
  | mkConcat ops => ∀ q ∈ ops, Has s q (s.ctx.width q)
  | mkZExt a w | mkSExt a w => Has s a (s.ctx.width a) ∧ s.ctx.width a ≤ w
  | mkIte c t e => Has s c 1 ∧ Has s t (s.ctx.width t) ∧ Has s e (s.ctx.width t)

def CompareCall.Legal (w : Nat) : CompareCall → Prop
  | mkEq a b | mkNe a b | mkUlt a b | mkUle a b | mkSlt a b | mkSle a b => Has s a w ∧ Has s b w

end

namespace SymContext

variable [BlockHash]

inductive Declares : SymContext → SymContext → Prop
  | mkConst (ctx : SymContext) (v : APInt) (hv : 0 < v.width) : Declares ctx (ctx.mkConst v).2
  | mkConstWord (ctx : SymContext) (width : Nat) (val : UInt64) (hw : 0 < width) :
    Declares ctx (ctx.mkConstWord width val).2
  | mkVar (ctx : SymContext) (name : String) (width : Nat) (hw : 0 < width) :
      Declares ctx (ctx.mkVar name width).2
  | declareInput (ctx : SymContext) (name : String) (width : Nat) (origin : SymInputOrigin)
    (hw : 0 < width) : Declares ctx (ctx.declareInput name width origin).2
  | varRef (ctx ctx' : SymContext) (id : Nat) (r : SymRef)
    (hr : ctx.varRef id = some (r, ctx')) : Declares ctx ctx'
  | mkFreshVar (ctx : SymContext) (width : Nat) (stem : String) (hw : 0 < width) :
    Declares ctx (ctx.mkFreshVar width stem).2

variable {ctx : SymContext}

lemma Declares.creates (h : Declares ctx ctx') : Creates ctx ctx' := by
  cases h with
  | mkConst v hv => exact .mkConst ctx v hv
  | mkConstWord width val hw => exact .mkConstWord ctx width val hw
  | mkVar name width hw => exact .mkVar ctx name width hw
  | declareInput name width origin hw => exact .declareInput ctx name width origin hw
  | varRef _ id r hr => exact .varRef ctx ctx' id r hr
  | mkFreshVar width stem hw => exact .mkFreshVar ctx width stem hw

def OnlyLeaves (ctx ctx' : SymContext) : Prop :=
  ∀ r < ctx'.nodes.length, r < ctx.nodes.length ∨ ctx'.op r = .const ∨ ctx'.op r = .var

lemma Interned.onlyLeaves (h : Interned ctx) {op : SymOp} (hop : op = .const ∨ op = .var)
    (w aux : Nat) : OnlyLeaves ctx (ctx.intern op w [] aux).2 := by
  have hf := h.filed op w aux (forall_mem_nil _)
  have hid := hf.identity
  simp only [SymContext.identity, Prod.mk.injEq] at hid
  intro r hr
  rcases hf.only r hr with hold | rfl
  · exact .inl hold
  · rw [hid.1]
    exact .inr hop

lemma Ok.mkConst_onlyLeaves (h : Ok ctx) (v : APInt) : OnlyLeaves ctx (ctx.mkConst v).2 := by
  unfold SymContext.mkConst
  split
  · exact h.toInterned.onlyLeaves (.inl rfl) _ _
  · have hn : (ctx.wideSlot v).2.nodes = ctx.nodes := by
      unfold SymContext.wideSlot
      split <;> rfl
    intro r hr
    rcases (h.wideSlot v).1.toInterned.onlyLeaves (.inl rfl) v.width (ctx.wideSlot v).1 r
      hr with hold | hleaf
    · rw [hn] at hold
      exact .inl hold
    · exact .inr hleaf

lemma Ok.mkConstWord_onlyLeaves (h : Ok ctx) (width : Nat) (val : UInt64) :
    OnlyLeaves ctx (ctx.mkConstWord width val).2 := by
  unfold SymContext.mkConstWord
  split
  · exact h.toInterned.onlyLeaves (.inl rfl) _ _
  · exact h.mkConst_onlyLeaves _

omit [BlockHash] in
lemma pushVar_nodes (ctx : SymContext) (v : SymVarInfo) : (ctx.pushVar v).nodes = ctx.nodes := by
  obtain ⟨names, heq, -⟩ := ctx.pushVar_eq v
  rw [heq]

lemma Ok.mkVar_onlyLeaves (h : Ok ctx) (name : String) {width : Nat} (hw : 0 < width) :
    OnlyLeaves ctx (ctx.mkVar name width).2 := by
  unfold SymContext.mkVar
  split
  · exact fun r hr => .inl hr
  · have hpush := h.pushVar (v := { name := name, width := width }) hw
    intro r hr
    rcases hpush.1.toInterned.onlyLeaves (.inr rfl) width ctx.vars.length r hr with hold | hleaf
    · rw [pushVar_nodes] at hold
      exact .inl hold
    · exact .inr hleaf

lemma Ok.declareInput_onlyLeaves (h : Ok ctx) (name : String) {width : Nat}
    (hw : 0 < width) (origin : SymInputOrigin) :
    OnlyLeaves ctx (ctx.declareInput name width origin).2 := by
  unfold SymContext.declareInput
  split
  · exact h.toInterned.onlyLeaves (.inr rfl) _ _
  · obtain ⟨hok₁, -, hpush⟩ :=
      h.pushVar (v := { name := name, width := width, inputOrigin := some origin }) hw
    obtain ⟨hok₂, -⟩ := hok₁.withInput (k := ⟨name, width, origin⟩) hpush rfl
    intro r hr
    rcases hok₂.toInterned.onlyLeaves (.inr rfl) width ctx.vars.length r hr with hold | hleaf
    · have hold' : r < (ctx.pushVar { name := name, width := width,
                                      inputOrigin := some origin }).nodes.length :=
        hold
      rw [pushVar_nodes] at hold'
      exact .inl hold'
    · exact .inr hleaf

lemma Declares.onlyLeaves (h : Ok ctx) (hd : Declares ctx ctx') : OnlyLeaves ctx ctx' := by
  cases hd with
  | mkConst v hv => exact h.mkConst_onlyLeaves v
  | mkConstWord width val hw => exact h.mkConstWord_onlyLeaves width val
  | mkVar name width hw => exact h.mkVar_onlyLeaves name hw
  | declareInput name width origin hw => exact h.declareInput_onlyLeaves name hw origin
  | varRef _ id r hr =>
    obtain ⟨v, -, heq⟩ := Option.map_eq_some_iff.mp hr
    have hleaves := h.toInterned.onlyLeaves (.inr rfl) v.width id
    rw [heq] at hleaves
    exact hleaves
  | mkFreshVar width stem hw =>
    exact (h.withCounter _).mkVar_onlyLeaves _ hw

lemma Typed.declares (h : Typed ctx) (hd : Declares ctx ctx') : Typed ctx' := by
  obtain ⟨hok, he⟩ := Creates.ok h.toOk hd.creates
  have hnew := hd.onlyLeaves h.toOk
  refine ⟨hok, ?_, ?_⟩
  · intro r hr
    rcases hnew r hr with hold | hleaf
    · rw [he.op hold, he.width hold, he.aux hold, h.toAcyclic.operands_extend he hold]
      have hmap : (ctx.operands r).map ctx'.width = (ctx.operands r).map ctx.width := by
        apply map_congr_left
        intro c hc
        exact he.width (h.operand_lt hold hc)
      rw [hmap]
      exact h.shapes r hold
    · rw [(hok.nodes r hr).leaf hleaf]
      rcases hleaf with hop | hop
      · rw [hop]
        rfl
      · rw [hop]
        rfl
  · intro r hr
    rcases hnew r hr with hold | hleaf
    · rw [he.op hold, h.toAcyclic.operands_extend he hold]
      exact h.arms r hold
    · intro hite
      rw [hite] at hleaf
      rcases hleaf with hop | hop
      · cases hop
      · cases hop

end SymContext

variable [BlockHash] [ProjectionHash] [KnownTransfer]

inductive SymBuilder.Built : SymBuilder → Prop
  | empty : Built {}
  | leaf {s : SymBuilder} {ctx : SymContext} (hs : Built s) (h : s.ctx.Declares ctx) :
      Built { s with ctx := ctx }
  | arith {s t : SymBuilder} {r : SymRef} (hs : Built s) (n w : Nat) (c : ArithCall)
    (hc : c.Legal s w) (h : (c.run n).run s = some (r, t)) : Built t
  | logic {s t : SymBuilder} {r : SymRef} (hs : Built s) (n w : Nat) (c : LogicCall)
    (hc : c.Legal s w) (h : (c.run n).run s = some (r, t)) : Built t
  | struct {s t : SymBuilder} {r : SymRef} (hs : Built s) (n : Nat) (c : StructCall)
    (hc : c.Legal s) (h : (c.run n).run s = some (r, t)) : Built t
  | compare {s t : SymBuilder} {r : SymRef} (hs : Built s) (n w : Nat) (c : CompareCall)
    (hc : c.Legal s w) (h : (c.run n).run s = some (r, t)) : Built t

inductive BuilderCall
  | arith (w : Nat) (c : ArithCall)
  | logic (w : Nat) (c : LogicCall)
  | struct (c : StructCall)
  | compare (w : Nat) (c : CompareCall)

def BuilderCall.run (n : Nat) : BuilderCall → Build SymRef
  | arith _ c => c.run n
  | logic _ c => c.run n
  | struct c => c.run n
  | compare _ c => c.run n

def BuilderCall.Legal (s : SymBuilder) : BuilderCall → Prop
  | arith w c => c.Legal s w
  | logic w c => c.Legal s w
  | struct c => c.Legal s
  | compare w c => c.Legal s w

instance (s : SymBuilder) (r : SymRef) (w : Nat) : Decidable (Has s r w) :=
  inferInstanceAs (Decidable (_ ∧ _))

instance (s : SymBuilder) (c : BuilderCall) : Decidable (c.Legal s) :=
  match c with
  | .arith w (.mkAdd ops) | .arith w (.mkMul ops) =>
      inferInstanceAs (Decidable (∀ q ∈ ops, Has s q w))
  | .arith w (.mkNeg a) => inferInstanceAs (Decidable (Has s a w))
  | .arith w (.mkSub a b) | .arith w (.mkUDiv a b) | .arith w (.mkURem a b) | .arith w (.mkSDiv a b)
  | .arith w (.mkSRem a b) => inferInstanceAs (Decidable (Has s a w ∧ Has s b w))
  | .logic w (.mkAnd ops) | .logic w (.mkOr ops) | .logic w (.mkXor ops) =>
    inferInstanceAs (Decidable (∀ q ∈ ops, Has s q w))
  | .logic w (.mkNot a) => inferInstanceAs (Decidable (Has s a w))
  | .logic w (.mkShl a b) | .logic w (.mkLShr a b) | .logic w (.mkAShr a b) | .logic w (.mkRotL a b)
  | .logic w (.mkRotR a b) => inferInstanceAs (Decidable (Has s a w ∧ Has s b (s.ctx.width b)))
  | .struct (.mkExtract a low w) =>
    inferInstanceAs (Decidable (Has s a (s.ctx.width a) ∧ 0 < w ∧ low + w ≤ s.ctx.width a))
  | .struct (.mkConcat ops) => inferInstanceAs (Decidable (∀ q ∈ ops, Has s q (s.ctx.width q)))
  | .struct (.mkZExt a w) | .struct (.mkSExt a w) =>
    inferInstanceAs (Decidable (Has s a (s.ctx.width a) ∧ s.ctx.width a ≤ w))
  | .struct (.mkIte c t e) =>
    inferInstanceAs (Decidable (Has s c 1 ∧ Has s t (s.ctx.width t) ∧ Has s e (s.ctx.width t)))
  | .compare w (.mkEq a b) | .compare w (.mkNe a b) | .compare w (.mkUlt a b) | .compare w
      (.mkUle a b)
  | .compare w (.mkSlt a b) | .compare w (.mkSle a b) =>
      inferInstanceAs (Decidable (Has s a w ∧ Has s b w))

def SymBuilder.calls (n : Nat) : List BuilderCall → SymBuilder → Option SymBuilder
  | [], s => some s
  | c :: rest, s => if c.Legal s then ((c.run n).run s).bind fun p => p.2.calls n rest else none

lemma SymBuilder.Built.calls {n : Nat} {rest : List BuilderCall} {s t : SymBuilder} (hs : s.Built)
    (h : s.calls n rest = some t) : t.Built := by
  induction rest generalizing s with
  | nil => exact Option.some.inj h ▸ hs
  | cons c rest ih =>
    unfold SymBuilder.calls at h
    split at h
    next hc =>
      obtain ⟨⟨r, u⟩, hrun, h⟩ := Option.bind_eq_some_iff.mp h
      refine ih ?_ h
      cases c with
      | arith w c => exact hs.arith n w c hc hrun
      | logic w c => exact hs.logic n w c hc hrun
      | struct c => exact hs.struct n c hc hrun
      | compare w c => exact hs.compare n w c hc hrun
    · cases h

/-- The graph is well-shaped and the retained images are right, for all values of the variables. -/
def SymBuilder.Valid (s : SymBuilder) : Prop := ∀ vals, s.Ok s.ctx vals

omit [ProjectionHash] [KnownTransfer] in
lemma SymBuilder.Valid.ok {s : SymBuilder} (h : s.Valid) {last : SymContext}
    (he : s.ctx.Extends last) (vals : List APInt) : s.Ok last vals := by
  obtain ⟨htyped, hproj⟩ := h vals
  refine ⟨htyped, ?_⟩
  intro e hmem image himage
  obtain ⟨hsrc, hlt, hw, hnum⟩ := hproj e hmem image himage
  refine ⟨hsrc, hlt, hw, ?_⟩
  rw [htyped.num_extend he vals hlt, htyped.num_extend he vals hsrc]
  exact hnum

omit [ProjectionHash] [KnownTransfer] in
lemma SymBuilder.valid_empty : SymBuilder.Valid {} := by
  intro vals
  refine ⟨⟨SymContext.init_ok, ?_, ?_⟩, forall_mem_nil _⟩
  · exact fun r hr => absurd hr (Nat.not_lt_zero r)
  · exact fun r hr => absurd hr (Nat.not_lt_zero r)

omit [ProjectionHash] [KnownTransfer] in
lemma SymBuilder.Valid.leaf {s : SymBuilder} (h : s.Valid) {ctx : SymContext}
    (hd : s.ctx.Declares ctx) : SymBuilder.Valid { s with ctx := ctx } := by
  intro vals
  have he := (SymContext.Creates.ok (h vals).typed.toOk hd.creates).2
  obtain ⟨-, hproj⟩ := h.ok he vals
  refine ⟨(h vals).typed.declares hd, ?_⟩
  intro e hmem image himage
  obtain ⟨hsrc, hlt, hw, hnum⟩ := hproj e hmem image himage
  exact ⟨hsrc.trans_le he.length_le, hlt.trans_le he.length_le, (he.width hlt).trans hw, hnum⟩

omit [ProjectionHash] [KnownTransfer] in
/-- A call keeps a state valid when it means something in every last context. -/
theorem SymBuilder.Valid.call {s t : SymBuilder} (h : s.Valid) {m : Build SymRef} {r : SymRef}
    (hm : ∀ last vals, ∃ w x, Means last vals s m w x) (hrun : m.run s = some (r, t)) :
    t.Valid := by
  intro vals
  obtain ⟨w, x, hmeans⟩ := hm t.ctx vals
  exact (hmeans (h.ok (m.grows hrun) vals) r t hrun (.refl _)).1

end NeverD.Sym
