import NeverD.Sym.Canonical
import NeverD.Sym.Concat

namespace NeverD.Sym
open Lib
open Words List
open Nat (mod_lt mod_eq_of_lt testBit_and eq_of_testBit_eq)

variable {P : Prop} {t : SymBuilder}

def kSymExprExtensionCompareMaxWords : Nat := 64

def kSymExprExtensionEqualityMaxSteps : Nat := 32

/-- A literal against the largest value of a zero extension: above, equal or below. -/
def SymContext.compareConstantWithZExtMaximum (ctx : SymContext) (extension constant : SymRef) :
    Option Int :=
  if ctx.op extension ≠ .zext ∨ !ctx.isConst constant ∨
      kSymExprExtensionCompareMaxWords < (ctx.width constant - 1) / 64 + 1 then none
  else
    let narrow := ctx.width (ctx.operand extension 0)
    let value := ctx.constValue constant
    if narrow < value.getActiveBits then some 1
    else if value.isMaskOf narrow then some 0
    else some (-1)

section

variable [BlockHash] (n : Nat) (B : Builders)

def truth (b : Bool) : Build SymRef := if b then Build.mkTrue else Build.mkFalse

/-- Peel extensions off both words, or off one when the other is a literal. -/
def peelExtensions : Nat → SymRef → SymRef → Build (Option (SymRef × SymRef))
  | 0, a, b => pure (some (a, b))
  | n + 1, a, b => do
    let ctx ← Build.context
    let x := if ctx.isConst a then b else a
    let y := if ctx.isConst a then a else b
    let inner := ctx.operand x 0
    let narrow := ctx.width inner
    let value := ctx.constValue y
    if ctx.op x ≠ .zext ∧ ctx.op x ≠ .sext then pure (some (x, y))
    else if ctx.op y = ctx.op x ∧ ctx.width (ctx.operand y 0) = narrow then
      peelExtensions n inner (ctx.operand y 0)
    else if !ctx.isConst y ∨ kSymExprExtensionCompareMaxWords < (ctx.width y - 1) / 64 + 1 then
      pure (some (x, y))
    else if !(if ctx.op x = .zext then value.isIntN narrow else value.isSignedIntN narrow) then
      pure none
    else do
      let literal ← Build.mkConst (value.zextOrTrunc narrow)
      peelExtensions n inner literal

def bitEquality (a b : SymRef) : Build (Option SymRef) := do
  let ctx ← Build.context
  if ctx.width a ≠ 1 then pure none
  else if ctx.isConst a then some <$> if ctx.isConstZero a then B.mkNot b else pure b
  else if ctx.isConst b then some <$> if ctx.isConstZero b then B.mkNot a else pure a
  else pure none

def tagEquality (selected literal : SymRef) : Build (Option SymRef) := do
  let ctx ← Build.context
  let condition := ctx.operand selected 0
  let taken := ctx.operand selected 1
  let other := ctx.operand selected 2
  if ctx.op selected = .ite ∧ ctx.isConst literal ∧ ctx.isConst taken ∧ ctx.isConst other then
    some <$> if literal = taken then pure condition
    else if literal = other then B.mkNot condition
    else Build.mkFalse
  else pure none

/-- Peel complements and negations off a word that is compared with a literal. -/
def peelLiteral : Nat → SymRef → SymRef → Build (Option (SymRef × SymRef))
  | 0, _, _ => Build.stop
  | n + 1, a, b => do
    let ctx ← Build.context
    let first := ctx.operand a 0
    let second := ctx.operand a 1
    let mask := ctx.constValue first
    let target := ctx.constValue b
    if !ctx.isConst b then pure (some (a, b))
    else if ctx.op a = .not then do
      let literal ← Build.mkConst target.not
      peelLiteral n first literal
    else if ctx.isScaled a ∧ ctx.isConstOnes first then do
      let literal ← Build.mkConst target.neg
      peelLiteral n second literal
    else if ctx.hasConstantMask a ∧ ctx.numOperands a = 2 ∧ ctx.op second = .not then
      if !(target.and mask.not).isZero then pure none
      else do
        let bits ← Build.mkConst mask
        let word ← B.mkAnd [ctx.operand second 0, bits]
        let literal ← Build.mkConst (target.not.and mask)
        peelLiteral n word literal
    else pure (some (a, b))

/-- The bits that a union forces must be in the literal, and the others decide. -/
def forcedEquality (a b : SymRef) : Build (Option SymRef) := do
  let ctx ← Build.context
  let forced := ctx.constValue (ctx.operand a 0)
  let target := ctx.constValue b
  if ctx.op a = .or ∧ ctx.isConst (ctx.operand a 0) ∧ ctx.isConst b then
    some <$> if target.and forced ≠ forced then Build.mkFalse
    else do
      let word ← soleOr B.mkOr ((ctx.operands a).drop 1)
      let outside ← Build.mkConst forced.not
      let seen ← B.mkAnd [word, outside]
      let literal ← Build.mkConst (target.and forced.not)
      B.mkEq seen literal
  else pure none

def finishEq (a b : SymRef) : Build SymRef := do
  let ctx ← Build.context
  if ctx.isConst a ∧ ctx.isConst b then truth (ctx.constValue a = ctx.constValue b)
  else
    (recoverPackedEquality B a b).orElse <|
    (forcedEquality B a b).orElse <|
    Build.intern .eq 1 (if b < a then [b, a] else [a, b]) 0

def literalEquality (a b : SymRef) : Build SymRef := do
  let ctx ← Build.context
  match ← peelLiteral B n (if ctx.isConst a then b else a) (if ctx.isConst a then a else b) with
  | none => Build.mkFalse
  | some words => finishEq B words.1 words.2

def mkEq (a b : SymRef) : Build SymRef := do
  let ctx ← Build.context
  if a = b then Build.mkTrue
  else if ctx.isConst a ∧ ctx.isConst b then truth (ctx.constValue a = ctx.constValue b)
  else do
    match ← peelExtensions kSymExprExtensionEqualityMaxSteps a b with
    | none => Build.mkFalse
    | some words =>
      if words.1 = words.2 then Build.mkTrue
      else
        (bitEquality B words.1 words.2).orElse <|
        (tagEquality B words.1 words.2).orElse <|
        (tagEquality B words.2 words.1).orElse <|
        literalEquality n B words.1 words.2

def mkNe (a b : SymRef) : Build SymRef := do
  let equal ← B.mkEq a b
  B.mkNot equal

def mkUlt (a b : SymRef) : Build SymRef := do
  let ctx ← Build.context
  if a = b then Build.mkFalse
  else if ctx.isConst a ∧ ctx.isConst b then
    truth ((ctx.constValue a).toNat < (ctx.constValue b).toNat)
  else if ctx.isConstZero b then Build.mkFalse
  else if ctx.isConstZero a then mkNe B b a
  else if (ctx.compareConstantWithZExtMaximum b a).any (0 ≤ ·) then Build.mkFalse
  else if (ctx.compareConstantWithZExtMaximum a b).any (0 < ·) then Build.mkTrue
  else if ctx.isConstOnes b ∧ !ctx.isConst a then mkNe B a b
  else Build.intern .ult 1 [a, b] 0

def mkUle (a b : SymRef) : Build SymRef := do
  let ctx ← Build.context
  if a = b then Build.mkTrue
  else if ctx.isConst a ∧ ctx.isConst b then
    truth ((ctx.constValue a).toNat ≤ (ctx.constValue b).toNat)
  else if ctx.isConstZero a then Build.mkTrue
  else if ctx.isConstZero b then B.mkEq a b
  else if (ctx.compareConstantWithZExtMaximum a b).any (0 ≤ ·) then Build.mkTrue
  else if (ctx.compareConstantWithZExtMaximum b a).any (0 < ·) then Build.mkFalse
  else if ctx.isConstOnes b then Build.mkTrue
  else Build.intern .ule 1 [a, b] 0

def signOf (a b : SymRef) : Build (Option SymRef) := do
  let ctx ← Build.context
  if ctx.isConstZero b ∧ isBitwise (ctx.op a) then recoverSignComparison B a else pure none

def mkSlt (a b : SymRef) : Build SymRef := do
  let ctx ← Build.context
  let x := ctx.constValue a
  let y := ctx.constValue b
  if a = b then Build.mkFalse
  else if ctx.isConst a ∧ ctx.isConst b then truth (toInt x.width x.toNat < toInt y.width y.toNat)
  else if ctx.width a = 1 then
    if ctx.isConstZero b then pure a else B.mkUlt b a
  else (signOf B a b).orElse (Build.intern .slt 1 [a, b] 0)

def mkSle (a b : SymRef) : Build SymRef := do
  let ctx ← Build.context
  let x := ctx.constValue a
  let y := ctx.constValue b
  if a = b then Build.mkTrue
  else if ctx.isConst a ∧ ctx.isConst b then truth (toInt x.width x.toNat ≤ toInt y.width y.toNat)
  else Build.intern .sle 1 [a, b] 0

end

section

variable {v w x y : Nat}

lemma toInt_sextOf (hv : 0 < v) (hx : x < 2 ^ v) (hw : v ≤ w) :
    toInt w (sextOf v w x) = toInt v x := by
  have hmsb : msb w (sextOf v w x) = msb v x := by
    rw [msb, testBit_sextOf hx hw, decide_eq_true (by omega), Bool.true_and]
    split
    · rw [msb]
      congr 1
      omega
    · rfl
  have hle : 2 ^ v ≤ 2 ^ w := Nat.pow_le_pow_right two_pos hw
  rw [toInt, hmsb, toInt, sextOf]
  cases msb v x with
  | true =>
    simp only [if_true]
    push_cast [hle]
    ring
  | false => simp

lemma toInt_range (hv : 0 < v) (hx : x < 2 ^ v) : -2 ^ (v - 1) ≤ toInt v x ∧
    toInt v x < 2 ^ (v - 1) := by
  have hpow : 2 ^ v = 2 ^ (v - 1) * 2 := by rw [← pow_succ]; congr 1; omega
  have hcast : (2 : Int) ^ (v - 1) = ((2 ^ (v - 1) : Nat) : Int) := by push_cast; rfl
  have hcast' : (2 : Int) ^ v = ((2 ^ v : Nat) : Int) := by push_cast; rfl
  rw [toInt, msb_iff hv hx, hcast, hcast']
  by_cases h : 2 ^ (v - 1) ≤ x
  · rw [decide_eq_true h, if_pos rfl]
    omega
  · rw [decide_eq_false h, if_neg (by simp)]
    omega

theorem sextOf_of_range (hv : 0 < v) (hw : v < w) (hx : x < 2 ^ w) (h1 : -2 ^ (v - 1) ≤ toInt w x)
    (h2 : toInt w x < 2 ^ (v - 1)) : sextOf v w (x % 2 ^ v) = x := by
  have hpow : 2 ^ v = 2 ^ (v - 1) * 2 := by rw [← pow_succ]; congr 1; omega
  have hwide : 2 ^ w = 2 ^ v * 2 ^ (w - v) := by rw [← pow_add]; congr 1; omega
  have hcast : (2 : Int) ^ (v - 1) = ((2 ^ (v - 1) : Nat) : Int) := by push_cast; rfl
  have hcast' : (2 : Int) ^ w = ((2 ^ w : Nat) : Int) := by push_cast; rfl
  have hmod : x % 2 ^ v < 2 ^ v := mod_lt _ (Nat.two_pow_pos v)
  have hle : 2 ^ v ≤ 2 ^ w := Nat.pow_le_pow_right two_pos hw.le
  rw [toInt, hcast, hcast'] at h1 h2
  rw [sextOf, msb_iff hv hmod]
  cases hm : msb w x with
  | true =>
    rw [hm, if_pos rfl] at h1
    -- the word is one of the last ones below the power of two
    have hlast : x = 2 ^ v * (2 ^ (w - v) - 1) + (x - (2 ^ w - 2 ^ v)) := by
      rw [Nat.mul_sub, ← hwide, Nat.mul_one]
      omega
    have hrem : x % 2 ^ v = x - (2 ^ w - 2 ^ v) := by
      conv_lhs => rw [hlast]
      rw [Nat.mul_add_mod]
      exact mod_eq_of_lt (by omega)
    rw [hrem, decide_eq_true (by omega), if_pos rfl]
    omega
  | false =>
    rw [hm, if_neg (by simp)] at h2
    have hrem : x % 2 ^ v = x := mod_eq_of_lt (by omega)
    rw [hrem, decide_eq_false (by omega), if_neg (by simp)]

lemma sextOf_inj (hx : x < 2 ^ v) (hy : y < 2 ^ v) (hw : v ≤ w) : sextOf v w x = sextOf v w y ↔
    x = y := by
  constructor
  · intro h
    have hmod := congrArg (fun z => z % 2 ^ v) h
    rwa [sextOf_mod_low hx hw le_rfl, sextOf_mod_low hy hw le_rfl, mod_eq_of_lt hx,
      mod_eq_of_lt hy] at hmod
  · intro h
    rw [h]

end

section

variable [BlockHash] {last : SymContext} {vals : List APInt} {s : SymBuilder} {w : Nat}
    {B : Builders} {a b : SymRef}

lemma At.literal_unique (h : At last vals s) (ha : Has s a w) (hb : Has s b w)
    (hca : s.ctx.isConst a = true)
    (hcb : s.ctx.isConst b = true) (heq : last.num vals a = last.num vals b) : a = b := by
  have hopa : s.ctx.op a = .const := of_decide_eq_true hca
  have hopb : s.ctx.op b = .const := of_decide_eq_true hcb
  have hsa := h.shape ha
  have hsb := h.shape hb
  rw [hopa] at hsa
  rw [hopb] at hsb
  refine (h.typed.toOk.eq_iff ha.1 hb.1).mpr ⟨hopa.trans hopb.symm, ha.2.trans hb.2.symm, ?_, ?_⟩
  · rw [SymContext.payload, SymContext.payload, if_pos hopa, if_pos hopb, ← h.const_num ha hca,
      ← h.const_num hb hcb, heq]
  · rw [map_eq_nil_iff.mp hsa, map_eq_nil_iff.mp hsb]

def Decides (last : SymContext) (vals : List APInt) (t : SymBuilder) (o : Option (SymRef × SymRef))
    (P : Prop) : Prop :=
  (o = none → ¬ P) ∧ ∀ p, o = some p → ∃ v, Has t p.1 v ∧ Has t p.2 v ∧
    (last.num vals p.1 = last.num vals p.2 ↔ P)

omit [BlockHash] in
lemma Decides.congr {o : Option (SymRef × SymRef)} {Q : Prop} (h : Decides last vals t o P)
    (hpq : P ↔ Q) : Decides last vals t o Q :=
  ⟨fun ho hq => h.1 ho (hpq.mpr hq), fun p hp => by
    obtain ⟨v, h1, h2, h3⟩ := h.2 p hp
    exact ⟨v, h1, h2, h3.trans hpq⟩⟩

omit [BlockHash] in
lemma decides_none (h : ¬ P) : Decides last vals t none P :=
  ⟨fun _ => h, fun _ hp => (nomatch hp)⟩

omit [BlockHash] in
lemma decides_some (ha : Has t a w) (hb : Has t b w)
    (h : last.num vals a = last.num vals b ↔ P) : Decides last vals t (some (a, b)) P :=
  ⟨fun ho => (nomatch ho), fun p hp => by
    cases hp
    exact ⟨w, ha, hb, h⟩⟩

theorem extended_literal (h : At last vals s) (ha : Has s a w)
    (hop : s.ctx.op a = .zext ∨ s.ctx.op a = .sext) {value : APInt} (hv : value.width = w) :
    let narrow := s.ctx.width (s.ctx.operand a 0)
    if (if s.ctx.op a = .zext then value.isIntN narrow else value.isSignedIntN narrow) = true then
      (last.num vals (s.ctx.operand a 0) = value.toNat % 2 ^ narrow ↔ last.num vals a = value.toNat)
    else last.num vals a ≠ value.toNat := by
  dsimp only
  have hvlt := value.toNat_lt
  rw [hv] at hvlt
  by_cases hz : s.ctx.op a = .zext
  · obtain ⟨-, hin, hlt, hnum⟩ := h.zext_num ha hz
    have hx := h.lt hin
    rw [if_pos hz, hnum, APInt.isIntN]
    split
    next hfit => rw [mod_eq_of_lt (APInt.toNat_lt_of_activeBits (of_decide_eq_true hfit))]
    next hfit =>
      intro heq
      rw [heq] at hx
      exact hfit (decide_eq_true (Nat.size_le.mpr hx))
  · obtain ⟨-, hin, hlt, hnum⟩ := h.sext_num ha (hop.resolve_left hz)
    have hx := h.lt hin
    have hpos := h.pos hin
    rw [if_neg hz, hnum, APInt.isSignedIntN, hv]
    split
    next hfit =>
      have hfit := of_decide_eq_true hfit
      have hext := sextOf_of_range hpos hlt hvlt hfit.1 hfit.2
      constructor
      · intro heq
        rw [heq, hext]
      · intro heq
        rw [← hext] at heq
        exact (sextOf_inj hx (mod_lt _ (Nat.two_pow_pos _)) hlt.le).mp heq
    next hfit =>
      intro heq
      apply hfit
      rw [← heq, toInt_sextOf hpos hx hlt.le]
      exact decide_eq_true (toInt_range hpos hx)

lemma peelExtensions_spec {n : Nat} (ha : Has s a w) (hb : Has s b w) :
    Triple last vals s (peelExtensions n a b) fun o t =>
      Decides last vals t o (last.num vals a = last.num vals b) := by
  induction n generalizing s w a b with
  | zero => exact triple_pure fun _ => decides_some ha hb Iff.rfl
  | succ n ih =>
    apply triple_context
    intro h
    obtain ⟨x, hx, y, hy, hxa, hya, hxy⟩ : ∃ x, Has s x w ∧ ∃ y, Has s y w ∧
        (if s.ctx.isConst a then b else a) = x ∧ (if s.ctx.isConst a then a else b) = y ∧
        (last.num vals x = last.num vals y ↔ last.num vals a = last.num vals b) := by
      split
      · exact ⟨b, hb, a, ha, rfl, rfl, eq_comm⟩
      · exact ⟨a, ha, b, hb, rfl, rfl, .rfl⟩
    rw [hxa, hya]
    refine triple_ite (fun _ => triple_pure fun _ => decides_some hx hy hxy) fun hop =>
      triple_ite (fun hsame => ?_) fun _ =>
        triple_ite (fun _ => triple_pure fun _ => decides_some hx hy hxy) fun hc => ?_
    · have hop : s.ctx.op x = .zext ∨ s.ctx.op x = .sext := by
        rw [not_and_or, not_not, not_not] at hop
        exact hop
      rcases hop with ho | ho
      · obtain ⟨-, hin, -, hnum⟩ := h.zext_num hx ho
        obtain ⟨-, hin', -, hnum'⟩ := h.zext_num hy (hsame.1.trans ho)
        rw [hsame.2] at hin'
        refine triple_mono (ih hin hin') fun o t _ _ hd => hd.congr ?_
        rw [← hnum, ← hnum']
        exact hxy
      · obtain ⟨-, hin, hlt, hnum⟩ := h.sext_num hx ho
        obtain ⟨-, hin', -, hnum'⟩ := h.sext_num hy (hsame.1.trans ho)
        rw [hsame.2] at hin' hnum'
        refine triple_mono (ih hin hin') fun o t _ _ hd => hd.congr ?_
        rw [← sextOf_inj (h.lt hin) (h.lt hin') hlt.le, ← hnum, ← hnum']
        exact hxy
    · have hop : s.ctx.op x = .zext ∨ s.ctx.op x = .sext := by
        rw [not_and_or, not_not, not_not] at hop
        exact hop
      rw [not_or, Bool.not_eq_true, Bool.not_eq_false'] at hc
      have hlit := extended_literal h hx hop (h.const_width hy hc.1)
      rw [← h.const_num hy hc.1] at hlit
      dsimp only at hlit
      have hin : Has s (s.ctx.operand x 0) (s.ctx.width (s.ctx.operand x 0)) := by
        rcases hop with ho | ho
        · exact (h.zext_num hx ho).2.1
        · exact (h.sext_num hx ho).2.1
      refine triple_ite (fun hfit => ?_) fun hfit => ?_
      · rw [Bool.not_eq_true'] at hfit
        rw [hfit, if_neg (by simp)] at hlit
        exact triple_pure fun _ => decides_none fun heq => hlit (hxy.mpr heq)
      · rw [Bool.not_eq_true, Bool.not_eq_false'] at hfit
        rw [hfit, if_pos rfl] at hlit
        refine triple_bind (means_mkConst
          (c := (s.ctx.constValue y).zextOrTrunc (s.ctx.width (s.ctx.operand x 0)))
          (h.pos hin) rfl (toNat_zextOrTrunc ..)) ?_
        intro literal t _ he hl
        refine triple_mono (ih (hin.mono he) hl.1) fun o u _ _ hd => hd.congr ?_
        rw [hl.2, ← h.const_num hy hc.1]
        exact hlit.trans hxy

omit [BlockHash] in
lemma bit_congr {Q : Prop} [Decidable P] [Decidable Q] (h : P ↔ Q) :
    bit (decide P) = bit (decide Q) :=
  congrArg bit (decide_eq_decide.mpr h)

lemma means_yes [Decidable P] (h : P) : Means last vals s Build.mkTrue 1 (bit (decide P)) := by
  rw [decide_eq_true h]
  exact means_mkTrue

lemma means_no [Decidable P] (h : ¬ P) : Means last vals s Build.mkFalse 1 (bit (decide P)) := by
  rw [decide_eq_false h]
  exact means_mkFalse

lemma At.literal_bit (h : At last vals s) (ha : Has s a 1) (hc : s.ctx.isConst a = true) :
    last.num vals a = if s.ctx.isConstZero a then 0 else 1 := by
  have hlt := h.lt ha
  split
  next hz => exact h.zero_num ha hz
  next hz =>
    rw [SymContext.isConstZero, hc, Bool.true_and, APInt.isZero, decide_eq_true_eq,
      ← h.const_num ha hc] at hz
    omega

variable (hB : B.Sound last vals)
include hB

lemma means_bitAgainst {literal word : SymRef} (h : At last vals s) (hl : Has s literal 1)
    (hw : Has s word 1) (hc : s.ctx.isConst literal = true) :
    Means last vals s (if s.ctx.isConstZero literal then B.mkNot word else pure word) 1
      (bit (last.num vals literal = last.num vals word)) := by
  have hlit := h.literal_bit hl hc
  have hlt := h.lt hw
  have hbit : last.num vals word = 0 ∨ last.num vals word = 1 := by omega
  refine means_ite (fun hz => ?_) fun hz => ?_
  · rw [if_pos hz] at hlit
    refine (hB.mkNot hw).congr ?_
    rw [hlit]
    rcases hbit with h0 | h0
    · rw [h0]
      rfl
    · rw [h0]
      rfl
  · rw [if_neg hz] at hlit
    refine means_pure fun _ => ⟨hw, ?_⟩
    rw [hlit]
    rcases hbit with h0 | h0
    · rw [h0]
      rfl
    · rw [h0]
      rfl

lemma meansIf_bitEquality (ha : Has s a w) (hb : Has s b w) :
    MeansIf last vals s (bitEquality B a b) 1 (bit (last.num vals a = last.num vals b)) := by
  apply meansIf_context
  intro h
  rw [ha.2]
  refine meansIf_ite (fun _ => meansIf_none) fun hw => ?_
  rw [not_not] at hw
  subst hw
  refine meansIf_ite (fun hc => ?_) fun _ => meansIf_ite (fun hc => ?_) fun _ => meansIf_none
  · exact meansIf_some (means_bitAgainst hB h ha hb hc)
  · rw [bit_congr eq_comm]
    exact meansIf_some (means_bitAgainst hB h hb ha hc)

theorem meansIf_tagEquality (ha : Has s a w) (hb : Has s b w) :
    MeansIf last vals s (tagEquality B a b) 1 (bit (last.num vals a = last.num vals b)) := by
  apply meansIf_context
  intro h
  refine meansIf_ite (fun hk => ?_) fun _ => meansIf_none
  obtain ⟨hop, hlit, hct, hco⟩ := hk
  obtain ⟨hc, ht, ho, hnum⟩ := h.ite_num ha hop
  have harms : s.ctx.operand a 1 ≠ s.ctx.operand a 2 := h.typed.arms a ha.1 hop
  have hdiff : last.num vals (s.ctx.operand a 1) ≠ last.num vals (s.ctx.operand a 2) := fun heq =>
    harms (h.literal_unique ht ho hct hco heq)
  have hclt := h.lt hc
  have hcond : last.num vals (s.ctx.operand a 0) = 0 ∨ last.num vals (s.ctx.operand a 0) = 1 := by
    omega
  apply meansIf_some
  refine means_ite (fun heq => ?_) fun hne => means_ite (fun heq => ?_) fun hne' => ?_
  · refine means_pure fun _ => ⟨hc, ?_⟩
    rw [hnum, heq]
    rcases hcond with h0 | h0
    · rw [h0, if_pos rfl, decide_eq_false hdiff.symm]
      rfl
    · rw [h0, if_neg (by simp), decide_eq_true rfl]
      rfl
  · refine (hB.mkNot hc).congr ?_
    rw [hnum, heq]
    rcases hcond with h0 | h0
    · rw [h0, if_pos rfl, decide_eq_true rfl]
      rfl
    · rw [h0, if_neg (by simp), decide_eq_false hdiff]
      rfl
  · refine means_no ?_
    intro heq
    rw [hnum] at heq
    split at heq
    · exact hne' (h.literal_unique hb ho hlit hco heq.symm)
    · exact hne (h.literal_unique hb ht hlit hct heq.symm)

omit hB

omit [BlockHash] in
theorem masked_not_eq_iff {m x t : Nat} (hx : x < 2 ^ w) (ht : t < 2 ^ w)
    (hsub : ∀ i, t.testBit i = true → m.testBit i = true) : x &&& m = notOf w t &&& m ↔
    m &&& notOf w x = t := by
  have hbits : ∀ i, ((x &&& m).testBit i = (notOf w t &&& m).testBit i ↔
      (m &&& notOf w x).testBit i = t.testBit i) := by
    intro i
    rw [testBit_and, testBit_and, testBit_and, testBit_notOf ht, testBit_notOf hx]
    by_cases hi : i < w
    · have hs := hsub i
      revert hs
      cases t.testBit i <;> cases m.testBit i <;> cases x.testBit i <;> simp [hi]
    · have hi' := not_lt.mp hi
      simp [hi, testBit_of_lt ht hi', testBit_of_lt hx hi']
  constructor
  · intro h
    exact eq_of_testBit_eq fun i => (hbits i).mp (by rw [h])
  · intro h
    exact eq_of_testBit_eq fun i => (hbits i).mpr (by rw [h])

lemma peelLiteral_spec (hB : B.Sound last vals) {n : Nat} (ha : Has s a w) (hb : Has s b w) :
    Triple last vals s (peelLiteral B n a b) fun o t =>
      Decides last vals t o (last.num vals a = last.num vals b) := by
  induction n generalizing s a b with
  | zero => exact triple_stop
  | succ n ih =>
    apply triple_context
    intro h
    have hpos := h.pos ha
    have hself : Triple last vals s (pure (some (a, b))) fun o t =>
        Decides last vals t o (last.num vals a = last.num vals b) :=
      triple_pure fun _ => decides_some ha hb Iff.rfl
    refine triple_ite (fun _ => hself) fun hc => ?_
    rw [Bool.not_eq_true, Bool.not_eq_false'] at hc
    have hcw := h.const_width hb hc
    have hbn := h.const_num hb hc
    have hblt := h.lt hb
    refine triple_ite (fun hop => ?_) fun _ => triple_ite (fun hk => ?_) fun _ =>
      triple_ite (fun hk => ?_) fun _ => hself
    · obtain ⟨hin, hnum⟩ := h.not_num ha hop
      refine triple_bind (means_mkConst (c := (s.ctx.constValue b).not) (hcw ▸ hpos) hcw
        (toNat_not _)) ?_
      intro literal t _ he hl
      refine triple_mono (ih (hin.mono he) hl.1) fun o u _ _ hd => hd.congr ?_
      rw [hl.2, hcw, ← hbn, hnum]
      constructor
      · intro heq
        rw [heq, notOf_notOf hblt]
      · intro heq
        rw [← heq, notOf_notOf (h.lt hin)]
    · obtain ⟨h0, hc0, h1, -, hnum⟩ := h.scaled ha hk.1
      have hones := hk.2
      rw [SymContext.isConstOnes, Bool.and_eq_true] at hones
      rw [toNat_of_isAllOnes hones.2, h.const_width h0 hc0, ← negOf_eq_mul (h.lt h1)] at hnum
      refine triple_bind (means_mkConst (c := (s.ctx.constValue b).neg) (hcw ▸ hpos) hcw
        (toNat_neg _)) ?_
      intro literal t _ he hl
      refine triple_mono (ih (h1.mono he) hl.1) fun o u _ _ hd => hd.congr ?_
      rw [hl.2, hcw, ← hbn, hnum]
      constructor
      · intro heq
        rw [heq, negOf_negOf hblt]
      · intro heq
        rw [← heq, negOf_negOf (h.lt h1)]
    · obtain ⟨hmask, hlen, hnot⟩ := hk
      obtain ⟨-, h0, hc0, hrest, hnum⟩ := h.masked ha hmask
      have hops := SymContext.operands_two hlen
      rw [hops] at hrest hnum
      have h1 := hrest _ (mem_singleton_self _)
      obtain ⟨hin, hnum1⟩ := h.not_num h1 hnot
      have hmw := h.const_width h0 hc0
      have hmlt := (s.ctx.constValue (s.ctx.operand a 0)).toNat_lt
      rw [hmw] at hmlt
      have hvalue : last.num vals a = (s.ctx.constValue (s.ctx.operand a 0)).toNat &&&
          notOf w (last.num vals (s.ctx.operand (s.ctx.operand a 1) 0)) := by
        refine hnum.trans ?_
        show _ &&& (last.num vals (s.ctx.operand a 1) &&& ones w) = _
        rw [hnum1, and_ones (notOf_lt ..)]
      refine triple_ite (fun hout => ?_) fun hin' => ?_
      · refine triple_pure fun _ => decides_none ?_
        intro heq
        rw [Bool.not_eq_true', APInt.isZero, decide_eq_false_iff_not, toNat_and_not hcw hmw] at hout
        apply hout
        rw [← hbn, ← heq, hvalue]
        apply eq_of_testBit_eq
        intro i
        rw [testBit_and, testBit_and, testBit_notOf hmlt, Nat.zero_testBit]
        cases (s.ctx.constValue (s.ctx.operand a 0)).toNat.testBit i <;> simp
      · rw [Bool.not_eq_true, Bool.not_eq_false'] at hin'
        refine triple_bind (means_mkConst (hmw ▸ hpos) hmw rfl) ?_
        intro bits t _ he hbits
        refine triple_bind (hB.mkAnd (has_pair (hin.mono he) hbits.1)) ?_
        intro word u _ heu hword
        have hlitw : ((s.ctx.constValue b).not.and (s.ctx.constValue (s.ctx.operand a 0))).toNat =
            notOf w (s.ctx.constValue b).toNat &&&
            (s.ctx.constValue (s.ctx.operand a 0)).toNat := by
          rw [toNat_and (show _ = (s.ctx.constValue b).not.width from hmw.trans hcw.symm),
            toNat_not, hcw]
        refine triple_bind (means_mkConst
          (c := (s.ctx.constValue b).not.and (s.ctx.constValue (s.ctx.operand a 0)))
          (hcw ▸ hpos) hcw hlitw) ?_
        intro literal x _ hex hl
        refine triple_mono (ih (hword.1.mono hex) hl.1) fun o u _ _ hd => hd.congr ?_
        simp only [map_cons, map_nil, andAll_cons, andAll_nil] at hword
        rw [hl.2, hword.2, hbits.2, and_ones hmlt, hvalue, ← hbn]
        refine masked_not_eq_iff (h.lt hin) hblt ?_
        intro i hi
        rw [hbn] at hi
        exact subset_of_isZero hcw hmw hin' i hi

omit [BlockHash] in
lemma forced_eq_iff {f x t : Nat} (hf : f < 2 ^ w) (hx : x < 2 ^ w)
    (hsub : ∀ i, f.testBit i = true → t.testBit i = true) (ht : t < 2 ^ w) :
    x &&& notOf w f = t &&& notOf w f ↔ f ||| x = t := by
  have hbits : ∀ i, ((x &&& notOf w f).testBit i = (t &&& notOf w f).testBit i ↔
      (f ||| x).testBit i = t.testBit i) := by
    intro i
    rw [testBit_and, testBit_and, Nat.testBit_or, testBit_notOf hf]
    by_cases hi : i < w
    · have hs := hsub i
      revert hs
      cases t.testBit i <;> cases f.testBit i <;> cases x.testBit i <;> simp [hi]
    · have hi' := not_lt.mp hi
      simp [testBit_of_lt ht hi', testBit_of_lt hx hi', testBit_of_lt hf hi']
  constructor
  · intro h
    exact eq_of_testBit_eq fun i => (hbits i).mp (by rw [h])
  · intro h
    exact eq_of_testBit_eq fun i => (hbits i).mpr (by rw [h])

lemma meansIf_forcedEquality (hB : B.Sound last vals) (ha : Has s a w) (hb : Has s b w) :
    MeansIf last vals s (forcedEquality B a b) 1 (bit (last.num vals a = last.num vals b)) := by
  apply meansIf_context
  intro h
  refine meansIf_ite (fun hk => ?_) fun _ => meansIf_none
  obtain ⟨hop, hc0, hcb⟩ := hk
  have hpos := h.pos ha
  obtain ⟨hfw, hparts, hnum⟩ := unionParts_spec h ha hop
  have hsplit : s.ctx.unionParts w a = (s.ctx.constValue (s.ctx.operand a 0),
      (s.ctx.operands a).drop 1) := by
    rw [SymContext.unionParts, if_pos hc0]
  rw [hsplit] at hfw hparts hnum
  have hflt := (s.ctx.constValue (s.ctx.operand a 0)).toNat_lt
  rw [hfw] at hflt
  have htw := h.const_width hb hcb
  have hbn := h.const_num hb hcb
  have hxlt : orAll (((s.ctx.operands a).drop 1).map (last.num vals)) < 2 ^ w := by
    apply orAll_lt
    intro y hy
    obtain ⟨q, hq, rfl⟩ := mem_map.mp hy
    exact h.lt (hparts q hq)
  apply meansIf_some
  refine means_ite (fun hmiss => ?_) fun hsub => ?_
  · refine means_no ?_
    intro heq
    apply hmiss
    refine APInt.ext (show (s.ctx.constValue b).width = _ from htw.trans hfw.symm) ?_
    rw [toNat_and (hfw.trans htw.symm), ← hbn, ← heq, hnum]
    apply eq_of_testBit_eq
    intro i
    rw [testBit_and, Nat.testBit_or]
    cases (s.ctx.constValue (s.ctx.operand a 0)).toNat.testBit i <;> simp
  · rw [not_not] at hsub
    refine means_bind (means_soleOr .or (by rfl) (fun hrs => hB.mkOr hrs) hparts) ?_
    intro word t _ _ hword
    refine means_bind (means_mkConst (c := (s.ctx.constValue (s.ctx.operand a 0)).not) (hfw ▸ hpos)
      hfw (toNat_not _)) ?_
    intro outside u _ heu hout
    refine means_bind (hB.mkAnd (has_pair (hword.1.mono heu) hout.1)) ?_
    intro seen x _ hex hseen
    refine means_bind (means_mkConst
      (c := (s.ctx.constValue b).and (s.ctx.constValue (s.ctx.operand a 0)).not)
      (htw ▸ hpos) htw (toNat_and_not htw hfw)) ?_
    intro literal y _ hey hl
    refine (hB.mkEq (hseen.1.mono hey) hl.1).congr ?_
    apply bit_congr
    simp only [map_cons, map_nil, andAll_cons, andAll_nil] at hseen
    rw [hseen.2, hl.2, hword.2, hout.2, hfw, and_ones (notOf_lt ..), hnum, hbn]
    have hblt := h.lt hb
    rw [hbn] at hblt
    exact forced_eq_iff hflt hxlt (subset_of_and_eq (hfw.trans htw.symm) hsub) hblt

lemma means_eqNode (ha : Has s a w) (hb : Has s b w) :
    Means last vals s (Build.intern .eq 1 (if b < a then [b, a] else [a, b]) 0) 1
      (bit (last.num vals a = last.num vals b)) := by
  split
  · rw [bit_congr eq_comm]
    exact means_binary one_pos ⟨by decide, by decide⟩ hb ha ⟨rfl, w, rfl⟩
  · exact means_binary one_pos ⟨by decide, by decide⟩ ha hb ⟨rfl, w, rfl⟩

lemma means_literalEq (h : At last vals s) (ha : Has s a w) (hb : Has s b w)
    (hca : s.ctx.isConst a = true)
    (hcb : s.ctx.isConst b = true) :
      Means last vals s (truth (s.ctx.constValue a = s.ctx.constValue b)) 1
      (bit (last.num vals a = last.num vals b)) := by
  refine means_truth ?_
  rw [decide_eq_decide, h.const_num ha hca, h.const_num hb hcb]
  constructor
  · intro heq
    exact APInt.ext ((h.const_width ha hca).trans (h.const_width hb hcb).symm) heq
  · intro heq
    rw [heq]

variable (hB : B.Sound last vals)
include hB

variable (ha : Has s a w)
include ha

lemma means_finishEq (hb : Has s b w) :
    Means last vals s (finishEq B a b) 1 (bit (last.num vals a = last.num vals b)) := by
  apply means_context
  intro h
  refine means_ite (fun hc => means_literalEq h ha hb hc.1 hc.2) fun _ => ?_
  refine means_orElse (meansIf_recoverPackedEquality hB ha hb) ?_
  intro t _ he
  refine means_orElse (meansIf_forcedEquality hB (ha.mono he) (hb.mono he)) ?_
  intro u _ heu
  exact means_eqNode ((ha.mono he).mono heu) ((hb.mono he).mono heu)

lemma means_literalEquality {n : Nat} (hb : Has s b w) :
    Means last vals s (literalEquality n B a b) 1 (bit (last.num vals a = last.num vals b)) := by
  apply means_context
  intro h
  have hpeel : Triple last vals s
      (peelLiteral B n (if s.ctx.isConst a then b else a) (if s.ctx.isConst a then a else b))
      fun o t =>
        Decides last vals t o (last.num vals a = last.num vals b) := by
    split
    · exact triple_mono (peelLiteral_spec hB hb ha) fun o t _ _ hd => hd.congr eq_comm
    · exact peelLiteral_spec hB ha hb
  refine triple_bind hpeel ?_
  intro o t _ _ hd
  cases o with
  | none => exact means_no (hd.1 rfl)
  | some p =>
    obtain ⟨v, h1, h2, h3⟩ := hd.2 p rfl
    exact (means_finishEq hB h1 h2).congr (bit_congr h3)

lemma means_mkEq {n : Nat} (hb : Has s b w) :
    Means last vals s (mkEq n B a b) 1 (bit (last.num vals a = last.num vals b)) := by
  apply means_context
  intro h
  refine means_ite (fun heq => ?_) fun _ => means_ite (fun hc => means_literalEq h ha hb hc.1 hc.2)
    fun _ => ?_
  · exact means_yes (by rw [heq])
  refine triple_bind (peelExtensions_spec ha hb) ?_
  intro o t _ _ hd
  cases o with
  | none => exact means_no (hd.1 rfl)
  | some p =>
    obtain ⟨v, h1, h2, h3⟩ := hd.2 p rfl
    rw [← bit_congr h3]
    refine means_ite (fun heq => means_yes (by rw [heq])) fun _ => ?_
    refine means_orElse (meansIf_bitEquality hB h1 h2) ?_
    intro u _ heu
    have h1u := h1.mono heu
    have h2u := h2.mono heu
    refine means_orElse (meansIf_tagEquality hB h1u h2u) ?_
    intro x _ hex
    have h1x := h1u.mono hex
    have h2x := h2u.mono hex
    refine means_orElse ?_ ?_
    · rw [bit_congr (eq_comm (a := last.num vals p.1))]
      exact meansIf_tagEquality hB h2x h1x
    · intro y _ hey
      exact means_literalEquality hB (h1x.mono hey) (h2x.mono hey)

lemma means_mkNe (hb : Has s b w) :
    Means last vals s (mkNe B a b) 1 (bit (last.num vals a ≠ last.num vals b)) := by
  refine means_bind (hB.mkEq ha hb) ?_
  intro equal t _ _ heq
  refine (hB.mkNot heq.1).congr ?_
  rw [heq.2, notOf_bit]
  simp

omit ha

end

variable [BlockHash] {last : SymContext} {vals : List APInt} {s : SymBuilder} {w : Nat}
    {B : Builders} {a b : SymRef}

variable (h : At last vals s)
include h

lemma compareMaximum_spec (ha : Has s a w) (hb : Has s b w) {k : Int}
    (hk : s.ctx.compareConstantWithZExtMaximum a b = some k) :
    (0 ≤ k → last.num vals a ≤ last.num vals b) ∧ (0 < k → last.num vals a < last.num vals b) := by
  unfold SymContext.compareConstantWithZExtMaximum at hk
  split at hk
  · cases hk
  next hc =>
    simp only [not_or, not_not, Bool.not_eq_true, Bool.not_eq_false'] at hc
    obtain ⟨hop, hconst, -⟩ := hc
    obtain ⟨-, hin, -, hnum⟩ := h.zext_num ha hop
    have hx := h.lt hin
    rw [hnum, h.const_num hb hconst]
    dsimp only at hk
    split at hk
    next hbits =>
      have hge : 2 ^ s.ctx.width (s.ctx.operand a 0) ≤ (s.ctx.constValue b).toNat := by
        by_contra hlt
        exact absurd (Nat.size_le.mpr (not_le.mp hlt)) (Nat.not_le_of_lt hbits)
      exact ⟨fun _ => hx.le.trans hge, fun _ => hx.trans_le hge⟩
    · split at hk
      next hmask =>
        rw [APInt.isMaskOf, decide_eq_true_eq] at hmask
        cases hk
        refine ⟨fun _ => ?_, fun hlt => absurd hlt (lt_irrefl _)⟩
        rw [hmask, ones]
        omega
      · cases hk
        exact ⟨fun hle => absurd hle (by decide), fun hlt => absurd hlt (by decide)⟩

lemma compareMaximum_any (ha : Has s a w) (hb : Has s b w) {p : Int → Bool}
    (hp : (s.ctx.compareConstantWithZExtMaximum a b).any p = true) :
    ∃ k, p k = true ∧ (0 ≤ k → last.num vals a ≤ last.num vals b) ∧
      (0 < k → last.num vals a < last.num vals b) := by
  rw [Option.any_eq_true] at hp
  obtain ⟨k, hk, hpk⟩ := hp
  exact ⟨k, hpk, compareMaximum_spec h ha hb hk⟩

lemma At.ones_num (ha : Has s a w) (ho : s.ctx.isConstOnes a = true) :
    last.num vals a = ones w := by
  rw [SymContext.isConstOnes, Bool.and_eq_true] at ho
  rw [h.const_num ha ho.1, toNat_of_isAllOnes ho.2, h.const_width ha ho.1]

omit h

variable (hB : B.Sound last vals)
include hB

variable (ha : Has s a w)
include ha

lemma means_mkUlt (hb : Has s b w) :
    Means last vals s (mkUlt B a b) 1 (bit (last.num vals a < last.num vals b)) := by
  apply means_context
  intro h
  have hlt := h.lt ha
  refine means_ite (fun heq => ?_) fun _ => means_ite (fun hc => ?_) fun _ =>
    means_ite (fun hz => ?_) fun _ =>
    means_ite (fun hz => ?_) fun _ => means_ite (fun hk => ?_) fun _ =>
      means_ite (fun hk => ?_) fun _ =>
    means_ite (fun ho => ?_) fun _ => ?_
  · exact means_no (by rw [heq]; exact lt_irrefl _)
  · rw [h.const_num ha hc.1, h.const_num hb hc.2]
    exact means_truth rfl
  · exact means_no (by rw [h.zero_num hb hz]; exact Nat.not_lt_zero _)
  · refine (means_mkNe hB hb ha).congr (bit_congr ?_)
    rw [h.zero_num ha hz]
    exact Nat.pos_iff_ne_zero.symm
  · obtain ⟨k, hpk, hle, -⟩ := compareMaximum_any h hb ha hk
    exact means_no (Nat.not_lt_of_le (hle (of_decide_eq_true hpk)))
  · obtain ⟨k, hpk, -, hlt'⟩ := compareMaximum_any h ha hb hk
    exact means_yes (hlt' (of_decide_eq_true hpk))
  · refine (means_mkNe hB ha hb).congr (bit_congr ?_)
    rw [h.ones_num hb ho.1, ones]
    omega
  · exact means_binary one_pos ⟨by decide, by decide⟩ ha hb ⟨rfl, w, rfl⟩

lemma means_mkUle (hb : Has s b w) :
    Means last vals s (mkUle B a b) 1 (bit (last.num vals a ≤ last.num vals b)) := by
  apply means_context
  intro h
  have hlt := h.lt ha
  refine means_ite (fun heq => ?_) fun _ => means_ite (fun hc => ?_) fun _ =>
    means_ite (fun hz => ?_) fun _ =>
    means_ite (fun hz => ?_) fun _ => means_ite (fun hk => ?_) fun _ =>
      means_ite (fun hk => ?_) fun _ =>
    means_ite (fun ho => ?_) fun _ => ?_
  · exact means_yes (by rw [heq])
  · rw [h.const_num ha hc.1, h.const_num hb hc.2]
    exact means_truth rfl
  · exact means_yes (by rw [h.zero_num ha hz]; exact Nat.zero_le _)
  · refine (hB.mkEq ha hb).congr (bit_congr ?_)
    rw [h.zero_num hb hz]
    exact Nat.le_zero.symm
  · obtain ⟨k, hpk, hle, -⟩ := compareMaximum_any h ha hb hk
    exact means_yes (hle (of_decide_eq_true hpk))
  · obtain ⟨k, hpk, -, hlt'⟩ := compareMaximum_any h hb ha hk
    exact means_no (Nat.not_le_of_lt (hlt' (of_decide_eq_true hpk)))
  · refine means_yes ?_
    rw [h.ones_num hb ho, ones]
    omega
  · exact means_binary one_pos ⟨by decide, by decide⟩ ha hb ⟨rfl, w, rfl⟩

lemma meansIf_signOf (hb : Has s b w) :
    MeansIf last vals s (signOf B a b) 1
      (bit (toInt w (last.num vals a) < toInt w (last.num vals b))) := by
  apply meansIf_context
  intro h
  refine meansIf_ite (fun hk => ?_) fun _ => meansIf_none
  rw [h.zero_num hb hk.1, toInt_neg_iff (h.lt ha)]
  exact meansIf_recoverSignComparison hB ha

lemma means_mkSlt (hb : Has s b w) :
    Means last vals s (mkSlt B a b) 1
      (bit (toInt w (last.num vals a) < toInt w (last.num vals b))) := by
  apply means_context
  intro h
  rw [ha.2]
  refine means_ite (fun heq => ?_) fun _ => means_ite (fun hc => ?_) fun _ =>
    means_ite (fun hw => ?_) fun _ => ?_
  · exact means_no (by rw [heq]; exact lt_irrefl _)
  · rw [h.const_num ha hc.1, h.const_num hb hc.2, h.const_width ha hc.1, h.const_width hb hc.2]
    exact means_truth rfl
  · subst hw
    have hx := h.lt ha
    have hy := h.lt hb
    have hxb : last.num vals a = 0 ∨ last.num vals a = 1 := by omega
    have hyb : last.num vals b = 0 ∨ last.num vals b = 1 := by omega
    refine means_ite (fun hz => ?_) fun _ => ?_
    · refine means_pure fun _ => ⟨ha, ?_⟩
      rw [h.zero_num hb hz]
      rcases hxb with h0 | h0
      · rw [h0]
        rfl
      · rw [h0]
        rfl
    · refine (hB.mkUlt hb ha).congr ?_
      rcases hxb with h0 | h0
      · rcases hyb with h1 | h1
        · rw [h0, h1]
          rfl
        · rw [h0, h1]
          rfl
      · rcases hyb with h1 | h1
        · rw [h0, h1]
          rfl
        · rw [h0, h1]
          rfl
  · refine means_orElse (meansIf_signOf hB ha hb) ?_
    intro t _ he
    exact means_binary one_pos ⟨by decide, by decide⟩ (ha.mono he) (hb.mono he) ⟨rfl, w, rfl⟩

omit ha

omit hB

lemma means_mkSle (ha : Has s a w) (hb : Has s b w) :
    Means last vals s (mkSle a b) 1
      (bit (toInt w (last.num vals a) ≤ toInt w (last.num vals b))) := by
  apply means_context
  intro h
  refine means_ite (fun heq => ?_) fun _ => means_ite (fun hc => ?_) fun _ => ?_
  · exact means_yes (by rw [heq])
  · rw [h.const_num ha hc.1, h.const_num hb hc.2, h.const_width ha hc.1, h.const_width hb hc.2]
    exact means_truth rfl
  · exact means_binary one_pos ⟨by decide, by decide⟩ ha hb ⟨rfl, w, rfl⟩

end NeverD.Sym
