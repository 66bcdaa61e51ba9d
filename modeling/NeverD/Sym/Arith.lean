import NeverD.Sym.Compare

namespace NeverD.Sym
open Lib APInt Bool BitVec
open Words List
open Nat (mod_eq_of_lt mod_modEq eq_of_testBit_eq testBit_and testBit_or two_pow_pos mod_lt
  zero_mod mod_mod)

namespace SymContext

variable (ctx : SymContext)

def splitCoefficient (r : SymRef) : APInt × Option SymRef :=
  if ctx.op r = .mul && ctx.isConst (ctx.operand r 0) then
    (ctx.constValue (ctx.operand r 0), if ctx.numOperands r = 2 then some (ctx.operand r 1)
      else none)
  else (APInt.ofNat (ctx.width r) 1, some r)

def plainBase (r : SymRef) : Option SymRef :=
  if ctx.op r = .add || ctx.op r = .or || (ctx.op r = .and && ctx.isConst (ctx.operand r 0)) then
    none
  else if ctx.op r = .mul && ctx.isConst (ctx.operand r 0) then
    if ctx.numOperands r = 2 then some (ctx.operand r 1) else none
  else some r

/-- Literals come first in the order of factors, then the order of references. -/
def factorLt (a b : SymRef) : Bool :=
  if ctx.isConst a ≠ ctx.isConst b then ctx.isConst a else a < b

/-- The word and the literal of a masked word with a literal in the bits it leaves out. -/
def literalOffset (value : SymRef) : SymRef × APInt :=
  let word := ctx.operand value 1
  if ctx.op value = .or && ctx.numOperands value = 2 && ctx.isConst (ctx.operand value 0) &&
      ctx.hasConstantMask word &&
      ((ctx.constValue (ctx.operand value 0)).and (ctx.constValue (ctx.operand word 0))).isZero then
    (word, ctx.constValue (ctx.operand value 0))
  else (value, APInt.zero (ctx.width value))

def addendsOf (r : SymRef) : List SymRef := if ctx.op r = .add then ctx.operands r else [r]

end SymContext

def includesBy (lt : SymRef → SymRef → Bool) : List SymRef → List SymRef → Bool
  | _, [] => true
  | [], _ :: _ => false
  | a :: as, b :: bs =>
    if lt b a then false
    else if lt a b then includesBy lt as (b :: bs)
    else includesBy lt as bs

/-- Drop the common members of two sorted lists; the flag tells whether there were any. -/
def cancelTerms : List SymRef → List SymRef → List SymRef × List SymRef × Bool
  | [], rs => ([], rs, false)
  | ls, [] => (ls, [], false)
  | l :: ls, r :: rs =>
    if l = r then
      let kept := cancelTerms ls rs
      (kept.1, kept.2.1, true)
    else if l < r then
      let kept := cancelTerms ls (r :: rs)
      (l :: kept.1, kept.2.1, kept.2.2)
    else
      let kept := cancelTerms (l :: ls) rs
      (kept.1, r :: kept.2.1, kept.2.2)

def lowerBoundInsert (r : SymRef) (rs : List SymRef) : List SymRef :=
  rs.takeWhile (· < r) ++ r :: rs.dropWhile (· < r)

/-- A collected addend; the original term is kept while it is the only one. -/
structure Addend where
  coefficient : APInt
  original : Option SymRef

structure AddState where
  constTerm : APInt
  terms : List (SymRef × Addend) := []
  masked : List SymRef := []

def addAddend (base : SymRef) (coeff : APInt) (r : SymRef) : List (SymRef × Addend) →
    List (SymRef × Addend)
  | [] => [(base, ⟨coeff, some r⟩)]
  | p :: terms =>
    if p.1 = base then (base, ⟨p.2.coefficient.add coeff, none⟩) :: terms
    else p :: addAddend base coeff r terms

section

variable [BlockHash] (n : Nat) (B : Builders)

def coefficientBase (r : SymRef) : Build SymRef := do
  let ctx ← Build.context
  match (ctx.splitCoefficient r).2 with
  | some base => pure base
  | none => B.mkMul ((ctx.operands r).drop 1)

def collectAddends (collectedMasks : Bool) : Nat → List SymRef → AddState → Build AddState
  | _, [], st => pure st
  | 0, _ :: _, _ => Build.stop
  | n + 1, r :: work, st => do
    let ctx ← Build.context
    if ctx.op r = .add then collectAddends collectedMasks n ((ctx.operands r).reverse ++ work) st
    else if ctx.isConst r then
      collectAddends collectedMasks n work
        { st with constTerm := st.constTerm.add (ctx.constValue r) }
    else if !collectedMasks && ctx.hasConstantMask r then
      collectAddends collectedMasks n work { st with masked := st.masked ++ [r] }
    else do
      let base ← coefficientBase B r
      collectAddends collectedMasks n work
        { st with terms := addAddend base (ctx.splitCoefficient r).1 r st.terms }

def collectSum (w : Nat) (ops : List SymRef) : Build AddState := do
  let st ← collectAddends B false n ops.reverse { constTerm := APInt.zero w }
  if st.masked = [] then pure st
  else do
    let merged ← mergeMaskedOperands st.masked true
    collectAddends B true n merged.1.reverse { st with masked := [] }

def recollectAddends : List SymRef → AddState → Build AddState
  | [], st => pure st
  | r :: rs, st => do
    let ctx ← Build.context
    if ctx.isConst r then
      recollectAddends rs { st with constTerm := st.constTerm.add (ctx.constValue r) }
    else do
      let base ← coefficientBase B r
      recollectAddends rs { st with terms := addAddend base (ctx.splitCoefficient r).1 r st.terms }

def rebuiltTerm (p : SymRef × Addend) : Build SymRef :=
  match p.2.original with
  | some r => pure r
  | none => scaledTerm B p.2.coefficient p.1

def AddState.kept (st : AddState) : List (SymRef × Addend) :=
  (st.terms.insertionSort fun p q => p.1 ≤ q.1).filter fun p => !p.2.coefficient.isZero

def leadingConst (c : APInt) : Build (List SymRef) :=
  if c.isZero then pure []
  else do
    let r ← Build.mkConst c
    pure [r]

def rebuiltTerms (st : AddState) : Build (List SymRef × List SymRef) := do
  let lead ← leadingConst st.constTerm
  let terms ← Build.each (rebuiltTerm B) st.kept
  pure (lead, terms)

/-- Whether a term with a coefficient turned out not to be a product. -/
def needsRecollect (ctx : SymContext) (kept : List (SymRef × Addend)) (terms : List SymRef) :
    Bool :=
  (kept.zip terms).any fun p => !p.1.2.coefficient.isOne && ctx.op p.2 ≠ .mul

def finalTerms (w : Nat) (st : AddState) : Build (List SymRef) := do
  let first ← rebuiltTerms B st
  let ctx ← Build.context
  if needsRecollect ctx st.kept first.2 then do
    let again ← recollectAddends B (first.1 ++ first.2) { constTerm := APInt.zero w }
    let second ← rebuiltTerms B again
    pure (second.1 ++ second.2)
  else pure (first.1 ++ first.2)

def unionDifference (packed negative : SymRef) : Build (Option SymRef) := do
  let ctx ← Build.context
  let removed := ctx.operand negative 1
  if ctx.op packed = .or && ctx.isScaled negative && ctx.isConstOnes (ctx.operand negative 0) &&
      includesBy ctx.factorLt (ctx.operands packed)
        (if ctx.op removed = .or then ctx.operands removed else [removed]) then
    some <$> B.mkXor [packed, removed]
  else pure none

def forcedDifference (c word : SymRef) : Build (Option SymRef) := do
  let ctx ← Build.context
  let removed := (ctx.constValue c).neg
  let forced := ctx.constValue (ctx.operand word 0)
  if ctx.isConst c && ctx.op word = .or && ctx.isConst (ctx.operand word 0) && forced.and removed =
    removed then
    some <$> do
      let source ← soleOr B.mkOr ((ctx.operands word).drop 1)
      let keep ← Build.mkConst removed.not
      let rest ← B.mkAnd [source, keep]
      let tag ← Build.mkConst (forced.and removed.not)
      B.mkOr [rest, tag]
  else pure none

def plainSum (ops : List SymRef) : Build (Option SymRef) := do
  let ctx ← Build.context
  match ops with
  | [x, y] =>
    let a := if ctx.isConst y then y else x
    let b := if ctx.isConst y then x else y
    let w := ctx.width x
    if ctx.isConst a then
      if ctx.isConst b then some <$> Build.mkConst ((ctx.constValue a).add (ctx.constValue b))
      else if ctx.op b ≠ .add ∧ ctx.op b ≠ .and ∧ ctx.op b ≠ .or ∧
        (ctx.op b ≠ .mul ∨ ctx.numOperands b = 2) then
        if (ctx.constValue a).isZero then pure (some b) else some <$> Build.intern .add w [a, b] 0
      else pure none
    else match ctx.plainBase a, ctx.plainBase b with
      | some baseA, some baseB =>
        if baseA = baseB then pure none
        else some <$> Build.intern .add w (if baseB < baseA then [b, a] else [a, b]) 0
      | _, _ => pure none
  | _ => pure none

def finishSum (w : Nat) (final : List SymRef) : Build SymRef :=
  match final with
  | [] => Build.mkZero w
  | [r] => pure r
  | [a, b] => (unionDifference B a b).orElse <| (unionDifference B b a).orElse <|
    (forcedDifference B a b).orElse <| Build.intern .add w [a, b] 0
  | _ => Build.intern .add w final 0

def mkAdd (ops : List SymRef) : Build SymRef :=
  if ops = [] then Build.stop
  else (plainSum ops).orElse do
    let ctx ← Build.context
    let w := ctx.width (ops.getD 0 0)
    let st ← collectSum n B w ops
    let final ← finalTerms B w st
    finishSum B w final

def mkNeg (a : SymRef) : Build SymRef := do
  let ctx ← Build.context
  let minus ← Build.mkConst (APInt.allOnes (ctx.width a))
  B.mkMul [minus, a]

def unmaskedDifference (a b : SymRef) : Build (Option SymRef) := do
  let ctx ← Build.context
  if ctx.op b = .and && (ctx.operands b).contains a then
    some <$> do
      let mask ← soleOr B.mkAnd ((ctx.operands b).filter fun c => c ≠ a)
      let outside ← B.mkNot mask
      B.mkAnd [a, outside]
  else pure none

def cancelledDifference (a b : SymRef) : Build (Option SymRef) := do
  let ctx ← Build.context
  let kept := cancelTerms (sortRefs (ctx.addendsOf a)) (sortRefs (ctx.addendsOf b))
  if (ctx.op a = .add ∨ ctx.op b = .add) ∧ kept.2.2 then
    some <$> do
      let negated ← Build.each B.mkNeg kept.2.1
      if kept.1 ++ negated = [] then Build.mkZero (ctx.width a) else B.mkAdd (kept.1 ++ negated)
  else pure none

def mkSub (a b : SymRef) : Build SymRef := do
  let ctx ← Build.context
  let left := ctx.literalOffset a
  let right := ctx.literalOffset b
  if left.1 = right.1 ∧ left.2 ≠ right.2 then Build.mkConst (left.2.sub right.2)
  else (unmaskedDifference B a b).orElse <| (cancelledDifference B a b).orElse do
    let negated ← mkNeg B b
    B.mkAdd [a, negated]

end

section

variable [BlockHash] (n : Nat) (B : Builders)

def insertFactor (product atom : SymRef) : Build (Option SymRef) := do
  let ctx ← Build.context
  let factors := ctx.operands product
  if ctx.op product = .mul && ctx.op atom ≠ .mul && !ctx.isConst atom then
    some <$> Build.intern .mul (ctx.width product)
      (if ctx.isConst (factors.getD 0 0) then factors.take 1 ++
        lowerBoundInsert atom (factors.drop 1)
        else lowerBoundInsert atom factors) 0
  else pure none

def scaleFactors (product atom : SymRef) : Build (Option SymRef) := do
  let ctx ← Build.context
  let factors := ctx.operands product
  let scaled := ctx.isConst (factors.getD 0 0)
  let tail := if scaled then factors.drop 1 else factors
  let coefficient := if scaled then (ctx.constValue atom).mul (ctx.constValue (factors.getD 0 0))
    else ctx.constValue atom
  if ctx.op product = .mul && ctx.isConst atom && 2 ≤ tail.length then
    if coefficient.isZero then some <$> Build.mkZero (ctx.width product)
    else if coefficient.isOne then some <$> Build.intern .mul (ctx.width product) tail 0
    else some <$> do
      let c ← Build.mkConst coefficient
      Build.intern .mul (ctx.width product) (c :: tail) 0
  else pure none

def pairProduct : List SymRef → Build (Option SymRef)
  | [a, b] => do
    let ctx ← Build.context
    let product := if ctx.op a ≠ .mul then b else a
    let atom := if ctx.op a ≠ .mul then a else b
    match ← insertFactor product atom with
    | some r => pure (some r)
    | none => scaleFactors product atom
  | _ => pure none

/-- Factors that are no products or literals, in order. -/
def SymContext.isFlatProduct (ctx : SymContext) : List SymRef → Bool
  | [] => true
  | [r] => !ctx.isConst r && ctx.op r ≠ .mul
  | r :: q :: rs => !ctx.isConst r && ctx.op r ≠ .mul && r ≤ q && isFlatProduct ctx (q :: rs)

def flatProduct (ops : List SymRef) : Build (Option SymRef) := do
  let ctx ← Build.context
  let front := ops.getD 0 0
  let scaled := ctx.isConst front
  if 3 ≤ ops.length && !ctx.isConst (ops.getLastD 0) &&
      (!scaled || (!ctx.isConstZero front && !(ctx.constValue front).isOne)) &&
      ctx.isFlatProduct (if scaled then ops.drop 1 else ops) then
    some <$> Build.intern .mul (ctx.width front) ops 0
  else pure none

/-- A logical shift that is shifted back by a product. -/
def shiftedBack (factor : APInt) (rest : List SymRef) : Build (Option SymRef) := do
  let ctx ← Build.context
  let shift := rest.getD 0 0
  if rest.length = 1 && ctx.op shift = .lshr then
    match matchingShiftPower ctx (ctx.operand shift 1) factor with
    | some k => some <$> do
      let mask ← Build.mkConst (APInt.lowBitsSet factor.width k).not
      B.mkAnd [ctx.operand shift 0, mask]
    | none => pure none
  else pure none

def finishProduct (factor : APInt) (rest : List SymRef) : Build SymRef :=
  if factor.isOne then soleOr (fun rs => Build.intern .mul factor.width rs 0) rest
  else do
    let c ← Build.mkConst factor
    Build.intern .mul factor.width (c :: rest) 0

def collectProduct (ops : List SymRef) : Build SymRef := do
  let ctx ← Build.context
  let w := ctx.width (ops.getD 0 0)
  let flat ← Build.ofOption (ctx.flatten .mul n ops.reverse [] (APInt.ofNat w 1))
  if flat.2.isZero then Build.mkZero w
  else if flat.1 = [] then Build.mkConst flat.2
  else (shiftedBack B flat.2 (sortRefs flat.1)).orElse (finishProduct flat.2 (sortRefs flat.1))

def mkMul (ops : List SymRef) : Build SymRef :=
  if ops = [] then Build.stop
  else (pairProduct ops).orElse <| (flatProduct ops).orElse <| collectProduct n B ops

end

section

variable [BlockHash] (B : Builders)

def mkUDiv (a b : SymRef) : Build SymRef := do
  let ctx ← Build.context
  let w := ctx.width a
  if ctx.isConst a && ctx.isConst b then
    let d := ctx.constValue b
    Build.mkConst (if d.isZero then APInt.allOnes w else (ctx.constValue a).udiv d)
  else if ctx.isConst b && (ctx.constValue b).isOne then pure a
  else Build.intern .udiv w [a, b] 0

def mkSDiv (a b : SymRef) : Build SymRef := do
  let ctx ← Build.context
  let w := ctx.width a
  if ctx.isConst a && ctx.isConst b then
    let c := ctx.constValue a
    let d := ctx.constValue b
    if d.isZero then Build.mkConst (if !c.isNegative then APInt.allOnes w else APInt.ofNat w 1)
    else if c.isMinSignedValue && d.isAllOnes then Build.mkConst c
    else Build.mkConst (c.sdiv d)
  else if ctx.isConst b && (ctx.constValue b).isOne then pure a
  else Build.intern .sdiv w [a, b] 0

def narrowRemainder (a b : SymRef) (w : Nat) : Build SymRef := do
  let ctx ← Build.context
  let x := ctx.operand a 0
  let y := ctx.operand b 0
  let narrow := max (ctx.width x) (ctx.width y)
  let left ← B.mkZExt x narrow
  let right ← B.mkZExt y narrow
  let rem ← B.mkURem left right
  B.mkZExt rem w

def mkURem (a b : SymRef) : Build SymRef := do
  let ctx ← Build.context
  let w := ctx.width a
  if ctx.isConst a && ctx.isConst b then
    let d := ctx.constValue b
    Build.mkConst (if d.isZero then ctx.constValue a else (ctx.constValue a).urem d)
  else if ctx.isConst b && (ctx.constValue b).isOne then Build.mkZero w
  else if ctx.op a = .zext && ctx.op b = .zext then narrowRemainder B a b w
  else Build.intern .urem w [a, b] 0

def mkSRem (a b : SymRef) : Build SymRef := do
  let ctx ← Build.context
  let w := ctx.width a
  if ctx.isConst a && ctx.isConst b then
    let c := ctx.constValue a
    let d := ctx.constValue b
    if d.isZero then Build.mkConst c
    else if c.isMinSignedValue && d.isAllOnes then Build.mkZero w
    else Build.mkConst (c.srem d)
  else if ctx.isConst b && (ctx.constValue b).isOne then Build.mkZero w
  else Build.intern .srem w [a, b] 0

end

section

variable [BlockHash] {last : SymContext} {vals : List APInt} {s : SymBuilder} {r : SymRef} {w : Nat}
    {B : Builders}

lemma At.scaled_any (h : At last vals s) (hr : Has s r w) (hop : s.ctx.op r = .mul)
    (hc : s.ctx.isConst (s.ctx.operand r 0) = true) :
    s.ctx.operands r = s.ctx.operand r 0 :: (s.ctx.operands r).drop 1 ∧
      (s.ctx.constValue (s.ctx.operand r 0)).width = w ∧
      (∀ c ∈ (s.ctx.operands r).drop 1, Has s c w) ∧
      last.num vals r = (s.ctx.constValue (s.ctx.operand r 0)).toNat *
        mulAll w (((s.ctx.operands r).drop 1).map (last.num vals)) % 2 ^ w := by
  obtain ⟨hne, hall⟩ := h.nary hr (by simp [hop])
  have hops : s.ctx.operands r = s.ctx.operand r 0 :: (s.ctx.operands r).drop 1 := by
    unfold SymContext.operand
    obtain ⟨c, cs, hcs⟩ := exists_cons_of_ne_nil hne
    rw [hcs]
    rfl
  have h0 : Has s (s.ctx.operand r 0) w := hall _ (by rw [hops]; exact mem_cons_self ..)
  refine ⟨hops, h.const_width h0 hc, fun c hm => hall c (mem_of_mem_drop hm), ?_⟩
  rw [h.mul_num hr hop, ← h.const_num h0 hc, ← mulAll_cons]
  conv_lhs => rw [hops]
  rfl

omit [BlockHash] in
lemma toNat_one (hw : 0 < w) : (APInt.ofNat w 1).toNat = 1 := by
  rw [APInt.ofNat_toNat, mod_eq_of_lt (Nat.one_lt_two_pow (by omega))]

lemma coefficientBase_spec (hB : B.Sound last vals) (hr : Has s r w) :
    Triple last vals s (coefficientBase B r) fun base t => Has t base w ∧
      (s.ctx.splitCoefficient r).1.width = w ∧
      last.num vals r = (s.ctx.splitCoefficient r).1.toNat * last.num vals base % 2 ^ w := by
  apply triple_context
  intro h
  unfold SymContext.splitCoefficient
  cases hc : (decide (s.ctx.op r = .mul) && s.ctx.isConst (s.ctx.operand r 0)) with
  | true =>
    rw [and_eq_true, decide_eq_true_eq] at hc
    obtain ⟨hops, hcw, hall, hnum⟩ := h.scaled_any hr hc.1 hc.2
    simp only [if_true]
    by_cases hlen : s.ctx.numOperands r = 2
    · rw [if_pos hlen]
      have hdrop : (s.ctx.operands r).drop 1 = [s.ctx.operand r 1] := by
        unfold SymContext.operand
        obtain ⟨a, b, hab⟩ := length_eq_two.mp hlen
        rw [hab]
        rfl
      rw [hdrop] at hall hnum
      have h1 := hall _ (mem_cons_self ..)
      refine triple_pure fun _ => ⟨h1, hcw, ?_⟩
      rw [hnum]
      simp [mulAll]
    · rw [if_neg hlen]
      refine triple_mono (hB.mkMul hall) ?_
      intro base t _ _ hb
      exact ⟨hb.1, hcw, by rw [hnum, hb.2]⟩
  | false =>
    simp only [false_eq_true, if_false]
    refine triple_pure fun _ => ⟨hr, hr.2, ?_⟩
    rw [hr.2, toNat_one (h.pos hr), one_mul, mod_eq_of_lt (h.lt hr)]

structure AddOk (last : SymContext) (vals : List APInt) (s : SymBuilder) (w : Nat) (st : AddState) :
    Prop where
  constTerm : st.constTerm.width = w
  terms : ∀ p ∈ st.terms, Has s p.1 w ∧ p.2.coefficient.width = w ∧ ∀ q, p.2.original = some q →
    Has s q w ∧ last.num vals q = p.2.coefficient.toNat * last.num vals p.1 % 2 ^ w
  masked : ∀ q ∈ st.masked, Has s q w

def termSum (num : SymRef → Nat) (terms : List (SymRef × Addend)) : Nat :=
  (terms.map fun p => p.2.coefficient.toNat * num p.1).sum

def AddState.sum (num : SymRef → Nat) (st : AddState) : Nat :=
  st.constTerm.toNat + termSum num st.terms + (st.masked.map num).sum

variable {st : AddState}

omit [BlockHash] in
lemma AddOk.mono (h : AddOk last vals s w st) {t : SymBuilder} (he : s.ctx.Extends t.ctx) :
    AddOk last vals t w st := by
  refine ⟨h.constTerm, fun p hp => ?_, fun q hq => (h.masked q hq).mono he⟩
  obtain ⟨h1, h2, h3⟩ := h.terms p hp
  exact ⟨h1.mono he, h2, fun q hq => ⟨(h3 q hq).1.mono he, (h3 q hq).2⟩⟩

omit [BlockHash] in
lemma AddOk.empty : AddOk last vals s w { constTerm := zero w } :=
  ⟨rfl, forall_mem_nil _, forall_mem_nil _⟩

omit [BlockHash] in
lemma AddOk.literal (h : AddOk last vals s w st) {c : APInt} (hc : c.width = w) :
    AddOk last vals s w { st with constTerm := st.constTerm.add c } ∧
      AddState.sum (last.num vals) { st with constTerm := st.constTerm.add c } ≡
        st.sum (last.num vals) + c.toNat [MOD 2 ^ w] := by
  refine ⟨⟨h.constTerm, h.terms, h.masked⟩, ?_⟩
  show (st.constTerm.add c).toNat + _ + _ ≡ st.constTerm.toNat + _ + _ + c.toNat [MOD 2 ^ w]
  rw [toNat_add (hc.trans h.constTerm.symm), h.constTerm]
  refine (((mod_modEq _ _).add_right _).add_right _).trans ?_
  have hcomm : ∀ a b c d : Nat, a + b + c + d = a + c + d + b := fun a b c d => by omega
  rw [hcomm]

omit [BlockHash] in
lemma AddOk.addend (h : AddOk last vals s w st) {base : SymRef} {c : APInt} (hb : Has s base w)
    (hc : c.width = w) (hr : Has s r w)
    (hnum : last.num vals r = c.toNat * last.num vals base % 2 ^ w) :
    AddOk last vals s w { st with terms := addAddend base c r st.terms } ∧
      AddState.sum (last.num vals) { st with terms := addAddend base c r st.terms } ≡
        st.sum (last.num vals) + last.num vals r [MOD 2 ^ w] := by
  have hterms : (∀ p ∈ addAddend base c r st.terms, Has s p.1 w ∧ p.2.coefficient.width = w ∧
      ∀ q, p.2.original = some q → Has s q w ∧
      last.num vals q = p.2.coefficient.toNat * last.num vals p.1 % 2 ^ w) ∧
      termSum (last.num vals) (addAddend base c r st.terms) ≡
        termSum (last.num vals) st.terms + last.num vals r [MOD 2 ^ w] := by
    have hok := h.terms
    generalize st.terms = terms at hok
    induction terms with
    | nil =>
      constructor
      · intro p hp
        rw [mem_singleton.mp hp]
        refine ⟨hb, hc, fun q hq => ?_⟩
        cases hq
        exact ⟨hr, hnum⟩
      · show c.toNat * last.num vals base + 0 ≡ 0 + last.num vals r [MOD 2 ^ w]
        rw [hnum, add_zero, zero_add]
        exact (mod_modEq _ _).symm
    | cons p terms ih =>
      obtain ⟨h1, h2, h3⟩ := hok p (mem_cons_self ..)
      have hrest := fun q hq => hok q (mem_cons_of_mem _ hq)
      rw [addAddend]
      split
      next heq =>
        constructor
        · intro q hq
          rcases mem_cons.mp hq with rfl | hq
          · exact ⟨hb, h2, fun q hq => (nomatch hq)⟩
          · exact hrest q hq
        · show (p.2.coefficient.add c).toNat * last.num vals base + termSum (last.num vals) terms ≡
            p.2.coefficient.toNat * last.num vals p.1 + termSum (last.num vals) terms +
            last.num vals r [MOD 2 ^ w]
          rw [toNat_add (hc.trans h2.symm), h2, heq, hnum]
          refine (((mod_modEq _ _).mul_right _).add_right _).trans ?_
          rw [Nat.add_mul, Nat.add_assoc, Nat.add_comm (c.toNat * _), ← Nat.add_assoc]
          exact ((mod_modEq _ _).symm).add_left _
      · obtain ⟨ih1, ih2⟩ := ih hrest
        constructor
        · intro q hq
          rcases mem_cons.mp hq with rfl | hq
          · exact ⟨h1, h2, h3⟩
          · exact ih1 q hq
        · show p.2.coefficient.toNat * last.num vals p.1 + _ ≡
            p.2.coefficient.toNat * last.num vals p.1 + termSum (last.num vals) terms +
            last.num vals r [MOD 2 ^ w]
          rw [add_assoc]
          exact ih2.add_left _
  refine ⟨⟨h.constTerm, hterms.1, h.masked⟩, ?_⟩
  show st.constTerm.toNat + _ + _ ≡ st.constTerm.toNat + _ + _ + last.num vals r [MOD 2 ^ w]
  have hcomm : ∀ a b c d : Nat, a + b + c + d = a + (b + d) + c := fun a b c d => by omega
  rw [hcomm]
  exact (hterms.2.add_left _).add_right _

variable (hB : B.Sound last vals)
include hB

lemma collectAddends_spec (collected : Bool) {n : Nat} {work : List SymRef}
    (hwork : ∀ q ∈ work, Has s q w) (hst : AddOk last vals s w st) :
    Triple last vals s (collectAddends B collected n work st) fun st' t => AddOk last vals t w st' ∧
      st'.sum (last.num vals) ≡ st.sum (last.num vals) + (work.map (last.num vals)).sum
      [MOD 2 ^ w] ∧ (collected = true → st.masked = [] → st'.masked = []) := by
  induction n generalizing s work st with
  | zero =>
    cases work with
    | nil => exact triple_pure fun _ => ⟨hst, .rfl, fun _ h => h⟩
    | cons q work => exact triple_stop
  | succ n ih =>
    cases work with
    | nil => exact triple_pure fun _ => ⟨hst, .rfl, fun _ h => h⟩
    | cons q work =>
      have hq := hwork q (mem_cons_self ..)
      have hwork' := fun x hx => hwork x (mem_cons_of_mem _ hx)
      apply triple_context
      intro h
      rw [map_cons, sum_cons]
      refine triple_ite (fun hop => ?_) fun _ => triple_ite (fun hc => ?_) fun _ =>
        triple_ite (fun hm => ?_) fun _ => ?_
      · -- a nested sum
        obtain ⟨-, hall⟩ := h.nary hq (by simp [hop])
        have hw' : ∀ x ∈ (s.ctx.operands q).reverse ++ work, Has s x w := by
          intro x hx
          rcases mem_append.mp hx with hx | hx
          · exact hall x (mem_reverse.mp hx)
          · exact hwork' x hx
        refine triple_mono (ih hw' hst) ?_
        intro st' t _ _ hres
        refine ⟨hres.1, hres.2.1.trans ?_, hres.2.2⟩
        rw [map_append, sum_append, map_reverse, sum_reverse, h.add_num hq hop, addAll]
        exact (((mod_modEq _ _).symm).add_right _).add_left _
      · obtain ⟨h1, h2⟩ := hst.literal (h.const_width hq hc)
        refine triple_mono (ih hwork' h1) ?_
        intro st' t _ _ hres
        refine ⟨hres.1, hres.2.1.trans ?_, hres.2.2⟩
        rw [← add_assoc, h.const_num hq hc]
        exact h2.add_right _
      · have h1 : AddOk last vals s w { st with masked := st.masked ++ [q] } := by
          refine ⟨hst.constTerm, hst.terms, ?_⟩
          intro x hx
          rcases mem_append.mp hx with hx | hx
          · exact hst.masked x hx
          · rw [mem_singleton.mp hx]
            exact hq
        refine triple_mono (ih hwork' h1) ?_
        intro st' t _ _ hres
        refine ⟨hres.1, hres.2.1.trans ?_, fun hcol => ?_⟩
        · have hsum : AddState.sum (last.num vals) { st with masked := st.masked ++ [q] } =
              st.sum (last.num vals) + last.num vals q := by
            show _ + ((st.masked ++ [q]).map (last.num vals)).sum =
              _ + (st.masked.map (last.num vals)).sum + _
            rw [map_append, sum_append, map_singleton, sum_singleton, ← add_assoc]
          rw [hsum, add_assoc]
        · rw [hcol] at hm
          simp at hm
      · refine triple_bind (coefficientBase_spec hB hq) ?_
        intro base t _ he hbase
        obtain ⟨h1, h2⟩ := (hst.mono he).addend hbase.1 hbase.2.1 (hq.mono he) hbase.2.2
        refine triple_mono (ih (fun x hx => (hwork' x hx).mono he) h1) ?_
        intro st' u _ _ hres
        refine ⟨hres.1, hres.2.1.trans ?_, hres.2.2⟩
        rw [← add_assoc]
        exact h2.add_right _

lemma collectSum_spec {n : Nat} {ops : List SymRef} (hops : ∀ q ∈ ops, Has s q w) :
    Triple last vals s (collectSum n B w ops) fun st t => AddOk last vals t w st ∧
      st.sum (last.num vals) ≡ (ops.map (last.num vals)).sum [MOD 2 ^ w] ∧ st.masked = [] := by
  refine triple_bind (collectAddends_spec hB false (fun q hq => hops q (mem_reverse.mp hq))
    AddOk.empty) ?_
  intro st t _ _ hst
  have hsum : st.sum (last.num vals) ≡ (ops.map (last.num vals)).sum [MOD 2 ^ w] := by
    refine hst.2.1.trans ?_
    rw [map_reverse, sum_reverse]
    simp [AddState.sum, termSum, Nat.ModEq]
  refine triple_ite (fun hm => triple_pure fun _ => ⟨hst.1, hsum, hm⟩) fun _ => ?_
  refine triple_bind (mergeMaskedOperands_spec true hst.1.masked) ?_
  intro merged u _ he hmerged
  have hok : AddOk last vals u w { st with masked := [] } :=
    ⟨hst.1.constTerm, (hst.1.mono he).terms, forall_mem_nil _⟩
  refine triple_mono (collectAddends_spec hB true (fun q hq => hmerged.1 q (mem_reverse.mp hq)) hok)
    ?_
  intro st' v _ _ hres
  refine ⟨hres.1, ?_, hres.2.2 rfl rfl⟩
  refine hres.2.1.trans (.trans ?_ hsum)
  rw [map_reverse, sum_reverse, hmerged.2.2 rfl]
  show _ + _ + 0 + _ ≡ _ + _ + _ [MOD 2 ^ w]
  rw [add_zero]

lemma recollectAddends_spec {rs : List SymRef}
    (hrs : ∀ q ∈ rs, Has s q w) (hst : AddOk last vals s w st) (hm : st.masked = []) :
    Triple last vals s (recollectAddends B rs st) fun st' t => AddOk last vals t w st' ∧
      st'.sum (last.num vals) ≡ st.sum (last.num vals) + (rs.map (last.num vals)).sum [MOD 2 ^ w] ∧
      st'.masked = [] := by
  induction rs generalizing s st with
  | nil => exact triple_pure fun _ => ⟨hst, .rfl, hm⟩
  | cons q rs ih =>
    have hq := hrs q (mem_cons_self ..)
    have hrs' := fun x hx => hrs x (mem_cons_of_mem _ hx)
    apply triple_context
    intro h
    rw [map_cons, sum_cons]
    refine triple_ite (fun hc => ?_) fun _ => ?_
    · obtain ⟨h1, h2⟩ := hst.literal (h.const_width hq hc)
      refine triple_mono (ih hrs' h1 hm) ?_
      intro st' t _ _ hres
      refine ⟨hres.1, hres.2.1.trans ?_, hres.2.2⟩
      rw [← add_assoc, h.const_num hq hc]
      exact h2.add_right _
    · refine triple_bind (coefficientBase_spec hB hq) ?_
      intro base t _ he hbase
      obtain ⟨h1, h2⟩ := (hst.mono he).addend hbase.1 hbase.2.1 (hq.mono he) hbase.2.2
      refine triple_mono (ih (fun x hx => (hrs' x hx).mono he) h1 hm) ?_
      intro st' u _ _ hres
      refine ⟨hres.1, hres.2.1.trans ?_, hres.2.2⟩
      rw [← add_assoc]
      exact h2.add_right _

omit hB

omit [BlockHash] in
lemma termSum_kept (num : SymRef → Nat) (st : AddState) :
    termSum num st.kept = termSum num st.terms := by
  have hfilter : ∀ terms : List (SymRef × Addend),
      termSum num (terms.filter fun p => !p.2.coefficient.isZero) = termSum num terms := by
    intro terms
    induction terms with
    | nil => rfl
    | cons p terms ih =>
      cases hz : p.2.coefficient.isZero with
      | true =>
        rw [filter_cons_of_neg (by simp [hz]), ih]
        show _ = p.2.coefficient.toNat * num p.1 + termSum num terms
        rw [toNat_of_isZero hz, Nat.zero_mul, Nat.zero_add]
      | false =>
        rw [filter_cons_of_pos (by simp [hz])]
        show _ + termSum num _ = _ + termSum num terms
        rw [ih]
  rw [AddState.kept, hfilter, termSum, ((perm_insertionSort _ st.terms).map _).sum_eq]
  rfl

omit [BlockHash] in
lemma mem_kept {p : SymRef × Addend} (h : p ∈ st.kept) : p ∈ st.terms :=
  (perm_insertionSort _ st.terms).mem_iff.mp (mem_of_mem_filter h)

lemma rebuiltTerms_spec (hB : B.Sound last vals) (hw : 0 < w) (hst : AddOk last vals s w st)
    (hm : st.masked = []) :
    Triple last vals s (rebuiltTerms B st) fun final t => (∀ q ∈ final.1 ++ final.2, Has t q w) ∧
      ((final.1 ++ final.2).map (last.num vals)).sum ≡ st.sum (last.num vals) [MOD 2 ^ w] := by
  have hlead : Triple last vals s (leadingConst st.constTerm) fun lead t =>
      (∀ q ∈ lead, Has t q w) ∧ (lead.map (last.num vals)).sum = st.constTerm.toNat := by
    refine triple_ite (fun hz => triple_pure fun _ => ⟨forall_mem_nil _, (toNat_of_isZero hz).symm⟩)
      fun _ => ?_
    refine triple_bind (means_mkConst (hst.constTerm ▸ hw) hst.constTerm rfl) ?_
    intro c t _ _ hc
    refine triple_pure fun _ => ⟨?_, by simp [hc.2]⟩
    intro q hq
    rw [mem_singleton.mp hq]
    exact hc.1
  refine triple_bind hlead ?_
  intro lead t _ he hlead
  refine triple_bind (triple_each_map (w := w) st.kept (g := fun p => p.2.coefficient.toNat *
    last.num vals p.1 % 2 ^ w) ?_) ?_
  · intro u _ heu p hp
    obtain ⟨h1, h2, h3⟩ := ((hst.mono he).mono heu).terms p (mem_kept hp)
    unfold rebuiltTerm
    split
    next q hq => exact means_pure fun _ => h3 q hq
    · exact means_scaledTerm hB h2 h1
  · intro terms u _ heu hterms
    apply triple_pure
    intro _
    constructor
    · intro q hq
      rcases mem_append.mp hq with hq | hq
      · exact (hlead.1 q hq).mono heu
      · exact hterms.1 q hq
    · rw [map_append, sum_append, hlead.2, hterms.2, AddState.sum, hm, ← termSum_kept]
      show _ ≡ _ + _ + 0 [MOD 2 ^ w]
      rw [add_zero]
      apply Nat.ModEq.add_left
      generalize st.kept = kept
      induction kept with
      | nil => exact .rfl
      | cons p kept ih =>
        exact (mod_modEq _ _).add ih

lemma finalTerms_spec (hB : B.Sound last vals) (hw : 0 < w) (hst : AddOk last vals s w st)
    (hm : st.masked = []) :
    Triple last vals s (finalTerms B w st) fun final t => (∀ q ∈ final, Has t q w) ∧
      (final.map (last.num vals)).sum ≡ st.sum (last.num vals) [MOD 2 ^ w] := by
  refine triple_bind (rebuiltTerms_spec hB hw hst hm) ?_
  intro first t _ _ hfirst
  apply triple_context
  intro _
  refine triple_ite (fun _ => ?_) fun _ => triple_pure fun _ => hfirst
  refine triple_bind (recollectAddends_spec hB hfirst.1 AddOk.empty rfl) ?_
  intro again u _ _ hagain
  refine triple_bind (rebuiltTerms_spec hB hw hagain.1 hagain.2.2) ?_
  intro second v _ _ hsecond
  apply triple_pure
  intro _
  refine ⟨hsecond.1, hsecond.2.trans (hagain.2.1.trans (.trans ?_ hfirst.2))⟩
  simp [AddState.sum, termSum, Nat.ModEq]

end

section

variable [BlockHash] {last : SymContext} {vals : List APInt} {s : SymBuilder} {r : SymRef} {w : Nat}
    {B : Builders}

omit [BlockHash] in
theorem mem_of_includesBy {lt : SymRef → SymRef → Bool}
    (hlt : ∀ a b, lt a b = false → lt b a = false → a = b)
    {as bs : List SymRef} (h : includesBy lt as bs = true) : ∀ b ∈ bs, b ∈ as := by
  induction as generalizing bs with
  | nil =>
    cases bs with
    | nil => exact forall_mem_nil _
    | cons b bs => simp [includesBy] at h
  | cons a as ih =>
    cases bs with
    | nil => exact forall_mem_nil _
    | cons b bs =>
      rw [includesBy] at h
      split at h
      · cases h
      next hba =>
        split at h
        · intro c hc
          exact mem_cons_of_mem _ (ih h c hc)
        next hab =>
          obtain rfl := hlt a b (by simpa using hab) (by simpa using hba)
          intro c hc
          rcases mem_cons.mp hc with rfl | hc
          · exact mem_cons_self ..
          · exact mem_cons_of_mem _ (ih h c hc)

omit [BlockHash] in
lemma factorLt_total (ctx : SymContext) (a b : SymRef) (h1 : ctx.factorLt a b = false)
    (h2 : ctx.factorLt b a = false) : a = b := by
  unfold SymContext.factorLt at h1 h2
  by_cases hc : ctx.isConst a = ctx.isConst b
  · rw [if_neg (not_not.mpr hc)] at h1
    rw [if_neg (not_not.mpr hc.symm)] at h2
    exact le_antisymm (not_lt.mp (of_decide_eq_false h2)) (not_lt.mp (of_decide_eq_false h1))
  · rw [if_pos hc] at h1
    rw [if_pos (Ne.symm hc)] at h2
    exact absurd (h1.trans h2.symm) hc

omit [BlockHash] in
theorem add_neg_of_subset {p q : Nat} (hp : p < 2 ^ w)
    (hsub : ∀ i, q.testBit i = true → p.testBit i = true) : (p + ones w * q) % 2 ^ w = p ^^^ q := by
  have hdisj : q &&& (p ^^^ q) = 0 := by
    apply eq_of_testBit_eq
    intro i
    rw [testBit_and, Nat.testBit_xor, Nat.zero_testBit]
    cases hq : q.testBit i with
    | true => simp [hsub i hq]
    | false => simp
  have hsum : q + (p ^^^ q) = p := by
    rw [add_eq_or hdisj]
    apply eq_of_testBit_eq
    intro i
    rw [testBit_or, Nat.testBit_xor]
    cases hq : q.testBit i with
    | true => simp [hsub i hq]
    | false => simp
  have hlt : p ^^^ q < 2 ^ w := lt_of_le_of_lt (by omega) hp
  have hones : ones w + 1 = 2 ^ w := Nat.sub_add_cancel (two_pow_pos w)
  calc (p + ones w * q) % 2 ^ w = ((p ^^^ q) + 2 ^ w * q) % 2 ^ w := by
        congr 1
        rw [← hones, Nat.add_mul, Nat.one_mul]
        omega
    _ = p ^^^ q := by rw [Nat.add_mul_mod_self_left, mod_eq_of_lt hlt]

variable {a : SymRef}

omit [BlockHash] in
lemma has_pair {b : SymRef} (ha : Has s a w) (hb : Has s b w) : ∀ q ∈ [a, b], Has s q w := by
  intro q hq
  rcases mem_cons.mp hq with rfl | hq
  · exact ha
  · rw [mem_singleton.mp hq]
    exact hb

lemma meansIf_unionDifference (hB : B.Sound last vals) {packed negative : SymRef}
    (hp : Has s packed w) (hn : Has s negative w) :
      MeansIf last vals s (unionDifference B packed negative) w
      ((last.num vals packed + last.num vals negative) % 2 ^ w) := by
  apply meansIf_context
  intro h
  refine meansIf_ite (fun hc => ?_) fun _ => meansIf_none
  simp only [and_eq_true, decide_eq_true_eq] at hc
  obtain ⟨⟨⟨hop, hscaled⟩, hones⟩, hinc⟩ := hc
  obtain ⟨h0, hconst, h1, -, hnum⟩ := h.scaled hn hscaled
  apply meansIf_some
  refine (hB.mkXor (has_pair hp h1)).congr ?_
  have hmin : (s.ctx.constValue (s.ctx.operand negative 0)).toNat = ones w := by
    rw [SymContext.isConstOnes, and_eq_true] at hones
    rw [toNat_of_isAllOnes hones.2, h.const_width h0 hconst]
  have hmem := mem_of_includesBy (factorLt_total s.ctx) hinc
  have hsub : ∀ i, (last.num vals (s.ctx.operand negative 1)).testBit i = true →
      (last.num vals packed).testBit i = true := by
    intro i hi
    rw [h.or_num hp hop, testBit_orAll, any_map, any_eq_true]
    by_cases hor : s.ctx.op (s.ctx.operand negative 1) = .or
    · rw [if_pos hor] at hmem
      rw [h.or_num h1 hor, testBit_orAll, any_map, any_eq_true] at hi
      obtain ⟨c, hcm, hci⟩ := hi
      exact ⟨c, hmem c hcm, hci⟩
    · rw [if_neg hor] at hmem
      exact ⟨_, hmem _ (mem_singleton_self _), hi⟩
  rw [hnum, hmin, Nat.add_mod_mod, add_neg_of_subset (h.lt hp) hsub]
  simp [xorAll]

omit [BlockHash] in
lemma negOf_eq_mul {x : Nat} (hx : x < 2 ^ w) : negOf w x = ones w * x % 2 ^ w := by
  have hones : ones w + 1 = 2 ^ w := Nat.sub_add_cancel (two_pow_pos w)
  rcases Nat.eq_zero_or_pos x with rfl | hpos
  · simp [negOf]
  · have : ones w * x = (2 ^ w - x) + 2 ^ w * (x - 1) := by
      rw [← hones]
      obtain ⟨y, rfl⟩ : ∃ y, x = y + 1 := ⟨x - 1, by omega⟩
      rw [Nat.add_sub_cancel, Nat.mul_add, Nat.add_mul]
      omega
    rw [this, Nat.add_mul_mod_self_left]
    rfl

omit [BlockHash] in
lemma negOf_negOf {x : Nat} (hx : x < 2 ^ w) : negOf w (negOf w x) = x := by
  unfold negOf
  rcases Nat.eq_zero_or_pos x with rfl | hpos
  · simp
  · rw [mod_eq_of_lt (show 2 ^ w - x < 2 ^ w by omega), Nat.sub_sub_self hx.le, mod_eq_of_lt hx]

lemma meansIf_forcedDifference (hB : B.Sound last vals) {c word : SymRef} (hcw : Has s c w)
    (hww : Has s word w) :
    MeansIf last vals s (forcedDifference B c word) w
      (addAll w [last.num vals c, last.num vals word]) := by
  apply meansIf_context
  intro h
  refine meansIf_ite (fun hc => ?_) fun _ => meansIf_none
  simp only [and_eq_true, decide_eq_true_eq] at hc
  obtain ⟨⟨⟨hconst, hop⟩, hforced⟩, hsub⟩ := hc
  obtain ⟨hne, hall⟩ := h.nary hww (by simp [hop])
  have hops : s.ctx.operands word = s.ctx.operand word 0 :: (s.ctx.operands word).drop 1 := by
    unfold SymContext.operand
    obtain ⟨d, ds, hds⟩ := exists_cons_of_ne_nil hne
    rw [hds]
    rfl
  have h0 : Has s (s.ctx.operand word 0) w := hall _ (by rw [hops]; exact mem_cons_self ..)
  have hrest : ∀ q ∈ (s.ctx.operands word).drop 1, Has s q w :=
    fun q hq => hall q (mem_of_mem_drop hq)
  have hfw := h.const_width h0 hforced
  have hnw : (s.ctx.constValue c).neg.width = w := h.const_width hcw hconst
  have hpos := h.pos hcw
  -- the bits taken away, the forced bits and the other bits, as numbers
  have hforcedNum := h.const_num h0 hforced
  have hclt := h.lt hcw
  have hremoved : (s.ctx.constValue c).neg.toNat = negOf w (last.num vals c) := by
    rw [toNat_neg, h.const_num hcw hconst, h.const_width hcw hconst]
  have hrlt : negOf w (last.num vals c) < 2 ^ w := mod_lt _ (two_pow_pos w)
  have hword : last.num vals word = last.num vals (s.ctx.operand word 0) |||
      orAll (((s.ctx.operands word).drop 1).map (last.num vals)) := by
    rw [h.or_num hww hop]
    conv_lhs => rw [hops]
    rfl
  have hsubNat : last.num vals (s.ctx.operand word 0) &&& negOf w (last.num vals c) =
      negOf w (last.num vals c) := by
    rw [hforcedNum, ← hremoved, ← toNat_and (hnw.trans hfw.symm), hsub]
  have hbits : ∀ i, (negOf w (last.num vals c)).testBit i = true →
      (last.num vals (s.ctx.operand word 0)).testBit i = true := by
    intro i hi
    have hb := congrArg (fun n => n.testBit i) hsubNat
    simpa [hi] using hb
  have hflt := h.lt h0
  have hslt : orAll (((s.ctx.operands word).drop 1).map (last.num vals)) < 2 ^ w := by
    apply orAll_lt
    intro x hx
    obtain ⟨q, hq, rfl⟩ := mem_map.mp hx
    exact h.lt (hrest q hq)
  have hvalue : addAll w [last.num vals c, last.num vals word] =
      (orAll (((s.ctx.operands word).drop 1).map (last.num vals)) &&&
        notOf w (negOf w (last.num vals c))) |||
        (last.num vals (s.ctx.operand word 0) &&& notOf w (negOf w (last.num vals c))) := by
    have hc' : last.num vals c = ones w * negOf w (last.num vals c) % 2 ^ w := by
      rw [← negOf_eq_mul hrlt, negOf_negOf hclt]
    have hadd := add_neg_of_subset (h.lt hww) (fun i hi => by
      rw [hword, testBit_or, hbits i hi, Bool.true_or])
    have : addAll w [last.num vals c, last.num vals word] =
        (last.num vals word + ones w * negOf w (last.num vals c)) % 2 ^ w := by
      rw [← Nat.add_mod_mod, ← hc']
      simp [addAll, add_comm]
    rw [this, hadd, hword]
    apply eq_of_testBit_eq
    intro i
    rw [Nat.testBit_xor, testBit_or, testBit_or, testBit_and, testBit_and, testBit_notOf hrlt]
    cases hi : (negOf w (last.num vals c)).testBit i with
    | true => simp [hbits i hi]
    | false =>
      by_cases hiw : i < w
      · simp [hiw, Bool.or_comm]
      · rw [testBit_of_lt hflt (not_lt.mp hiw), testBit_of_lt hslt (not_lt.mp hiw)]
        simp
  apply meansIf_some
  refine means_bind (means_soleOr .or (by rfl) (fun hrs => hB.mkOr hrs) hrest) ?_
  intro source t ht het hsource
  refine means_bind (means_mkConst (show 0 < (s.ctx.constValue c).neg.not.width from hnw ▸ hpos)
    hnw rfl) ?_
  intro keep u hu heu hkeep
  refine means_bind (hB.mkAnd (has_pair (hsource.1.mono heu) hkeep.1)) ?_
  intro rest v hv hev hrestv
  refine means_bind (means_mkConst (c := (s.ctx.constValue (s.ctx.operand word 0)).and
    (s.ctx.constValue c).neg.not)
    (show 0 < (s.ctx.constValue (s.ctx.operand word 0)).width from hfw ▸ hpos) hfw rfl) ?_
  intro tag x hx hex htag
  refine (hB.mkOr (has_pair (hrestv.1.mono hex) htag.1)).congr ?_
  rw [hvalue]
  have hnot : (s.ctx.constValue c).neg.not.toNat = notOf w (negOf w (last.num vals c)) := by
    rw [toNat_not, hremoved]
    congr 1
  simp only [map_cons, map_nil]
  rw [orAll_cons, orAll_cons, hrestv.2, htag.2]
  simp only [map_cons, map_nil]
  rw [andAll_cons, andAll_cons, hsource.2, hkeep.2, hnot,
    toNat_and (show (s.ctx.constValue c).neg.not.width =
    (s.ctx.constValue (s.ctx.operand word 0)).width from hnw.trans hfw.symm), hnot, hforcedNum]
  show _ &&& (notOf w _ &&& ones w) ||| (_ ||| 0) = _
  rw [and_ones (notOf_lt ..), Nat.or_zero]
  rfl

lemma plainSum_spec {ops : List SymRef} (hops : ∀ q ∈ ops, Has s q w) :
    MeansIf last vals s (plainSum ops) w (addAll w (ops.map (last.num vals))) := by
  apply meansIf_context
  intro h
  split
  case h_2 => exact meansIf_none
  rename_i x y
  have hx := hops x (by simp)
  have hy := hops y (by simp)
  have hpos := h.pos hx
  -- the two operands, the literal first
  have hswap : ∃ a b, (if s.ctx.isConst y then y else x) = a ∧
      (if s.ctx.isConst y then x else y) = b ∧
      Has s a w ∧ Has s b w ∧ addAll w ([x, y].map (last.num vals)) =
        addAll w ([a, b].map (last.num vals)) := by
    cases s.ctx.isConst y with
    | true => exact ⟨y, x, rfl, rfl, hy, hx, addAll_perm (.swap ..)⟩
    | false => exact ⟨x, y, rfl, rfl, hx, hy, rfl⟩
  obtain ⟨a, b, ha, hb, haw, hbw, hsum⟩ := hswap
  rw [ha, hb, hsum, hx.2]
  have hintern : Means last vals s (.intern .add w [a, b] 0) w
      (addAll w ([a, b].map (last.num vals))) :=
    means_nary .add (by rfl) le_rfl (has_pair haw hbw)
  have hintern' : Means last vals s (.intern .add w [b, a] 0) w
      (addAll w ([a, b].map (last.num vals))) :=
    (means_nary .add (by rfl) le_rfl (has_pair hbw haw)).congr (addAll_perm (.swap ..))
  refine meansIf_ite (fun hca => ?_) fun _ => ?_
  · have hcw := h.const_width haw hca
    refine meansIf_ite (fun hcb => meansIf_some ?_) fun _ => meansIf_ite (fun _ => ?_) fun _ =>
      meansIf_none
    · refine means_mkConst (show 0 < (s.ctx.constValue a).width from hcw ▸ hpos) hcw ?_
      rw [toNat_add ((h.const_width hbw hcb).trans hcw.symm), ← h.const_num haw hca,
        ← h.const_num hbw hcb, hcw]
      simp [addAll]
    · refine meansIf_ite (fun hz => ?_) fun _ => meansIf_some hintern
      refine triple_pure fun _ r hr => ?_
      cases hr
      refine ⟨hbw, ?_⟩
      simp [addAll, h.const_num haw hca, toNat_of_isZero hz, mod_eq_of_lt (h.lt hbw)]
  · split
    · refine meansIf_ite (fun _ => meansIf_none) fun _ => meansIf_some ?_
      split
      · exact hintern'
      · exact hintern
    · exact meansIf_none

variable (hB : B.Sound last vals)
include hB

lemma means_finishSum (hw : 0 < w) {final : List SymRef} (hf : ∀ q ∈ final, Has s q w) :
    Means last vals s (finishSum B w final) w (addAll w (final.map (last.num vals))) := by
  unfold finishSum
  split
  · exact means_mkZero hw
  next r =>
    have hr := hf r (by simp)
    refine means_pure fun h => ⟨hr, ?_⟩
    simp [addAll, mod_eq_of_lt (h.lt hr)]
  next a b =>
    have ha := hf a (by simp)
    have hb := hf b (by simp)
    have hab : (last.num vals a + last.num vals b) % 2 ^ w =
        addAll w ([a, b].map (last.num vals)) := by
      simp [addAll]
    have hba : (last.num vals b + last.num vals a) % 2 ^ w =
        addAll w ([a, b].map (last.num vals)) := by
      simp [addAll, add_comm]
    refine means_orElse (hab ▸ meansIf_unionDifference hB ha hb) ?_
    intro t _ he
    refine means_orElse (hba ▸ meansIf_unionDifference hB (hb.mono he) (ha.mono he)) ?_
    intro u _ he'
    have heu := he.trans he'
    refine means_orElse (meansIf_forcedDifference hB (ha.mono heu) (hb.mono heu)) ?_
    intro v _ hev
    exact means_nary .add (by rfl) le_rfl
      (has_pair (ha.mono (heu.trans hev)) (hb.mono (heu.trans hev)))
  next h1 h2 h3 =>
    refine means_nary .add (by rfl) ?_ hf
    rcases final with _ | ⟨r, _ | ⟨_, _⟩⟩
    · exact absurd rfl h1
    · exact absurd rfl (h2 r)
    · exact Nat.le_add_left 2 _

lemma means_mkAdd {n : Nat} {ops : List SymRef} (hops : ∀ q ∈ ops, Has s q w) :
    Means last vals s (mkAdd n B ops) w (addAll w (ops.map (last.num vals))) := by
  refine means_ite (fun _ => means_stop) fun hne => ?_
  refine means_orElse (plainSum_spec hops) ?_
  intro t _ he
  have hops' := fun q hq => (hops q hq).mono he
  apply means_context
  intro h
  obtain ⟨q, qs, rfl⟩ := exists_cons_of_ne_nil hne
  have hq := hops' q (mem_cons_self ..)
  have hw : t.ctx.width ((q :: qs).getD 0 0) = w := hq.2
  rw [hw]
  refine triple_bind (collectSum_spec hB hops') ?_
  intro st u _ _ hst
  refine triple_bind (finalTerms_spec hB (h.pos hq) hst.1 hst.2.2) ?_
  intro final v _ _ hfinal
  refine (means_finishSum hB (h.pos hq) hfinal.1).congr ?_
  exact hfinal.2.trans hst.2.1

lemma means_mkNeg (ha : Has s a w) :
    Means last vals s (mkNeg B a) w (negOf w (last.num vals a)) := by
  apply means_context
  intro h
  rw [ha.2]
  refine means_bind (means_mkConst (show 0 < (APInt.allOnes w).width from h.pos ha) rfl
    (toNat_allOnes w)) ?_
  intro minus t _ he hm
  refine (hB.mkMul (has_pair hm.1 (ha.mono he))).congr ?_
  rw [negOf_eq_mul (h.lt ha)]
  simp [mulAll, hm.2]

omit hB

def subOf (w x y : Nat) : Nat := (x + (2 ^ w - y)) % 2 ^ w

omit [BlockHash] in
lemma subOf_eq (x y : Nat) : subOf w x y = (x + negOf w y) % 2 ^ w := by
  rw [subOf, negOf, Nat.add_mod_mod]

omit [BlockHash] in
lemma subOf_unique {x y d : Nat} (hy : y < 2 ^ w) (hd : d < 2 ^ w) (h : d + y ≡ x [MOD 2 ^ w]) :
    subOf w x y = d := by
  have hsum : y + (2 ^ w - y) = 2 ^ w := by omega
  have hmod : x + (2 ^ w - y) ≡ d [MOD 2 ^ w] := by
    refine (h.symm.add_right _).trans ?_
    rw [add_assoc, hsum]
    simp [Nat.ModEq]
  rw [subOf, hmod, mod_eq_of_lt hd]

lemma literalOffset_spec (h : At last vals s) {value : SymRef} (hv : Has s value w) :
    (s.ctx.literalOffset value).2.width = w ∧
      last.num vals value = last.num vals (s.ctx.literalOffset value).1 +
        (s.ctx.literalOffset value).2.toNat := by
  unfold SymContext.literalOffset
  dsimp only
  split
  next hc =>
    simp only [and_eq_true, decide_eq_true_eq] at hc
    obtain ⟨⟨⟨⟨hop, hlen⟩, hconst⟩, hmask⟩, hz⟩ := hc
    obtain ⟨-, hall⟩ := h.nary hv (by simp [hop])
    have hops : s.ctx.operands value = [s.ctx.operand value 0, s.ctx.operand value 1] := by
      unfold SymContext.operand
      obtain ⟨a, b, hab⟩ := length_eq_two.mp hlen
      rw [hab]
      rfl
    have h0 : Has s (s.ctx.operand value 0) w := hall _ (by rw [hops]; simp)
    have h1 : Has s (s.ctx.operand value 1) w := hall _ (by rw [hops]; simp)
    obtain ⟨-, hm0, hmc, -, hmnum⟩ := h.masked h1 hmask
    refine ⟨h.const_width h0 hconst, ?_⟩
    have hzero : (s.ctx.constValue (s.ctx.operand value 0)).toNat &&&
        (s.ctx.constValue (s.ctx.operand (s.ctx.operand value 1) 0)).toNat = 0 := by
      rw [← toNat_and ((h.const_width hm0 hmc).trans (h.const_width h0 hconst).symm)]
      exact toNat_of_isZero hz
    have hdisj : last.num vals (s.ctx.operand value 1) &&&
        (s.ctx.constValue (s.ctx.operand value 0)).toNat = 0 := by
      rw [hmnum, Nat.and_comm, ← Nat.and_assoc, hzero, Nat.zero_and]
    rw [add_eq_or hdisj, h.or_num hv hop]
    conv_lhs => rw [hops]
    simp only [map_cons, map_nil, orAll_cons]
    rw [h.const_num h0 hconst, Nat.or_comm]
    simp [orAll]
  · exact ⟨hv.2, by simp⟩

lemma meansIf_unmaskedDifference (hB : B.Sound last vals) {b : SymRef} (ha : Has s a w)
    (hb : Has s b w) :
    MeansIf last vals s (unmaskedDifference B a b) w (subOf w (last.num vals a)
      (last.num vals b)) := by
  apply meansIf_context
  intro h
  refine meansIf_ite (fun hc => ?_) fun _ => meansIf_none
  rw [and_eq_true, decide_eq_true_eq, contains_iff_mem] at hc
  obtain ⟨hop, hmem⟩ := hc
  obtain ⟨-, hall⟩ := h.nary hb (by simp [hop])
  have hmask : ∀ q ∈ (s.ctx.operands b).filter fun c => c ≠ a, Has s q w :=
    fun q hq => hall q (mem_of_mem_filter hq)
  apply meansIf_some
  refine means_bind (means_soleOr .and (by rfl) (fun hrs => hB.mkAnd hrs) hmask) ?_
  intro mask t _ het hm
  refine means_bind (hB.mkNot hm.1) ?_
  intro outside u _ heu ho
  refine (hB.mkAnd (has_pair ((ha.mono het).mono heu) ho.1)).congr ?_
  have hmlt := h.lt ha
  have hm' : last.num vals mask =
      andAll w (((s.ctx.operands b).filter fun c => c ≠ a).map (last.num vals)) := hm.2
  have hbnum : last.num vals b = last.num vals a &&& last.num vals mask := by
    rw [h.and_num hb hop, hm']
    have : andAll w ((s.ctx.operands b).map (last.num vals)) =
        andAll w ((a :: (s.ctx.operands b).filter fun c => c ≠ a).map (last.num vals)) := by
      apply andAll_congr
      intro x
      simp only [mem_map, mem_cons, mem_filter, decide_eq_true_eq]
      constructor
      · rintro ⟨q, hq, rfl⟩
        by_cases hqa : q = a
        · exact ⟨a, .inl rfl, by rw [hqa]⟩
        · exact ⟨q, .inr ⟨hq, hqa⟩, rfl⟩
      · rintro ⟨q, hq | hq, rfl⟩
        · exact ⟨a, hmem, by rw [hq]⟩
        · exact ⟨q, hq.1, rfl⟩
    rw [this]
    rfl
  have hand : andAll w ([a, outside].map (last.num vals)) = last.num vals a &&&
      notOf w (last.num vals mask) := by
    simp only [map_cons, map_nil, andAll_cons, ho.2]
    show _ &&& (_ &&& ones w) = _
    rw [and_ones (notOf_lt ..)]
  have hmasklt : last.num vals mask < 2 ^ w := hm' ▸ andAll_lt ..
  rw [hand]
  refine (subOf_unique (h.lt hb) (lt_of_le_of_lt Nat.and_le_left hmlt) ?_).symm
  rw [hbnum, and_add_and ?_]
  · have hfull : notOf w (last.num vals mask) ||| last.num vals mask = ones w := by
      apply eq_of_testBit_eq
      intro i
      rw [testBit_or, testBit_notOf hmasklt, testBit_ones]
      by_cases hi : i < w
      · cases (last.num vals mask).testBit i with
        | true => simp [hi]
        | false => simp [hi]
      · simp [hi, testBit_of_lt hmasklt (not_lt.mp hi)]
    rw [hfull, and_ones hmlt]
  · apply eq_of_testBit_eq
    intro i
    rw [testBit_and, testBit_notOf hmasklt, Nat.zero_testBit]
    cases (last.num vals mask).testBit i with
    | true => simp
    | false => simp

omit [BlockHash] in
lemma cancelTerms_spec (num : SymRef → Nat) (ls rs : List SymRef) :
    (∀ q ∈ (cancelTerms ls rs).1, q ∈ ls) ∧ (∀ q ∈ (cancelTerms ls rs).2.1, q ∈ rs) ∧
      (ls.map num).sum + ((cancelTerms ls rs).2.1.map num).sum =
        ((cancelTerms ls rs).1.map num).sum + (rs.map num).sum := by
  fun_induction cancelTerms ls rs with
  | case1 rs => simp
  | case2 ls => simp
  | case3 l ls rs kept ih =>
    obtain ⟨h1, h2, h3⟩ := ih
    refine ⟨fun q hq => mem_cons_of_mem _ (h1 q hq), fun q hq => mem_cons_of_mem _ (h2 q hq), ?_⟩
    change _ + (kept.2.1.map num).sum = (kept.1.map num).sum + _ at h3
    simp only [map_cons, sum_cons]
    omega
  | case4 l ls r rs hne hlt kept ih =>
    obtain ⟨h1, h2, h3⟩ := ih
    refine ⟨?_, h2, ?_⟩
    · intro q hq
      rcases mem_cons.mp hq with rfl | hq
      · exact mem_cons_self ..
      · exact mem_cons_of_mem _ (h1 q hq)
    · change _ + (kept.2.1.map num).sum = (kept.1.map num).sum + _ at h3
      simp only [map_cons, sum_cons] at h3 ⊢
      omega
  | case5 l ls r rs hne hlt kept ih =>
    obtain ⟨h1, h2, h3⟩ := ih
    refine ⟨h1, ?_, ?_⟩
    · intro q hq
      rcases mem_cons.mp hq with rfl | hq
      · exact mem_cons_self ..
      · exact mem_cons_of_mem _ (h2 q hq)
    · change _ + (kept.2.1.map num).sum = (kept.1.map num).sum + _ at h3
      simp only [map_cons, sum_cons] at h3 ⊢
      omega

lemma addendsOf_spec (h : At last vals s) (ha : Has s a w) :
      (∀ q ∈ sortRefs (s.ctx.addendsOf a), Has s q w) ∧
      ((sortRefs (s.ctx.addendsOf a)).map (last.num vals)).sum ≡ last.num vals a [MOD 2 ^ w] := by
  have hperm : (sortRefs (s.ctx.addendsOf a)).Perm (s.ctx.addendsOf a) := perm_insertionSort ..
  rw [(hperm.map _).sum_eq]
  have hspec : (∀ q ∈ s.ctx.addendsOf a, Has s q w) ∧
      ((s.ctx.addendsOf a).map (last.num vals)).sum ≡ last.num vals a [MOD 2 ^ w] := by
    unfold SymContext.addendsOf
    split
    next hop =>
      refine ⟨(h.nary ha (by simp [hop])).2, ?_⟩
      rw [h.add_num ha hop, addAll]
      exact (mod_modEq _ _).symm
    · refine ⟨?_, by simp [Nat.ModEq]⟩
      intro q hq
      rw [mem_singleton.mp hq]
      exact ha
  exact ⟨fun q hq => hspec.1 q (hperm.mem_iff.mp hq), hspec.2⟩

omit [BlockHash] in
lemma sum_negOf (xs : List Nat) (hxs : ∀ x ∈ xs, x < 2 ^ w) :
    (xs.map (negOf w)).sum + xs.sum ≡ 0 [MOD 2 ^ w] := by
  induction xs with
  | nil => exact .rfl
  | cons x xs ih =>
    have hx := hxs x (mem_cons_self ..)
    have ih' := ih fun y hy => hxs y (mem_cons_of_mem _ hy)
    have hone : negOf w x + x ≡ 0 [MOD 2 ^ w] := by
      refine ((mod_modEq _ _).add_right _).trans ?_
      rw [Nat.sub_add_cancel hx.le]
      simp [Nat.ModEq]
    have hadd := hone.add ih'
    rw [map_cons, sum_cons, sum_cons]
    rw [show negOf w x + (xs.map (negOf w)).sum + (x + xs.sum) =
      negOf w x + x + ((xs.map (negOf w)).sum + xs.sum) by omega]
    exact hadd

lemma meansIf_cancelledDifference (hB : B.Sound last vals) {b : SymRef} (ha : Has s a w)
    (hb : Has s b w) :
    MeansIf last vals s (cancelledDifference B a b) w (subOf w (last.num vals a)
      (last.num vals b)) := by
  apply meansIf_context
  intro h
  obtain ⟨ha1, ha2⟩ := addendsOf_spec h ha
  obtain ⟨hb1, hb2⟩ := addendsOf_spec h hb
  obtain ⟨hk1, hk2, hk3⟩ := cancelTerms_spec (last.num vals) (sortRefs (s.ctx.addendsOf a))
    (sortRefs (s.ctx.addendsOf b))
  generalize cancelTerms (sortRefs (s.ctx.addendsOf a)) (sortRefs (s.ctx.addendsOf b)) =
    kept at hk1 hk2 hk3
  refine meansIf_ite (fun _ => ?_) fun _ => meansIf_none
  apply meansIf_some
  refine triple_bind (triple_each_map (w := w) kept.2.1 (g := fun q => negOf w (last.num vals q))
    ?_) ?_
  · intro t _ het q hq
    exact hB.mkNeg ((hb1 q (hk2 q hq)).mono het)
  · intro negated t _ het hneg
    have hterms : ∀ q ∈ kept.1 ++ negated, Has t q w := by
      intro q hq
      rcases mem_append.mp hq with hq | hq
      · exact (ha1 q (hk1 q hq)).mono het
      · exact hneg.1 q hq
    have hvalue : addAll w ((kept.1 ++ negated).map (last.num vals)) =
        subOf w (last.num vals a) (last.num vals b) := by
      refine (subOf_unique (h.lt hb) (addAll_lt ..) ?_).symm
      rw [addAll, map_append, sum_append, hneg.2]
      have hnegsum : (kept.2.1.map fun q => negOf w (last.num vals q)).sum +
          (kept.2.1.map (last.num vals)).sum ≡ 0 [MOD 2 ^ w] := by
        have := sum_negOf (w := w) (kept.2.1.map (last.num vals)) (by
          intro x hx
          obtain ⟨q, hq, rfl⟩ := mem_map.mp hx
          exact h.lt (hb1 q (hk2 q hq)))
        rw [map_map] at this
        exact this
      have hleft := ((mod_modEq ((kept.1.map (last.num vals)).sum +
        (kept.2.1.map fun q => negOf w (last.num vals q)).sum) (2 ^ w)).add_right
          (last.num vals b)).trans ((hb2.symm).add_left _)
      refine hleft.trans (.trans ?_ ha2)
      have hcancel := hnegsum.add_left ((sortRefs (s.ctx.addendsOf a)).map (last.num vals)).sum
      rw [add_zero] at hcancel
      refine .trans ?_ hcancel
      rw [show ∀ p q u : Nat, p + (q + u) = p + u + q from fun p q u => by omega, hk3,
        show ∀ p q u : Nat, p + q + u = p + u + q from fun p q u => by omega]
    rw [← hvalue]
    refine means_ite (fun hnil => ?_) fun _ => hB.mkAdd hterms
    rw [hnil, ha.2]
    exact means_mkZero (h.pos ha)

lemma means_mkSub (hB : B.Sound last vals) {b : SymRef} (ha : Has s a w) (hb : Has s b w) :
    Means last vals s (mkSub B a b) w (subOf w (last.num vals a) (last.num vals b)) := by
  apply means_context
  intro h
  obtain ⟨hl1, hl2⟩ := literalOffset_spec h ha
  obtain ⟨hr1, hr2⟩ := literalOffset_spec h hb
  have hblt := h.lt hb
  refine means_ite (fun hc => ?_) fun _ => ?_
  · refine means_mkConst (show 0 < (s.ctx.literalOffset a).2.width from hl1 ▸ h.pos ha) hl1 ?_
    have hrlt := (s.ctx.literalOffset b).2.toNat_lt
    rw [hr1] at hrlt
    rw [APInt.sub, APInt.ofNat_toNat, hl1]
    refine (subOf_unique hblt (mod_lt _ (two_pow_pos w)) ?_).symm
    refine ((mod_modEq _ _).add_right _).trans ?_
    rw [hr2, hl2, hc.1]
    generalize (s.ctx.literalOffset a).2.toNat = x
    generalize (s.ctx.literalOffset b).2.toNat = y at hrlt
    rw [show x + (2 ^ w - y) + (last.num vals (s.ctx.literalOffset b).1 + y) =
      last.num vals (s.ctx.literalOffset b).1 + x + 2 ^ w by omega]
    simp [Nat.ModEq]
  · refine means_orElse (meansIf_unmaskedDifference hB ha hb) ?_
    intro t _ het
    refine means_orElse (meansIf_cancelledDifference hB (ha.mono het) (hb.mono het)) ?_
    intro u _ heu
    refine means_bind (means_mkNeg hB ((hb.mono het).mono heu)) ?_
    intro negated v _ hev hn
    refine (hB.mkAdd (has_pair (((ha.mono het).mono heu).mono hev) hn.1)).congr ?_
    rw [subOf_eq]
    simp [addAll, hn.2]

end

section

variable [BlockHash] {last : SymContext} {vals : List APInt} {s : SymBuilder} {r : SymRef} {w : Nat}
    {B : Builders}

omit [BlockHash] in
lemma lowerBoundInsert_perm (r : SymRef) (rs : List SymRef) :
    (lowerBoundInsert r rs).Perm (r :: rs) := by
  refine perm_middle.trans ?_
  rw [takeWhile_append_dropWhile]

lemma meansIf_insertFactor {product atom : SymRef} (hp : Has s product w) (ha : Has s atom w) :
    MeansIf last vals s (insertFactor product atom) w
      (mulAll w [last.num vals product, last.num vals atom]) := by
  apply meansIf_context
  intro h
  refine meansIf_ite (fun hc => ?_) fun _ => meansIf_none
  simp only [and_eq_true, decide_eq_true_eq] at hc
  have harity := h.arity hp (by simp [hc.1.1])
  obtain ⟨-, hall⟩ := h.nary hp (by simp [hc.1.1])
  apply meansIf_some
  rw [hp.2]
  have hperm : (if s.ctx.isConst ((s.ctx.operands product).getD 0 0) then
      (s.ctx.operands product).take 1 ++ lowerBoundInsert atom ((s.ctx.operands product).drop 1)
      else lowerBoundInsert atom (s.ctx.operands product)).Perm
        (atom :: s.ctx.operands product) := by
    split
    · refine ((lowerBoundInsert_perm ..).append_left _).trans ?_
      refine perm_middle.trans ?_
      rw [take_append_drop]
    · exact lowerBoundInsert_perm ..
  refine (means_nary .mul (by rfl) ?_ ?_).congr ?_
  · rw [hperm.length_eq, length_cons]
    exact Nat.succ_le_succ (Nat.zero_lt_of_lt harity)
  · intro q hq
    rcases mem_cons.mp (hperm.mem_iff.mp hq) with rfl | hq
    · exact ha
    · exact hall q hq
  · show mulAll w _ = _
    rw [mulAll_perm (hperm.map _), map_cons, mulAll_cons, ← h.mul_num hp hc.1.1, mulAll, mul_comm]
    simp

lemma meansIf_scaleFactors {product atom : SymRef} (hp : Has s product w) (ha : Has s atom w) :
    MeansIf last vals s (scaleFactors product atom) w
      (mulAll w [last.num vals product, last.num vals atom]) := by
  apply meansIf_context
  intro h
  refine meansIf_ite (fun hc => ?_) fun _ => meansIf_none
  simp only [and_eq_true, decide_eq_true_eq] at hc
  obtain ⟨⟨hop, hconst⟩, hlen⟩ := hc
  obtain ⟨-, hall⟩ := h.nary hp (by simp [hop])
  have hpos := h.pos hp
  -- the factors but the coefficient, and the new coefficient
  have hsplit : ∃ tail coefficient, (if s.ctx.isConst ((s.ctx.operands product).getD 0 0) then
      (s.ctx.operands product).drop 1 else s.ctx.operands product) = tail ∧
      (if s.ctx.isConst ((s.ctx.operands product).getD 0 0) then
        (s.ctx.constValue atom).mul (s.ctx.constValue ((s.ctx.operands product).getD 0 0))
        else s.ctx.constValue atom) = coefficient ∧ (∀ q ∈ tail, Has s q w) ∧
          coefficient.width = w ∧
      mulAll w [last.num vals product, last.num vals atom] =
        coefficient.toNat * mulAll w (tail.map (last.num vals)) % 2 ^ w := by
    have hatomw := h.const_width ha hconst
    have hmul : mulAll w [last.num vals product, last.num vals atom] =
        (s.ctx.constValue atom).toNat * last.num vals product % 2 ^ w := by
      rw [← h.const_num ha hconst]
      simp [mulAll, mul_comm]
    cases hs : s.ctx.isConst ((s.ctx.operands product).getD 0 0) with
    | true =>
      obtain ⟨-, hcw, hrest, hnum⟩ := h.scaled_any hp hop hs
      refine ⟨_, _, rfl, rfl, hrest, hatomw, ?_⟩
      rw [hmul, hnum]
      simp only [if_true]
      rw [show (s.ctx.operands product).getD 0 0 = s.ctx.operand product 0 from rfl,
        toNat_mul (hcw.trans hatomw.symm), hatomw, Nat.mul_mod_mod, Nat.mod_mul_mod, mul_assoc]
    | false =>
      refine ⟨_, _, rfl, rfl, hall, hatomw, ?_⟩
      rw [hmul, h.mul_num hp hop]
      rfl
  obtain ⟨tail, coefficient, ht, hco, htail, hcw, hvalue⟩ := hsplit
  rw [ht] at hlen
  rw [ht, hco, hvalue, hp.2]
  refine meansIf_ite (fun hz => meansIf_some ?_) fun _ =>
    meansIf_ite (fun h1 => meansIf_some ?_) fun _ =>
    meansIf_some ?_
  · rw [toNat_of_isZero hz, Nat.zero_mul, zero_mod]
    exact means_mkZero hpos
  · refine (means_nary .mul (by rfl) hlen htail).congr ?_
    rw [toNat_of_isOne h1, one_mul]
    exact (mod_mod ..).symm
  · refine means_bind (means_mkConst (hcw ▸ hpos) hcw rfl) ?_
    intro c t _ het hct
    refine (means_nary .mul (by rfl) (hlen.trans (Nat.le_succ _)) ?_).congr ?_
    · intro q hq
      rcases mem_cons.mp hq with rfl | hq
      · exact hct.1
      · exact (htail q hq).mono het
    · show mulAll w _ = _
      rw [map_cons, mulAll_cons, hct.2]

variable {ops : List SymRef}

lemma meansIf_pairProduct (hops : ∀ q ∈ ops, Has s q w) :
    MeansIf last vals s (pairProduct ops) w (mulAll w (ops.map (last.num vals))) := by
  unfold pairProduct
  split
  next a b =>
    have ha := hops a (by simp)
    have hb := hops b (by simp)
    apply meansIf_context
    intro h
    have hswap : ∃ product atom, (if s.ctx.op a ≠ .mul then b else a) = product ∧
        (if s.ctx.op a ≠ .mul then a else b) = atom ∧ Has s product w ∧ Has s atom w ∧
        mulAll w ([a, b].map (last.num vals)) = mulAll w [last.num vals product,
          last.num vals atom] := by
      by_cases hm : s.ctx.op a ≠ .mul
      · exact ⟨b, a, if_pos hm, if_pos hm, hb, ha, mulAll_perm (.swap ..)⟩
      · exact ⟨a, b, if_neg hm, if_neg hm, ha, hb, rfl⟩
    obtain ⟨product, atom, hp, hat, hpw, haw, hvalue⟩ := hswap
    rw [hp, hat, hvalue]
    refine triple_bind (meansIf_insertFactor hpw haw) ?_
    intro o t _ het ho
    cases o with
    | some r =>
      refine triple_pure fun _ q hq => ?_
      cases hq
      exact ho r rfl
    | none => exact meansIf_scaleFactors (hpw.mono het) (haw.mono het)
  · exact meansIf_none

lemma meansIf_flatProduct (hne : ops ≠ []) (hops : ∀ q ∈ ops, Has s q w) :
    MeansIf last vals s (flatProduct ops) w (mulAll w (ops.map (last.num vals))) := by
  apply meansIf_context
  intro _
  refine meansIf_ite (fun hc => ?_) fun _ => meansIf_none
  simp only [and_eq_true, decide_eq_true_eq] at hc
  apply meansIf_some
  obtain ⟨q, qs, rfl⟩ := exists_cons_of_ne_nil hne
  have hw : s.ctx.width ((q :: qs).getD 0 0) = w := (hops q (mem_cons_self ..)).2
  rw [hw]
  exact means_nary .mul (by rfl) ((Nat.le_succ 2).trans hc.1.1.1) hops

omit [BlockHash] in
lemma shiftedBack_num {x k : Nat} (hk : k < w) :
    2 ^ k * (x / 2 ^ k) % 2 ^ w = x &&& notOf w (ones k) := by
  apply eq_of_testBit_eq
  intro i
  have hones : ones k < 2 ^ w := (ones_lt k).trans_le (Nat.pow_le_pow_right two_pos hk.le)
  rw [mul_comm, testBit_shl, Nat.testBit_div_two_pow, testBit_and, testBit_notOf hones,
    testBit_ones]
  by_cases hi : k ≤ i
  · rw [show i - k + k = i by omega]
    simp [hi, Nat.not_lt.mpr hi, Bool.and_comm]
  · simp [hi, not_le.mp hi]

lemma meansIf_shiftedBack (hB : B.Sound last vals) {factor : APInt} (hf : factor.width = w)
    {rest : List SymRef}
    (hrest : ∀ q ∈ rest, Has s q w) : MeansIf last vals s (shiftedBack B factor rest) w
      (mulAll w (factor.toNat :: rest.map (last.num vals))) := by
  apply meansIf_context
  intro h
  refine meansIf_ite (fun hc => ?_) fun _ => meansIf_none
  simp only [and_eq_true, decide_eq_true_eq] at hc
  obtain ⟨shift, rfl⟩ := length_eq_one_iff.mp hc.1
  have hshift := hrest shift (mem_cons_self ..)
  have hop : s.ctx.op shift = .lshr := hc.2
  show MeansIf last vals s (match matchingShiftPower s.ctx (s.ctx.operand shift 1) factor with
    | some k => _ | none => _) _ _
  split
  next k hk =>
    obtain ⟨h0, h1, hnum⟩ := h.lshr_num hshift hop
    obtain ⟨hpow, hkw, hcount, hcountk⟩ := matchingShiftPower_spec hk
    rw [hf] at hkw
    have hcnum := h.const_num h1 hcount
    rw [hcountk] at hcnum
    apply meansIf_some
    have hmw : (lowBitsSet factor.width k).not.width = w := hf
    refine means_bind (means_mkConst (hmw ▸ h.pos hshift) hmw rfl) ?_
    intro mask t _ het hm
    refine (hB.mkAnd (has_pair (h0.mono het) hm.1)).congr ?_
    have hmask : (lowBitsSet factor.width k).not.toNat = notOf w (ones k) := by
      rw [toNat_not, hf, lowBitsSet_toNat hkw.le]
      rfl
    have hvalue : mulAll w (factor.toNat :: [shift].map (last.num vals)) =
        last.num vals (s.ctx.operand shift 0) &&& notOf w (ones k) := by
      rw [← shiftedBack_num hkw, hpow]
      simp [mulAll, hnum, hcnum]
    rw [hvalue]
    simp only [map_cons, map_nil, andAll_cons, hm.2, hmask]
    show _ &&& (_ &&& ones w) = _
    rw [and_ones (notOf_lt ..)]
  · exact meansIf_none

lemma means_finishProduct {factor : APInt} (hf : factor.width = w) {rest : List SymRef}
    (hne : rest ≠ []) (hrest : ∀ q ∈ rest, Has s q w) :
    Means last vals s (finishProduct factor rest) w
      (mulAll w (factor.toNat :: rest.map (last.num vals))) := by
  apply means_of_at
  intro h
  have hpos : 0 < w := by
    obtain ⟨q, qs, rfl⟩ := exists_cons_of_ne_nil hne
    exact h.pos (hrest q (mem_cons_self ..))
  unfold finishProduct
  rw [hf]
  refine means_ite (fun h1 => ?_) fun _ => ?_
  · have hvalue : mulAll w (factor.toNat :: rest.map (last.num vals)) =
        mulAll w (rest.map (last.num vals)) := by
      rw [mulAll_cons, toNat_of_isOne h1, one_mul]
      exact mod_mod ..
    rw [hvalue]
    exact means_soleNode .mul (by rfl) hne hrest
  · refine means_bind (means_mkConst (hf ▸ hpos) hf rfl) ?_
    intro c t _ het hc
    refine (means_nary .mul (by rfl) (two_le_cons hne _) ?_).congr ?_
    · intro q hq
      rcases mem_cons.mp hq with rfl | hq
      · exact hc.1
      · exact (hrest q hq).mono het
    · show mulAll w _ = _
      rw [map_cons, hc.2]

lemma means_collectProduct (hB : B.Sound last vals) {n : Nat} (hne : ops ≠ [])
    (hops : ∀ q ∈ ops, Has s q w) :
    Means last vals s (collectProduct n B ops) w (mulAll w (ops.map (last.num vals))) := by
  apply means_context
  intro h
  obtain ⟨q, qs, rfl⟩ := exists_cons_of_ne_nil hne
  have hq := hops q (mem_cons_self ..)
  have hw : s.ctx.width ((q :: qs).getD 0 0) = w := hq.2
  have hpos := h.pos hq
  rw [hw]
  apply means_ofOption
  intro flat hflat
  obtain ⟨hrest, hfw, hvalue⟩ := flatten_spec h (by rfl) (fun r hr => hops r (mem_reverse.mp hr))
    (forall_mem_nil _) rfl hflat
  have hvalue' : mulAll w (flat.2.toNat :: flat.1.map (last.num vals)) =
      mulAll w ((q :: qs).map (last.num vals)) := by
    refine .trans hvalue ?_
    show mulAll w _ = _
    rw [mulAll_cons, toNat_one hpos, one_mul, append_nil, map_reverse, mulAll_perm (reverse_perm _)]
    exact mod_mod ..
  have hperm : (sortRefs flat.1).Perm flat.1 := perm_insertionSort ..
  have hsorted : ∀ r ∈ sortRefs flat.1, Has s r w := fun r hr => hrest r (hperm.mem_iff.mp hr)
  have hsortedValue : mulAll w (flat.2.toNat :: (sortRefs flat.1).map (last.num vals)) =
      mulAll w ((q :: qs).map (last.num vals)) := by
    rw [← hvalue']
    exact mulAll_perm ((hperm.map _).cons _)
  refine means_ite (fun hz => ?_) fun _ => means_ite (fun hnil => ?_) fun hnil => ?_
  · rw [← hvalue', mulAll_cons, toNat_of_isZero hz, Nat.zero_mul, zero_mod]
    exact means_mkZero hpos
  · refine means_mkConst (hfw ▸ hpos) hfw ?_
    have hlt := flat.2.toNat_lt
    rw [hfw] at hlt
    rw [← hvalue', hnil]
    simp [mulAll, mod_eq_of_lt hlt]
  · rw [← hsortedValue]
    refine means_orElse (meansIf_shiftedBack hB hfw hsorted) ?_
    intro t _ het
    refine means_finishProduct hfw ?_ fun r hr => (hsorted r hr).mono het
    intro hs
    rw [hs] at hperm
    exact hnil hperm.symm.eq_nil

lemma means_mkMul (hB : B.Sound last vals) {n : Nat} (hops : ∀ q ∈ ops, Has s q w) :
    Means last vals s (mkMul n B ops) w (mulAll w (ops.map (last.num vals))) := by
  refine means_ite (fun _ => means_stop) fun hne => ?_
  refine means_orElse (meansIf_pairProduct hops) ?_
  intro t _ het
  have hops' := fun q hq => (hops q hq).mono het
  refine means_orElse (meansIf_flatProduct hne hops') ?_
  intro u _ heu
  exact means_collectProduct hB hne fun q hq => (hops' q hq).mono heu

end

variable [BlockHash] {last : SymContext} {vals : List APInt} {s : SymBuilder} {w : Nat}
    {B : Builders} {a b : SymRef}

omit [BlockHash] in
lemma toNat_udiv {x y : APInt} (h : y.width = x.width) : (x.udiv y).toNat = x.toNat / y.toNat := by
  have hlt := y.toNat_lt
  rw [h] at hlt
  rw [APInt.udiv, toNat_map₂ h, BitVec.toNat_udiv, BitVec.toNat_ofNat, mod_eq_of_lt hlt]
  rfl

omit [BlockHash] in
lemma toNat_urem {x y : APInt} (h : y.width = x.width) : (x.urem y).toNat = x.toNat % y.toNat := by
  have hlt := y.toNat_lt
  rw [h] at hlt
  rw [urem, toNat_map₂ h, toNat_umod, toNat_ofNat, mod_eq_of_lt hlt]
  rfl

omit [BlockHash] in
lemma sdivOf_one {x : Nat} (hw : 0 < w) (hx : x < 2 ^ w) : sdivOf w x 1 = x := by
  have hone : (APInt.ofNat w 1).isZero = false := by
    rw [APInt.isZero, toNat_one hw]
    rfl
  have hself : (APInt.ofNat w x).toNat = x := by rw [APInt.ofNat_toNat, mod_eq_of_lt hx]
  unfold sdivOf
  dsimp only
  rw [hone]
  simp only [Bool.false_eq_true, if_false]
  split
  · exact hself
  · have hdiv : (APInt.ofNat w x).sdiv (.ofNat w 1) = APInt.ofNat w x := by
      show (⟨w, (BitVec.ofNat w x).sdiv (((BitVec.ofNat w 1)).setWidth w)⟩ : APInt) = _
      rw [BitVec.setWidth_eq, BitVec.sdiv_one]
      rfl
    rw [hdiv, hself]

omit [BlockHash] in
lemma sremOf_one (x : Nat) (hw : 0 < w) : sremOf w x 1 = 0 := by
  have hone : (APInt.ofNat w 1).isZero = false := by
    rw [APInt.isZero, toNat_one hw]
    rfl
  unfold sremOf
  dsimp only
  rw [hone]
  simp only [Bool.false_eq_true, if_false]
  split
  · exact toNat_zero w
  · show ((BitVec.ofNat w x).srem (((BitVec.ofNat w 1)).setWidth w)).toNat = 0
    rw [BitVec.setWidth_eq, BitVec.srem_one, BitVec.toNat_ofNat, zero_mod]

lemma means_mkUDiv (ha : Has s a w) (hb : Has s b w) :
    Means last vals s (mkUDiv a b) w (udivOf w (last.num vals a) (last.num vals b)) := by
  apply means_context
  intro h
  rw [ha.2]
  refine means_ite (fun hc => ?_) fun _ => means_ite (fun hc => ?_) fun _ => ?_
  · rw [Bool.and_eq_true] at hc
    have haw := h.const_width ha hc.1
    have hbw := h.const_width hb hc.2
    have hval : (if (s.ctx.constValue b).isZero then APInt.allOnes w else
        (s.ctx.constValue a).udiv (s.ctx.constValue b)).width = w ∧
        (if (s.ctx.constValue b).isZero then APInt.allOnes w else
          (s.ctx.constValue a).udiv (s.ctx.constValue b)).toNat =
          udivOf w (last.num vals a) (last.num vals b) := by
      rw [h.const_num ha hc.1, h.const_num hb hc.2, udivOf]
      by_cases hz : (s.ctx.constValue b).isZero = true
      · rw [if_pos hz, if_pos (toNat_of_isZero hz)]
        exact ⟨rfl, toNat_allOnes w⟩
      · rw [if_neg hz, if_neg (fun h0 => hz (decide_eq_true h0))]
        exact ⟨haw, toNat_udiv (hbw.trans haw.symm)⟩
    exact means_mkConst (hval.1.symm ▸ h.pos ha) hval.1 hval.2
  · rw [Bool.and_eq_true] at hc
    refine means_pure fun _ => ⟨ha, ?_⟩
    rw [h.const_num hb hc.1, toNat_of_isOne hc.2, udivOf, if_neg (by decide), Nat.div_one]
  · exact means_binary (h.pos ha) (by decide) ha hb rfl

lemma ofNat_const (h : At last vals s) {r : SymRef} (hr : Has s r w)
    (hop : s.ctx.isConst r = true) : ofNat w (s.ctx.constValue r).toNat = s.ctx.constValue r := by
  conv_lhs => rw [← h.const_width hr hop]
  exact ofNat_self _

lemma means_mkSDiv (ha : Has s a w) (hb : Has s b w) :
    Means last vals s (mkSDiv a b) w (sdivOf w (last.num vals a) (last.num vals b)) := by
  apply means_context
  intro h
  rw [ha.2]
  have hpos := h.pos ha
  refine means_ite (fun hc => ?_) fun _ => means_ite (fun hc => ?_) fun _ => ?_
  · rw [and_eq_true] at hc
    have haw := h.const_width ha hc.1
    rw [h.const_num ha hc.1, h.const_num hb hc.2, sdivOf, ofNat_const h ha hc.1,
      ofNat_const h hb hc.2]
    refine means_ite (fun hz => ?_) fun hz => means_ite (fun hmin => ?_) fun hmin => ?_
    · rw [if_pos hz]
      cases (s.ctx.constValue a).isNegative with
      | true | false => exact means_mkConst hpos rfl rfl
    · rw [if_neg hz, if_pos hmin]
      exact means_mkConst (haw ▸ hpos) haw rfl
    · rw [if_neg hz, if_neg hmin]
      exact means_mkConst (show 0 < (s.ctx.constValue a).width from haw ▸ hpos) haw rfl
  · rw [and_eq_true] at hc
    refine means_pure fun _ => ⟨ha, ?_⟩
    rw [h.const_num hb hc.1, toNat_of_isOne hc.2]
    exact (sdivOf_one hpos (h.lt ha)).symm
  · exact means_binary (h.pos ha) (by decide) ha hb rfl

lemma means_mkURem (hB : B.Sound last vals) (ha : Has s a w) (hb : Has s b w) :
    Means last vals s (mkURem B a b) w (last.num vals a % last.num vals b) := by
  apply means_context
  intro h
  rw [ha.2]
  have hpos := h.pos ha
  refine means_ite (fun hc => ?_) fun _ => means_ite (fun hc => ?_) fun _ =>
    means_ite (fun hc => ?_) fun _ => ?_
  · rw [and_eq_true] at hc
    have haw := h.const_width ha hc.1
    have hbw := h.const_width hb hc.2
    have hval : (if (s.ctx.constValue b).isZero then s.ctx.constValue a else
        (s.ctx.constValue a).urem (s.ctx.constValue b)).width = w ∧
        (if (s.ctx.constValue b).isZero then s.ctx.constValue a else
          (s.ctx.constValue a).urem (s.ctx.constValue b)).toNat =
            last.num vals a % last.num vals b := by
      rw [h.const_num ha hc.1, h.const_num hb hc.2]
      split
      next hz => exact ⟨haw, by rw [toNat_of_isZero hz, Nat.mod_zero]⟩
      · exact ⟨haw, toNat_urem (hbw.trans haw.symm)⟩
    exact means_mkConst (hval.1.symm ▸ hpos) hval.1 hval.2
  · rw [and_eq_true] at hc
    rw [h.const_num hb hc.1, toNat_of_isOne hc.2, Nat.mod_one]
    exact means_mkZero hpos
  · rw [and_eq_true, decide_eq_true_eq, decide_eq_true_eq] at hc
    apply means_context
    intro _
    obtain ⟨-, hx, hxw, hxnum⟩ := h.zext_num ha hc.1
    obtain ⟨-, hy, hyw, hynum⟩ := h.zext_num hb hc.2
    refine means_bind (hB.mkZExt hx (le_max_left ..)) ?_
    intro left t _ het hl
    refine means_bind (hB.mkZExt (hy.mono het) (le_max_right ..)) ?_
    intro right u _ heu hr
    refine means_bind (hB.mkURem (hl.1.mono heu) hr.1) ?_
    intro rem v _ _ hrem
    refine (hB.mkZExt hrem.1 (Nat.max_le.mpr ⟨hxw.le, hyw.le⟩)).congr ?_
    rw [hrem.2, hl.2, hr.2, hxnum, hynum]
  · exact means_binary (h.pos ha) (by decide) ha hb rfl

lemma means_mkSRem (ha : Has s a w) (hb : Has s b w) :
    Means last vals s (mkSRem a b) w (sremOf w (last.num vals a) (last.num vals b)) := by
  apply means_context
  intro h
  rw [ha.2]
  have hpos := h.pos ha
  refine means_ite (fun hc => ?_) fun _ => means_ite (fun hc => ?_) fun _ => ?_
  · rw [and_eq_true] at hc
    have haw := h.const_width ha hc.1
    rw [h.const_num ha hc.1, h.const_num hb hc.2, sremOf, ofNat_const h ha hc.1,
      ofNat_const h hb hc.2]
    refine means_ite (fun hz => ?_) fun hz => means_ite (fun hmin => ?_) fun hmin => ?_
    · rw [if_pos hz]
      exact means_mkConst (haw ▸ hpos) haw rfl
    · rw [if_neg hz, if_pos hmin, toNat_zero]
      exact means_mkZero hpos
    · rw [if_neg hz, if_neg hmin]
      exact means_mkConst (show 0 < (s.ctx.constValue a).width from haw ▸ hpos) haw rfl
  · rw [and_eq_true] at hc
    rw [h.const_num hb hc.1, toNat_of_isOne hc.2, sremOf_one _ hpos]
    exact means_mkZero hpos
  · exact means_binary (h.pos ha) (by decide) ha hb rfl

end NeverD.Sym
