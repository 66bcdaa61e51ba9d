import NeverD.Sym.Bitwise

namespace NeverD.Sym
open Lib
open Words List

structure SymReadability where
  nodes : Nat
  operations : Nat

namespace SymReadability

def ceiling : Nat := 2 ^ 64 - 1

def less (a b : SymReadability) : Bool :=
  a.nodes < b.nodes || (a.nodes = b.nodes && a.operations < b.operations)

def add (x y : Nat) : Nat := if ceiling - x < y then ceiling else x + y

def pred (x : Nat) : Nat := (x + ceiling) % 2 ^ 64

end SymReadability

def hasSignedMagnitude (value : APInt) : Bool :=
  1 < value.width && value.isNegative && value.toNat ≠ 2 ^ (value.width - 1)

namespace SymContext

variable (ctx : SymContext)

/-- Whether a term can put its sign on a subtraction in a surrounding sum. -/
def hasLeadingMinus (r : SymRef) : Bool :=
  if ctx.isConst r then hasSignedMagnitude (ctx.constValue r)
  else ctx.op r = .mul && ctx.isConst (ctx.operand r 0) && hasSignedMagnitude
    (ctx.constValue (ctx.operand r 0))

/-- A unit negative coefficient prints as unary negation. -/
def hasUnaryMinus (r : SymRef) : Bool :=
  ctx.op r = .mul && 1 < ctx.width r && ctx.isConstOnes (ctx.operand r 0)

def leadingAddOperand (ops : List SymRef) : Nat :=
  if !ctx.isConst (ops.getD 0 0) && ctx.hasLeadingMinus (ops.getD 0 0) then
    (((List.range ops.length).drop 1).find? fun i => !ctx.hasLeadingMinus (ops.getD i 0)).getD 0
  else 0

def ownReadability (costs : List SymReadability) (r : SymRef) : SymReadability :=
  let ops := ctx.operands r
  let chain := isNary (ctx.op r)
  let own := if ctx.op r = .not ∧ ctx.op (ops.getD 0 0) = .eq then 0
    else if chain then SymReadability.pred ops.length else 1
  let lead := if ctx.op r = .add then ctx.leadingAddOperand ops else 0
  let total := (List.range ops.length).foldl (fun total i =>
    let operand := ops.getD i 0
    let child := costs.getD operand ⟨0, 0⟩
    if i = 0 ∧ ctx.hasUnaryMinus r then total
    else
      -- the subtraction of the sum takes the place of the sign
      let signed := ctx.op r = .add ∧ i ≠ lead ∧ ctx.hasUnaryMinus operand ∧
        child.nodes ≠ SymReadability.ceiling
      SymReadability.mk
        (SymReadability.add total.nodes (if signed then SymReadability.pred child.nodes
          else child.nodes))
        (SymReadability.add total.operations
          (if signed then SymReadability.pred child.operations else child.operations)))
    ⟨own, if ops = [] then 0 else own⟩
  if total.nodes = SymReadability.ceiling then ⟨total.nodes, SymReadability.ceiling⟩ else total

def readabilityCosts : Nat → List SymReadability
  | 0 => []
  | n + 1 =>
    let costs := readabilityCosts n
    costs ++ [ctx.ownReadability costs n]

def readability (r : SymRef) : SymReadability :=
  (ctx.readabilityCosts ctx.nodes.length).getD r ⟨0, 0⟩

/-- Cancel pairs of complements: each is the word with all bits set. -/
def dropComplements : Nat → List SymRef → APInt → List SymRef × APInt
  | 0, rest, acc => (rest, acc)
  | n + 1, rest, acc =>
    match rest.find? fun r => ctx.op r = .not && rest.contains (ctx.operand r 0) with
    | none => (rest, acc)
    | some r => dropComplements n ((rest.erase r).erase (ctx.operand r 0))
        (acc.xor (APInt.allOnes acc.width))

def unionParts (w : Nat) (r : SymRef) : APInt × List SymRef :=
  if ctx.isConst (ctx.operand r 0) then (ctx.constValue (ctx.operand r 0), (ctx.operands r).drop 1)
  else (APInt.zero w, ctx.operands r)

def negationCost : List SymRef → Nat → Nat → Option (Nat × Nat)
  | [], added, removed => some (added, removed)
  | term :: terms, added, removed =>
    if ctx.isVar term then negationCost terms (added + 1) removed
    else if ctx.isScaled term && ctx.isVar (ctx.operand term 1) then
      negationCost terms added (if ctx.isConstOnes (ctx.operand term 0) then removed + 1
        else removed)
    else none

end SymContext

def oddRuns : List SymRef → List SymRef
  | [] => []
  | r :: rs =>
    match oddRuns rs with
    | [] => [r]
    | q :: qs => if r = q then qs else r :: q :: qs

section

variable [BlockHash] (n : Nat) (B : Builders)

def withLiteral (acc : APInt) (difference : SymRef) : Build SymRef :=
  if acc.isZero then pure difference
  else do
    let c ← Build.mkConst acc
    B.mkXor [difference, c]

/-- A word against its own bits under a mask leaves the bits outside the mask. -/
def maskedDifference (acc : APInt) (value masked : SymRef) : Build (Option SymRef) := do
  let ctx ← Build.context
  if ctx.op masked = .and ∧ value ∈ ctx.operands masked then
    some <$> do
      let bits ← soleOr B.mkAnd ((ctx.operands masked).filter fun factor => factor ≠ value)
      let outside ← B.mkNot bits
      let difference ← B.mkAnd [value, outside]
      withLiteral B acc difference
  else pure none

/-- A sum of words without a common bit, as a union. -/
def packedWordView (value : SymRef) : Build SymRef := do
  let ctx ← Build.context
  let offset := ctx.operand value 0
  let word := ctx.operand value 1
  if ctx.op value = .add ∧ ctx.numOperands value = 2 ∧ ctx.isConst offset ∧ ctx.op word = .and ∧
      ctx.isConst (ctx.operand word 0) ∧
      ((ctx.constValue offset).and (ctx.constValue (ctx.operand word 0))).isZero then
    B.mkOr [offset, word]
  else pure value

def unionsApart (w : Nat) (acc : APInt) (a b : SymRef) : Build (Option SymRef) := do
  let leftWord ← packedWordView B a
  let rightWord ← packedWordView B b
  let ctx ← Build.context
  let left := ctx.unionParts w leftWord
  let right := ctx.unionParts w rightWord
  if ctx.op leftWord ≠ .or ∨ ctx.op rightWord ≠ .or then pure none
  else if left.2 = right.2 then
    some <$> do
      let shared ← soleOr B.mkOr left.2
      let outside ← B.mkNot shared
      let changed ← Build.mkConst (left.1.xor right.1)
      let difference ← B.mkAnd [outside, changed]
      withLiteral B acc difference
  else if !left.1.isZero ∧ left.1 = right.1 then
    some <$> do
      let x ← soleOr B.mkOr left.2
      let y ← soleOr B.mkOr right.2
      let outside ← Build.mkConst left.1.not
      let xor ← B.mkXor [x, y]
      let difference ← B.mkAnd [outside, xor]
      withLiteral B acc difference
  else pure none

def ofTwo (f : SymRef → SymRef → Build (Option SymRef)) : List SymRef → Build (Option SymRef)
  | [a, b] => f a b
  | _ => pure none

def recoverDifference (w : Nat) (rest : List SymRef) (acc : APInt) : Build (Option SymRef) := do
  let ctx ← Build.context
  if w = 1 ∨ !ctx.isVar (rest.getD 0 0) then recoverObservedComparison B .xor rest acc
    else pure none

/-- The bits that a union forces disappear under the same literal. -/
def unforcedUnion (rest : List SymRef) (acc : APInt) : Build (Option SymRef) := do
  let ctx ← Build.context
  match rest with
  | [r] =>
    if !acc.isZero ∧ ctx.op r = .or ∧ ctx.isConst (ctx.operand r 0) ∧
      ctx.constValue (ctx.operand r 0) = acc then
      some <$> do
        let value ← soleOr B.mkOr ((ctx.operands r).drop 1)
        let c ← Build.mkConst acc.not
        B.mkAnd [value, c]
    else pure none
  | _ => pure none

def finishXor (rest : List SymRef) (acc : APInt) : Build SymRef :=
  if acc.isAllOnes then do
    let inner ← finishBitwise .xor true rest acc
    B.mkNot inner
  else finishBitwise .xor acc.isZero rest acc

def rewriteXor (w : Nat) (rest : List SymRef) (acc : APInt) : Build SymRef :=
  (contractZeroExtensions B .xor rest acc).orElse <|
  (ofTwo (maskedDifference B acc) rest).orElse <|
  (ofTwo (fun a b => maskedDifference B acc b a) rest).orElse <|
  (ofTwo (unionsApart B w acc) rest).orElse <|
  (recoverDifference B w rest acc).orElse <|
  (unforcedUnion B rest acc).orElse <|
  finishXor B rest acc

def mkXor (ops : List SymRef) : Build SymRef :=
  if ops = [] then Build.stop
  else do
    let ctx ← Build.context
    let w := ctx.width (ops.getD 0 0)
    let flat ← Build.ofOption (ctx.flatten .xor n ops.reverse [] (APInt.zero w))
    let odd := oddRuns (sortRefs flat.1)
    let kept := ctx.dropComplements odd.length odd flat.2
    if kept.1 = [] then Build.mkConst kept.2 else rewriteXor B w kept.1 kept.2

def negatedSum (w : Nat) (a : SymRef) : Build (Option SymRef) := do
  let ctx ← Build.context
  let hasConstant := ctx.isConst (ctx.operand a 0)
  let offset := if hasConstant then (ctx.constValue (ctx.operand a 0)).not else APInt.allOnes w
  let terms := if hasConstant then (ctx.operands a).drop 1 else ctx.operands a
  match ctx.negationCost terms 0 1 with
  | none => pure none
  | some cost =>
    let removed := if offset.isZero ∧ ctx.numOperands a = 2 ∧ hasConstant then cost.2 + 1
      else cost.2
    if cost.1 < removed then do
      let negated ← Build.each B.mkNeg terms
      let reduced ← offsetSum offset negated
      let ctx ← Build.context
      let old := ctx.readability a
      if old.nodes < SymReadability.ceiling - 1 ∧
          (ctx.readability reduced).less ⟨old.nodes + 1, (old.operations + 1) % 2 ^ 64⟩ then
          pure (some reduced)
      else pure none
    else pure none
where
  offsetSum (offset : APInt) (negated : List SymRef) : Build SymRef :=
    if offset.isZero then B.mkAdd negated
    else do
      let c ← Build.mkConst offset
      B.mkAdd (negated ++ [c])

def mkNot (a : SymRef) : Build SymRef := do
  let ctx ← Build.context
  let w := ctx.width a
  let first := ctx.operand a 0
  let second := ctx.operand a 1
  if ctx.isConst a then Build.mkConst (ctx.constValue a).not
  else if ctx.op a = .not then pure first
  else if (ctx.op a = .or ∨ ctx.op a = .and) ∧ ctx.numOperands a = 2 ∧ ctx.isConst first ∧
    ctx.op second = .not then do
    let mask ← Build.mkConst (ctx.constValue first).not
    if ctx.op a = .or then B.mkAnd [ctx.operand second 0, mask]
      else B.mkOr [ctx.operand second 0, mask]
  else if 1 < w ∧ ctx.isScaled a ∧ ctx.isConstOnes first ∧ ctx.isVar second then do
    let minus ← Build.mkOnes w
    B.mkAdd [second, minus]
  else if 1 < w ∧ ctx.op a = .add then (negatedSum B w a).orElse (Build.intern .not w [a] 0)
  else Build.intern .not w [a] 0

end

lemma oddRuns_spec (f : SymRef → Nat) (rs : List SymRef) :
    (∀ r ∈ oddRuns rs, r ∈ rs) ∧ xorAll ((oddRuns rs).map f) = xorAll (rs.map f) := by
  induction rs with
  | nil => exact ⟨forall_mem_nil _, rfl⟩
  | cons r rs ih =>
    rw [oddRuns]
    split
    next hnil =>
      rw [hnil] at ih
      constructor
      · intro q hq
        rw [mem_singleton.mp hq]
        exact mem_cons_self ..
      · rw [map_cons, map_cons, xorAll_cons, xorAll_cons, ← ih.2]
    next q qs hqs =>
      rw [hqs] at ih
      split
      next heq =>
        constructor
        · intro p hp
          exact mem_cons_of_mem _ (ih.1 p (mem_cons_of_mem _ hp))
        · -- the two equal members cancel
          rw [map_cons, xorAll_cons, ← ih.2, map_cons, xorAll_cons, heq, ← Nat.xor_assoc,
            Nat.xor_self, Nat.zero_xor]
      · constructor
        · intro p hp
          rcases mem_cons.mp hp with rfl | hp
          · exact mem_cons_self ..
          · exact mem_cons_of_mem _ (ih.1 p hp)
        · rw [map_cons, xorAll_cons, ih.2, map_cons, xorAll_cons]

theorem andAll_filter {w : Nat} {rs : List SymRef} {r : SymRef} (hr : r ∈ rs) (f : SymRef → Nat) :
    andAll w (rs.map f) = f r &&& andAll w ((rs.filter fun q => q ≠ r).map f) := by
  have hset : ∀ x, x ∈ rs.map f ↔ x ∈ f r :: (rs.filter fun q => q ≠ r).map f := by
    intro x
    simp only [mem_cons, mem_map, mem_filter, decide_eq_true_eq]
    constructor
    · intro hx
      obtain ⟨q, hq, rfl⟩ := hx
      by_cases heq : q = r
      · exact .inl (by rw [heq])
      · exact .inr ⟨q, ⟨hq, heq⟩, rfl⟩
    · intro hx
      rcases hx with rfl | ⟨q, ⟨hq, -⟩, rfl⟩
      · exact ⟨r, hr, rfl⟩
      · exact ⟨q, hq, rfl⟩
  rw [andAll_congr hset, andAll_cons]

section

variable [BlockHash] {last : SymContext} {vals : List APInt} {s : SymBuilder} {w : Nat}
    {B : Builders}

variable {acc : APInt} {rest : List SymRef}

lemma dropComplements_spec (h : At last vals s) {n : Nat} (hrest : ∀ r ∈ rest, Has s r w)
    (hacc : acc.width = w) :
    (∀ r ∈ (s.ctx.dropComplements n rest acc).1, Has s r w) ∧
      (s.ctx.dropComplements n rest acc).2.width = w ∧
      xorAll ((s.ctx.dropComplements n rest acc).2.toNat ::
        (s.ctx.dropComplements n rest acc).1.map (last.num vals)) =
          xorAll (acc.toNat :: rest.map (last.num vals)) := by
  induction n generalizing rest acc with
  | zero => exact ⟨hrest, hacc, rfl⟩
  | succ n ih =>
    rw [SymContext.dropComplements]
    split
    · exact ⟨hrest, hacc, rfl⟩
    next r hfind =>
      have hr := mem_of_find?_eq_some hfind
      have hcond := find?_some hfind
      rw [Bool.and_eq_true, decide_eq_true_eq, contains_iff_mem] at hcond
      obtain ⟨hin, hnum⟩ := h.not_num (hrest r hr) hcond.1
      have hne : s.ctx.operand r 0 ≠ r := by
        have hmem : s.ctx.operand r 0 ∈ s.ctx.operands r := by
          have hs := h.shape (hrest r hr)
          rw [hcond.1] at hs
          rw [(h.one (hrest r hr) hs).1]
          exact mem_cons_self ..
        exact (h.operand_below (hrest r hr).1 hmem).ne
      have hinner : s.ctx.operand r 0 ∈ rest.erase r := (mem_erase_of_ne hne).mpr hcond.2
      have hperm : rest.Perm (r :: s.ctx.operand r 0 :: (rest.erase r).erase (s.ctx.operand r 0)) :=
        (perm_cons_erase hr).trans ((perm_cons_erase hinner).cons _)
      have hw : (acc.xor (.allOnes acc.width)).width = w := hacc
      have hval : (acc.xor (.allOnes acc.width)).toNat = acc.toNat ^^^ ones w := by
        rw [toNat_xor (by rfl), toNat_allOnes, hacc]
      obtain ⟨h1, h2, h3⟩ := ih (fun q hq =>
        hrest q (mem_of_mem_erase (mem_of_mem_erase hq))) hw
      refine ⟨h1, h2, h3.trans ?_⟩
      rw [xorAll_cons, xorAll_cons, hval, xorAll_perm (hperm.map _), map_cons, map_cons,
        xorAll_cons,
        xorAll_cons, hnum, ← Nat.xor_assoc (notOf w _), notOf_xor (h.lt hin), Nat.xor_assoc]

variable (hB : B.Sound last vals)
include hB

lemma means_withLiteral (hacc : acc.width = w) {d : SymRef} {x : Nat}
    (hd : Den last vals s d w x) : Means last vals s (withLiteral B acc d) w (acc.toNat ^^^ x) := by
  apply means_of_at
  intro h
  refine means_ite (fun hz => ?_) fun _ => ?_
  · rw [toNat_of_isZero hz, Nat.zero_xor]
    exact means_pure fun _ => hd
  · refine means_bind (means_mkConst (hacc ▸ h.pos hd.1) hacc rfl) ?_
    intro c t _ he hc
    refine (hB.mkXor (has_pair (hd.1.mono he) hc.1)).congr ?_
    simp only [map_cons, map_nil, xorAll_cons, xorAll_nil, hd.2, hc.2, Nat.xor_zero]
    exact Nat.xor_comm ..

lemma meansIf_maskedDifference (hacc : acc.width = w) {value masked : SymRef}
    (hv : Has s value w) (hm : Has s masked w) :
      MeansIf last vals s (maskedDifference B acc value masked) w
      (acc.toNat ^^^ (last.num vals value ^^^ last.num vals masked)) := by
  apply meansIf_context
  intro h
  refine meansIf_ite (fun hc => ?_) fun _ => meansIf_none
  obtain ⟨hop, hmem⟩ := hc
  have hall := (h.nary hm (by simp [hop])).2
  apply meansIf_some
  refine means_bind (means_soleOr .and (by rfl) (fun hrs => hB.mkAnd hrs) fun q hq =>
    hall q (mem_filter.mp hq).1) ?_
  intro bits t _ ht hbits
  refine means_bind (hB.mkNot hbits.1) ?_
  intro outside u _ hu hout
  refine means_bind (hB.mkAnd (has_pair ((hv.mono ht).mono hu) hout.1)) ?_
  intro d v _ _ hd
  refine (means_withLiteral hB hacc hd).congr ?_
  simp only [map_cons, map_nil, andAll_cons, andAll_nil]
  rw [h.and_num hm hop, andAll_filter hmem, xor_and_self (h.lt hv) (andAll_lt ..), hout.2,
    and_ones (notOf_lt ..), hbits.2]
  rfl

lemma means_packedWordView {value : SymRef} (hv : Has s value w) :
    Means last vals s (packedWordView B value) w (last.num vals value) := by
  apply means_context
  intro h
  refine means_ite (fun hc => ?_) fun _ => means_pure fun _ => ⟨hv, rfl⟩
  obtain ⟨hop, hlen, hoff, hand, hmask, hzero⟩ := hc
  have hall := (h.nary hv (by simp [hop])).2
  have hops := SymContext.operands_two hlen
  rw [hops] at hall
  have h0 := hall _ (mem_cons_self ..)
  have h1 := hall _ (mem_cons_of_mem _ (mem_singleton_self _))
  refine (hB.mkOr (has_pair h0 h1)).congr ?_
  obtain ⟨-, hm0, -, -, hword⟩ := h.masked h1 (by simp [SymContext.hasConstantMask, hand, hmask])
  have hdisjoint : last.num vals (s.ctx.operand value 0) &&& last.num vals (s.ctx.operand value 1) =
      0 := by
    rw [h.const_num h0 hoff, hword, ← Nat.and_assoc, ← toNat_and, toNat_of_isZero hzero,
      Nat.zero_and]
    exact (h.const_width hm0 hmask).trans (h.const_width h0 hoff).symm
  rw [h.add_num hv hop, hops]
  simp only [map_cons, map_nil, orAll_cons, orAll_nil, Nat.or_zero, addAll, sum_cons, sum_nil,
    add_zero]
  rw [add_eq_or hdisjoint, Nat.mod_eq_of_lt (Nat.or_lt_two_pow (h.lt h0) (h.lt h1))]

omit hB

lemma unionParts_spec (h : At last vals s) {r : SymRef} (hr : Has s r w) (hop : s.ctx.op r = .or) :
    (s.ctx.unionParts w r).1.width = w ∧ (∀ q ∈ (s.ctx.unionParts w r).2, Has s q w) ∧
      last.num vals r = (s.ctx.unionParts w r).1.toNat |||
        orAll ((s.ctx.unionParts w r).2.map (last.num vals)) := by
  obtain ⟨hne, hall⟩ := h.nary hr (by simp [hop])
  have hnum := h.or_num hr hop
  have hops := SymContext.operands_cons hne
  unfold SymContext.unionParts
  split
  next hc =>
    have h0 : Has s (s.ctx.operand r 0) w := hall _ (by rw [hops]; exact mem_cons_self ..)
    refine ⟨h.const_width h0 hc, fun q hq => hall q (mem_of_mem_drop hq), ?_⟩
    rw [hnum, hops, map_cons, orAll_cons, h.const_num h0 hc]
    rfl
  · refine ⟨rfl, hall, ?_⟩
    rw [hnum, toNat_zero, Nat.zero_or]

lemma meansIf_unionsApart (hB : B.Sound last vals) (hacc : acc.width = w) {a b : SymRef}
    (ha : Has s a w) (hb : Has s b w) :
    MeansIf last vals s (unionsApart B w acc a b) w
      (acc.toNat ^^^ (last.num vals a ^^^ last.num vals b)) := by
  refine meansIf_bind (means_packedWordView hB ha) ?_
  intro left t _ ht hleft
  refine meansIf_bind (means_packedWordView hB (hb.mono ht)) ?_
  intro right u _ hu hright
  apply meansIf_context
  intro h
  refine meansIf_ite (fun _ => meansIf_none) fun hor => ?_
  rw [not_or, not_not, not_not] at hor
  have hleft' := hleft.mono hu
  obtain ⟨hl1, hl2, hl3⟩ := unionParts_spec h hleft'.1 hor.1
  obtain ⟨hr1, hr2, hr3⟩ := unionParts_spec h hright.1 hor.2
  generalize u.ctx.unionParts w left = l at hl1 hl2 hl3 ⊢
  generalize u.ctx.unionParts w right = r at hr1 hr2 hr3 ⊢
  have hpos := h.pos hleft'.1
  have hllt := l.1.toNat_lt
  have hrlt := r.1.toNat_lt
  rw [hl1] at hllt
  rw [hr1] at hrlt
  have hx : ∀ qs : List SymRef, (∀ q ∈ qs, Has u q w) → orAll (qs.map (last.num vals)) < 2 ^ w := by
    intro qs hqs
    apply orAll_lt
    intro y hy
    obtain ⟨q, hq, rfl⟩ := mem_map.mp hy
    exact h.lt (hqs q hq)
  rw [← hleft.2, ← hright.2, hl3, hr3]
  refine meansIf_ite (fun heq => ?_) fun _ => meansIf_ite (fun heq => ?_) fun _ => meansIf_none
  · rw [← heq, or_xor_or hllt hrlt (hx l.2 hl2)]
    apply meansIf_some
    refine means_bind (means_soleOr .or (by rfl) (fun hrs => hB.mkOr hrs) hl2) ?_
    intro shared v _ _ hshared
    refine means_bind (hB.mkNot hshared.1) ?_
    intro outside v _ _ hout
    refine means_bind (means_mkConst (c := l.1.xor r.1) (hl1 ▸ hpos) hl1
      (toNat_xor (hr1.trans hl1.symm))) ?_
    intro changed v' _ hv' hchanged
    refine means_bind (hB.mkAnd (has_pair (hout.1.mono hv') hchanged.1)) ?_
    intro d _ _ _ hd
    refine (means_withLiteral hB hacc hd).congr ?_
    simp only [map_cons, map_nil, andAll_cons, andAll_nil]
    rw [hout.2, hchanged.2, hshared.2, and_ones (Nat.xor_lt_two_pow hllt hrlt)]
    rfl
  · rw [← heq.2, Nat.or_comm l.1.toNat, Nat.or_comm l.1.toNat,
      or_xor_or (hx l.2 hl2) (hx r.2 hr2) hllt]
    apply meansIf_some
    refine means_bind (means_soleOr .or (by rfl) (fun hrs => hB.mkOr hrs) hl2) ?_
    intro x v _ hv hxv
    refine means_bind (means_soleOr .or (by rfl) (fun hrs => hB.mkOr hrs) fun q hq =>
      (hr2 q hq).mono hv) ?_
    intro y v' _ hv' hyv
    refine means_bind (means_mkConst (c := l.1.not) (hl1 ▸ hpos) hl1 (toNat_not _)) ?_
    intro outside v'' _ hv'' hout
    refine means_bind (hB.mkXor (has_pair ((hxv.1.mono hv').mono hv'') (hyv.1.mono hv''))) ?_
    intro xor _ _ hx' hxor
    refine means_bind (hB.mkAnd (has_pair (hout.1.mono hx') hxor.1)) ?_
    intro d _ hat _ hd
    refine (means_withLiteral hB hacc hd).congr ?_
    simp only [map_cons, map_nil, andAll_cons, andAll_nil, xorAll_cons, xorAll_nil,
      Nat.xor_zero] at hxor ⊢
    rw [hout.2, hxor.2, hxv.2, hyv.2, hl1]
    exact congrArg (fun y => acc.toNat ^^^ (notOf w l.1.toNat &&& y))
      (and_ones (Nat.xor_lt_two_pow (hx l.2 hl2) (hx r.2 hr2)))

lemma meansIf_ofTwo {f : SymRef → SymRef → Build (Option SymRef)} (hrest : ∀ r ∈ rest, Has s r w)
    (hf : ∀ a b, Has s a w → Has s b w →
      MeansIf last vals s (f a b) w (acc.toNat ^^^ (last.num vals a ^^^ last.num vals b))) :
    MeansIf last vals s (ofTwo f rest) w (xorAll (acc.toNat :: rest.map (last.num vals))) := by
  unfold ofTwo
  split
  next a b =>
    simp only [map_cons, map_nil, xorAll_cons, xorAll_nil, Nat.xor_zero]
    exact hf a b (hrest a (mem_cons_self ..)) (hrest b (mem_cons_of_mem _ (mem_singleton_self _)))
  · exact meansIf_none

variable (hB : B.Sound last vals)
include hB

lemma meansIf_recoverDifference (hrest : ∀ r ∈ rest, Has s r w) (hacc : acc.width = w) {v : Nat} :
    MeansIf last vals s (recoverDifference B v rest acc) w
      (xorAll (acc.toNat :: rest.map (last.num vals))) := by
  apply meansIf_context
  intro _
  exact meansIf_ite (fun _ => meansIf_recoverObservedComparison hB (.inr (.inr rfl)) hrest hacc)
    fun _ => meansIf_none

lemma meansIf_unforcedUnion (hrest : ∀ r ∈ rest, Has s r w) (hacc : acc.width = w) :
    MeansIf last vals s (unforcedUnion B rest acc) w
      (xorAll (acc.toNat :: rest.map (last.num vals))) := by
  apply meansIf_context
  intro h
  split
  next r =>
    have hr := hrest r (mem_cons_self ..)
    refine meansIf_ite (fun hc => ?_) fun _ => meansIf_none
    obtain ⟨-, hop, hconst, heq⟩ := hc
    obtain ⟨-, hparts, hnum⟩ := unionParts_spec h hr hop
    have hsplit : s.ctx.unionParts w r = (acc, (s.ctx.operands r).drop 1) := by
      rw [SymContext.unionParts, if_pos hconst, heq]
    rw [hsplit] at hparts hnum
    have hlt : orAll (((s.ctx.operands r).drop 1).map (last.num vals)) < 2 ^ w := by
      apply orAll_lt
      intro y hy
      obtain ⟨q, hq, rfl⟩ := mem_map.mp hy
      exact h.lt (hparts q hq)
    have halt := acc.toNat_lt
    rw [hacc] at halt
    have hvalue : xorAll [acc.toNat, last.num vals r] =
        orAll (((s.ctx.operands r).drop 1).map (last.num vals)) &&& notOf w acc.toNat := by
      have hx := or_xor_or (w := w) (k := 0) (Nat.two_pow_pos w) hlt halt
      rw [Nat.zero_or, Nat.zero_xor] at hx
      rw [xorAll_cons, xorAll_cons, xorAll_nil, Nat.xor_zero, hnum, Nat.or_comm, hx, Nat.and_comm]
    rw [map_singleton, hvalue]
    apply meansIf_some
    refine means_bind (means_soleOr .or (by rfl) (fun hrs => hB.mkOr hrs) hparts) ?_
    intro value t _ _ hval
    refine means_bind (means_mkConst (c := acc.not) (hacc ▸ h.pos hr) hacc (toNat_not _)) ?_
    intro c u _ hu hc
    refine (hB.mkAnd (has_pair (hval.1.mono hu) hc.1)).congr ?_
    simp only [map_cons, map_nil, andAll_cons, andAll_nil]
    rw [hval.2, hc.2, hacc, and_ones (notOf_lt ..)]
    rfl
  · exact meansIf_none

lemma means_finishXor (hne : rest ≠ []) (hrest : ∀ r ∈ rest, Has s r w) (hacc : acc.width = w) :
    Means last vals s (finishXor B rest acc) w
      (xorAll (acc.toNat :: rest.map (last.num vals))) := by
  apply means_of_at
  intro h
  have hlt : xorAll (rest.map (last.num vals)) < 2 ^ w := by
    apply xorAll_lt
    intro y hy
    obtain ⟨q, hq, rfl⟩ := mem_map.mp hy
    exact h.lt (hrest q hq)
  refine means_ite (fun hones => ?_) fun _ => ?_
  · unfold finishBitwise
    rw [if_pos rfl, hacc]
    refine means_bind (means_soleNode .xor (by rfl) hne hrest) ?_
    intro inner t _ _ hin
    refine (hB.mkNot hin.1).congr ?_
    rw [xorAll_cons, toNat_of_isAllOnes hones, hacc, ones_xor hlt, hin.2]
    rfl
  · refine means_finishBitwise .xor (by rfl) hne hrest hacc ?_
    intro hz
    show xorAll _ = xorAll _
    rw [xorAll_cons, toNat_of_isZero hz, Nat.zero_xor]

lemma means_rewriteXor (hne : rest ≠ []) (hrest : ∀ r ∈ rest, Has s r w) (hacc : acc.width = w) :
    Means last vals s (rewriteXor B w rest acc) w
      (xorAll (acc.toNat :: rest.map (last.num vals))) := by
  refine means_orElse (meansIf_contractZeroExtensions hB (.inr (.inr rfl)) hrest hacc) ?_
  intro s₁ _ he₁
  have h₁ := fun r hr => (hrest r hr).mono he₁
  refine means_orElse (meansIf_ofTwo h₁ fun a b ha hb => meansIf_maskedDifference hB hacc ha hb) ?_
  intro s₂ _ he₂
  have h₂ := fun r hr => (h₁ r hr).mono he₂
  refine means_orElse (meansIf_ofTwo h₂ fun a b ha hb => ?_) ?_
  · rw [Nat.xor_comm (last.num vals a)]
    exact meansIf_maskedDifference hB hacc hb ha
  intro s₃ _ he₃
  have h₃ := fun r hr => (h₂ r hr).mono he₃
  refine means_orElse (meansIf_ofTwo h₃ fun a b ha hb => meansIf_unionsApart hB hacc ha hb) ?_
  intro s₄ _ he₄
  have h₄ := fun r hr => (h₃ r hr).mono he₄
  refine means_orElse (meansIf_recoverDifference hB h₄ hacc) ?_
  intro s₅ _ he₅
  have h₅ := fun r hr => (h₄ r hr).mono he₅
  refine means_orElse (meansIf_unforcedUnion hB h₅ hacc) ?_
  intro s₆ _ he₆
  exact means_finishXor hB hne (fun r hr => (h₅ r hr).mono he₆) hacc

lemma means_mkXor {n : Nat} {ops : List SymRef} (hops : ∀ q ∈ ops, Has s q w) :
    Means last vals s (mkXor n B ops) w (xorAll (ops.map (last.num vals))) := by
  refine means_ite (fun _ => means_stop) fun hne => ?_
  apply means_context
  intro h
  obtain ⟨q, qs, rfl⟩ := exists_cons_of_ne_nil hne
  have hq := hops q (mem_cons_self ..)
  have hw : s.ctx.width ((q :: qs).getD 0 0) = w := hq.2
  rw [hw]
  apply means_ofOption
  intro flat hflat
  obtain ⟨hfrest, hfw, hfvalue⟩ := flatten_spec h (by rfl) (fun r hr => hops r (mem_reverse.mp hr))
    (forall_mem_nil _) rfl hflat
  obtain ⟨hodd, hoddv⟩ := oddRuns_spec (last.num vals) (sortRefs flat.1)
  have hperm : (sortRefs flat.1).Perm flat.1 := perm_insertionSort ..
  have hodd' : ∀ r ∈ oddRuns (sortRefs flat.1), Has s r w :=
    fun r hr => hfrest r (hperm.mem_iff.mp (hodd r hr))
  obtain ⟨hk1, hk2, hk3⟩ :=
    dropComplements_spec h (n := (oddRuns (sortRefs flat.1)).length) hodd' hfw
  dsimp only
  generalize s.ctx.dropComplements (oddRuns (sortRefs flat.1)).length (oddRuns (sortRefs flat.1))
    flat.2 = kept at *
  have hvalue : xorAll (kept.2.toNat :: kept.1.map (last.num vals)) =
      xorAll ((q :: qs).map (last.num vals)) := by
    rw [hk3, xorAll_cons, hoddv, xorAll_perm (hperm.map _), ← xorAll_cons]
    refine .trans hfvalue ?_
    show xorAll _ = _
    rw [xorAll_cons, toNat_zero, Nat.zero_xor, append_nil, map_reverse]
    exact xorAll_perm (reverse_perm _)
  rw [← hvalue]
  refine means_ite (fun hnil => ?_) fun hnil => means_rewriteXor hB hnil hk1 hk2
  refine means_mkConst (hk2 ▸ h.pos hq) hk2 ?_
  rw [hnil]
  simp

end

variable [BlockHash] {last : SymContext} {vals : List APInt} {s : SymBuilder} {w : Nat}
    {B : Builders} {a : SymRef}

lemma offset_spec (h : At last vals s) (ha : Has s a w) (hop : s.ctx.op a = .add) :
    ∃ offset : APInt, ∃ terms : List SymRef,
      (if s.ctx.isConst (s.ctx.operand a 0) then (s.ctx.constValue (s.ctx.operand a 0)).not
        else APInt.allOnes w) = offset ∧
      (if s.ctx.isConst (s.ctx.operand a 0) then (s.ctx.operands a).drop 1 else s.ctx.operands a) =
      terms ∧ offset.width = w ∧ (∀ r ∈ terms, Has s r w) ∧
      offset.toNat + last.num vals a ≡ ones w + (terms.map (last.num vals)).sum [MOD 2 ^ w] := by
  obtain ⟨hne, hall⟩ := h.nary ha (by simp [hop])
  have hops := SymContext.operands_cons hne
  have hnum := h.add_num ha hop
  refine ⟨_, _, rfl, rfl, ?_⟩
  split
  next hc =>
    have h0 : Has s (s.ctx.operand a 0) w := hall _ (by rw [hops]; exact mem_cons_self ..)
    have hcw := h.const_width h0 hc
    refine ⟨hcw, fun r hr => hall r (mem_of_mem_drop hr), ?_⟩
    rw [hnum, hops, map_cons, h.const_num h0 hc, toNat_not, hcw]
    have hlt := (s.ctx.constValue (s.ctx.operand a 0)).toNat_lt
    rw [hcw] at hlt
    have hsum : notOf w (s.ctx.constValue (s.ctx.operand a 0)).toNat +
        (s.ctx.constValue (s.ctx.operand a 0)).toNat = ones w := by
      unfold notOf ones
      omega
    refine ((Nat.mod_modEq _ _).add_left _).trans ?_
    rw [sum_cons, ← add_assoc, hsum]
    rfl
  · refine ⟨rfl, hall, ?_⟩
    rw [hnum, toNat_allOnes]
    exact (Nat.mod_modEq _ _).add_left _

variable (hB : B.Sound last vals)
include hB

lemma means_offsetSum {offset : APInt} (ho : offset.width = w) (hpos : 0 < w)
    {rs : List SymRef} (hrs : ∀ r ∈ rs, Has s r w) :
      Means last vals s (negatedSum.offsetSum B offset rs) w
      ((offset.toNat + (rs.map (last.num vals)).sum) % 2 ^ w) := by
  refine means_ite (fun hz => ?_) fun _ => ?_
  · rw [toNat_of_isZero hz, zero_add]
    exact hB.mkAdd hrs
  · refine means_bind (means_mkConst (ho ▸ hpos) ho rfl) ?_
    intro c t _ he hc
    refine (hB.mkAdd (w := w) ?_).congr ?_
    · intro r hr
      rcases mem_append.mp hr with hr | hr
      · exact (hrs r hr).mono he
      · rw [mem_singleton.mp hr]
        exact hc.1
    · rw [addAll, map_append, sum_append, map_singleton, sum_singleton, hc.2, add_comm]

lemma meansIf_negatedSum (ha : Has s a w) (hop : s.ctx.op a = .add) :
    MeansIf last vals s (negatedSum B w a) w (notOf w (last.num vals a)) := by
  apply meansIf_context
  intro h
  obtain ⟨offset, terms, ho, ht, how, hterms, hsum⟩ := offset_spec h ha hop
  dsimp only
  rw [ho, ht]
  split
  · exact meansIf_none
  · refine meansIf_ite (fun _ => ?_) fun _ => meansIf_none
    refine triple_bind (triple_each_map (w := w) terms (g := fun r => negOf w (last.num vals r))
      fun t _ he r hr => hB.mkNeg ((hterms r hr).mono he)) ?_
    intro negated t _ _ hneg
    refine meansIf_bind (means_offsetSum hB how (h.pos ha) hneg.1) ?_
    intro reduced u _ _ hred
    apply meansIf_context
    intro _
    refine meansIf_ite (fun _ => ?_) fun _ => meansIf_none
    refine triple_pure fun _ r hr => ?_
    cases hr
    refine ⟨hred.1, hred.2.trans ?_⟩
    symm
    apply notOf_unique (h.lt ha) (Nat.mod_lt _ (Nat.two_pow_pos w))
    have hzero : (negated.map (last.num vals)).sum + (terms.map (last.num vals)).sum ≡
        0 [MOD 2 ^ w] := by
      rw [hneg.2]
      have := sum_negOf (w := w) (terms.map (last.num vals)) (by
        intro x hx
        obtain ⟨r, hr, rfl⟩ := mem_map.mp hx
        exact h.lt (hterms r hr))
      rw [map_map] at this
      exact this
    calc (offset.toNat + (negated.map (last.num vals)).sum) % 2 ^ w + last.num vals a
        ≡ (offset.toNat + last.num vals a) + (negated.map (last.num vals)).sum [MOD 2 ^ w] := by
          refine ((Nat.mod_modEq _ _).add_right _).trans ?_
          rw [add_right_comm]
      _ ≡ ones w + (terms.map (last.num vals)).sum + (negated.map (last.num vals)).sum
        [MOD 2 ^ w] :=
          hsum.add_right _
      _ ≡ ones w + 0 [MOD 2 ^ w] := by
          rw [add_assoc, add_comm (terms.map (last.num vals)).sum]
          exact hzero.add_left _

lemma means_mkNot (ha : Has s a w) :
    Means last vals s (mkNot B a) w (notOf w (last.num vals a)) := by
  apply means_context
  intro h
  rw [ha.2]
  have hpos := h.pos ha
  have hnode : ∀ t, s.ctx.Extends t.ctx →
      Means last vals t (.intern .not w [a] 0) w (notOf w (last.num vals a)) := fun t he =>
    means_unary hpos ⟨by decide, by decide⟩ (ha.mono he) rfl
  refine means_ite (fun hc => ?_) fun _ => means_ite (fun hc => ?_) fun _ =>
    means_ite (fun hc => ?_) fun _ =>
    means_ite (fun hc => ?_) fun _ => means_ite (fun hc => ?_) fun _ => hnode s (.refl _)
  · have hcw := h.const_width ha hc
    refine means_mkConst (c := (s.ctx.constValue a).not) (hcw ▸ hpos) hcw ?_
    rw [toNat_not, hcw, h.const_num ha hc]
  · obtain ⟨hin, hnum⟩ := h.not_num ha hc
    rw [hnum, notOf_notOf (h.lt hin)]
    exact means_pure fun _ => ⟨hin, rfl⟩
  · obtain ⟨hop, hlen, hc0, hnot⟩ := hc
    have hall := (h.nary ha (by rcases hop with ho | ho <;> simp [ho])).2
    have hops := SymContext.operands_two hlen
    rw [hops] at hall
    have h0 := hall _ (mem_cons_self ..)
    have h1 := hall _ (mem_cons_of_mem _ (mem_singleton_self _))
    obtain ⟨hin, hnum⟩ := h.not_num h1 hnot
    have hcw := h.const_width h0 hc0
    have hclt := h.lt h0
    refine means_bind (means_mkConst (c := (s.ctx.constValue (s.ctx.operand a 0)).not) (hcw ▸ hpos)
      hcw (toNat_not _)) ?_
    intro mask t _ het hm
    rw [hcw, ← h.const_num h0 hc0] at hm
    refine means_ite (fun ho => ?_) fun ho => ?_
    · refine (hB.mkAnd (has_pair (hin.mono het) hm.1)).congr ?_
      rw [h.or_num ha ho, hops]
      simp only [map_cons, map_nil, andAll_cons, andAll_nil, orAll_cons, orAll_nil, Nat.or_zero]
      rw [hm.2, hnum, and_ones (notOf_lt ..), notOf_or (h.lt hin) hclt]
    · refine (hB.mkOr (has_pair (hin.mono het) hm.1)).congr ?_
      rw [h.and_num ha (hop.resolve_left ho), hops]
      simp only [map_cons, map_nil, andAll_cons, andAll_nil, orAll_cons, orAll_nil, Nat.or_zero]
      rw [hm.2, hnum, and_ones (notOf_lt ..), notOf_and (h.lt hin) hclt]
  · obtain ⟨-, hscaled, hones, -⟩ := hc
    obtain ⟨h0, hc0, h1, -, hnum⟩ := h.scaled ha hscaled
    rw [SymContext.isConstOnes, Bool.and_eq_true] at hones
    refine means_bind (means_mkOnes hpos) ?_
    intro minus t _ het hm
    refine (hB.mkAdd (has_pair (h1.mono het) hm.1)).congr ?_
    symm
    apply notOf_unique (h.lt ha) (addAll_lt ..)
    rw [hnum, toNat_of_isAllOnes hones.2, h.const_width h0 hc0, ← negOf_eq_mul (h.lt h1)]
    simp only [map_cons, map_nil, addAll, sum_cons, sum_nil, add_zero]
    rw [hm.2]
    have hz := sum_negOf (w := w) [last.num vals (s.ctx.operand a 1)] (by
      intro x hx
      rw [mem_singleton.mp hx]
      exact h.lt h1)
    simp only [map_cons, map_nil, sum_cons, sum_nil, add_zero] at hz
    refine ((Nat.mod_modEq _ _).add_right _).trans ?_
    rw [add_right_comm, add_comm (last.num vals _)]
    exact (hz.add_right (ones w)).trans (by rw [zero_add])
  · exact means_orElse (meansIf_negatedSum hB ha hc.2) fun t _ he => hnode t he

omit hB

end NeverD.Sym
