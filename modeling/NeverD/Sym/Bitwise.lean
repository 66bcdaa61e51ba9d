import NeverD.Sym.Arith

namespace NeverD.Sym
open Lib
open Words List
open Nat (eq_of_testBit_eq zero_testBit testBit_and zero_or)
open Bool (and_eq_true or_eq_true eq_false_iff)

variable {r : SymRef} {work : Nat} {op : SymOp} {xs : List Nat} {term : SymRef}

def uniqueRefs : List SymRef → List SymRef
  | [] => []
  | [r] => [r]
  | r :: q :: rs => if r = q then uniqueRefs (q :: rs) else r :: uniqueRefs (q :: rs)

def allWork {α : Type} (f : α → Nat → Bool × Nat) : List α → Nat → Bool × Nat
  | [], work => (true, work)
  | x :: xs, work =>
    let checked := f x work
    if checked.1 then allWork f xs checked.2 else (false, checked.2)

/-- Some member passes a check that consumes work. -/
def anyWork {α : Type} (f : α → Nat → Bool × Nat) : List α → Nat → Bool × Nat
  | [], work => (false, work)
  | x :: xs, work =>
    let checked := f x work
    if checked.1 then (true, checked.2) else anyWork f xs checked.2

def kSymExprLogicSubsetWork : Nat := 256

namespace SymContext

variable (ctx : SymContext)

def hasComplement (rest : List SymRef) : Bool :=
  rest.any fun r => ctx.op r = .not && rest.contains (ctx.operand r 0)

def andAbsorbed (rest : List SymRef) (acc : APInt) (r : SymRef) : Bool :=
  ctx.op r = .or && ((ctx.operands r).any rest.contains ||
    (ctx.isConst (ctx.operand r 0) && (ctx.constValue (ctx.operand r 0)).and acc = acc))

def insideMask (outside : APInt) (term : SymRef) : Bool :=
  if ctx.isConst term then ((ctx.constValue term).and outside).isZero
  else ctx.hasConstantMask term && ((ctx.constValue (ctx.operand term 0)).and outside).isZero

/-- A term of a compound cover is in the union. -/
def coveredTerm (rest : List SymRef) (acc : APInt) (term : SymRef) (work : Nat) : Bool × Nat :=
  if work = 0 then (false, 0)
  else if ctx.isConst term then (((ctx.constValue term).and acc.not).isZero, work - 1)
  else (rest.contains term, work - 1)

def coveredFactor (rest : List SymRef) (acc : APInt) (factor : SymRef) (work : Nat) : Bool × Nat :=
  if rest.contains factor then (true, work)
  else if ctx.op factor ≠ .or then (false, work)
  else allWork (ctx.coveredTerm rest acc) (ctx.operands factor) work

/-- The literal that bounds the bits of a term, complemented when the flag is set. -/
def boundingMask (value : SymRef) : Option (SymRef × Bool) :=
  let inner := ctx.operand value 0
  if ctx.isConst value then some (value, false)
  else if ctx.hasConstantMask value then some (inner, false)
  else if ctx.op value = .not && ctx.op inner = .or && ctx.isConst (ctx.operand inner 0) then
    some (ctx.operand inner 0, true)
  else none

def coveredByConstant (w : Nat) (acc : APInt) (value : SymRef) (work : Nat) : Bool × Nat :=
  if work = 0 then (false, 0)
  else match ctx.boundingMask value with
    | none => (false, work - 1)
    | some mask =>
      let words := (w - 1) / 64 + 1
      if work - 1 < words then (false, 0)
      else
        let possible := ctx.constValue mask.1
        (((if mask.2 then possible.not else possible).and acc.not).isZero, work - 1 - words)

def coveredArm (cover term : SymRef) (work : Nat) : Bool × Nat :=
  if work = 0 then (false, 0)
  else if term = cover then (true, work - 1)
  else if ctx.op term ≠ .and then (false, work - 1)
  else anyWork (fun factor work => if work = 0 then (false, 0) else (factor = cover, work - 1))
    (ctx.operands term) (work - 1)

def coveredBy (value cover : SymRef) (work : Nat) : Bool × Nat :=
  if work = 0 then (false, 0)
  else if cover = value then (false, work - 1)
  else allWork (ctx.coveredArm cover) (ctx.operands value) (work - 1)

def coveredXor (w : Nat) (rest : List SymRef) (acc : APInt) (value : SymRef) (work : Nat) :
    Bool × Nat :=
  if ctx.op value ≠ .xor then (false, work)
  else
    let literal :=
      if !acc.isZero then allWork (ctx.coveredByConstant w acc) (ctx.operands value) work
      else (false, work)
    if literal.1 then literal else anyWork (ctx.coveredBy value) rest literal.2

def orAbsorbed (w : Nat) (rest : List SymRef) (acc : APInt) (r : SymRef) (work : Nat) :
    Bool × Nat :=
  let factor := if ctx.op r = .and then anyWork (ctx.coveredFactor rest acc) (ctx.operands r) work
    else (false, work)
  let xor := ctx.coveredXor w rest acc r factor.2
  (factor.1 || xor.1 || (ctx.hasConstantMask r &&
    ((ctx.constValue (ctx.operand r 0)).and acc.not).isZero), xor.2)

def orUnabsorbed (w : Nat) (rest : List SymRef) (acc : APInt) : List SymRef → Nat → List SymRef
  | [], _ => []
  | r :: rs, work =>
    let absorbed := ctx.orAbsorbed w rest acc r work
    if absorbed.1 then orUnabsorbed w rest acc rs absorbed.2
    else r :: orUnabsorbed w rest acc rs absorbed.2

variable [KnownTransfer]

def disjointTerm (acc : APInt) (term : SymRef) (known : List (SymRef × KnownBits) × Nat) :
    Bool × List (SymRef × KnownBits) × Nat :=
  if ctx.isConst term then (((ctx.constValue term).and acc).isZero, known)
  else if ctx.op term = .and && (ctx.operands term).any (fun factor =>
      ctx.isConst factor && ((ctx.constValue factor).and acc).isZero) then (true, known)
  else
    let result := SymKnownBits.query ctx known.1 term known.2
    (result.1.any fun bits => bits.zero &&& acc.toNat = acc.toNat, result.2)

def overlappingTerms (acc : APInt) : List SymRef → List (SymRef × KnownBits) × Nat → List SymRef
  | [], _ => []
  | term :: terms, known =>
    let disjoint := ctx.disjointTerm acc term known
    if disjoint.1 then overlappingTerms acc terms disjoint.2
    else term :: overlappingTerms acc terms disjoint.2

end SymContext

section

variable [BlockHash] (n : Nat) (B : Builders)

def bitwiseOf (op : SymOp) (rs : List SymRef) : Build SymRef :=
  match op with
  | .and => B.mkAnd rs
  | .or => B.mkOr rs
  | _ => B.mkXor rs

def SymContext.extendedFrom (ctx : SymContext) (v : Nat) (r : SymRef) : Bool :=
  ctx.op r = .zext && ctx.width (ctx.operand r 0) = v

/-- Take the zero-filled high bits out of a bitwise operation. -/
def contractZeroExtensions (op : SymOp) (rest : List SymRef) (constant : APInt) :
    Build (Option SymRef) := do
  let ctx ← Build.context
  let v := ctx.width (ctx.operand (rest.getD 0 0) 0)
  if rest = [] ∨ (op ≠ .and ∧ v < constant.getActiveBits) ∨ !rest.all (ctx.extendedFrom v) then
    pure none
  else some <$> do
    let c ← Build.mkConst (constant.zextOrTrunc v)
    let value ← bitwiseOf B op (rest.map (fun r => ctx.operand r 0) ++ [c])
    B.mkZExt value constant.width

def demandLowBits (rest : List SymRef) (acc : APInt) : Build (List SymRef × APInt) :=
  match rest with
  | [r] =>
    if acc.isMask ∧ !acc.isAllOnes then do
      let reduced ← simplifyLowMaskedAdd B r acc
      let ctx ← Build.context
      let parts := if ctx.op reduced = .and then ctx.operands reduced else [reduced]
      if reduced = r then pure (rest, acc)
      else pure (parts.filter fun c => !ctx.isConst c,
        (parts.filter ctx.isConst).foldl (fun m c => m.and (ctx.constValue c)) acc)
    else pure (rest, acc)
  | _ => pure (rest, acc)

variable [KnownTransfer]

/-- What is seen of a scaled or shifted word, when it is known. -/
def knownSlice (w : Nat) (rest : List SymRef) (acc : APInt) : Build (Option SymRef) := do
  let ctx ← Build.context
  match rest with
  | [r] =>
    if w ≤ kSymKnownBitsMaxWidth && !acc.isAllOnes && (ctx.op r = .mul || ctx.op r = .shl) then
      match (SymKnownBits.query ctx [] r kSymExprLogicSubsetWork).1 with
      | some bits =>
        if (bits.zero ||| bits.one) &&& acc.toNat = acc.toNat then
          some <$> Build.mkConst (APInt.ofNat w (bits.one &&& acc.toNat))
        else pure none
      | none => pure none
    else pure none
  | _ => pure none

def unmaskedWord (w : Nat) (rest : List SymRef) (acc : APInt) : Build (Option SymRef) := do
  let ctx ← Build.context
  match rest with
  | [r] =>
    if w ≤ 128 && !acc.isAllOnes && (ctx.op r = .or || ctx.op r = .xor) && ctx.numOperands r ≤ 8 &&
        (ctx.operands r).all (ctx.insideMask acc.not) then pure (some r)
    else pure none
  | _ => pure none

def maskedUnion (w : Nat) (rest : List SymRef) (acc : APInt) : Build (Option SymRef) := do
  let ctx ← Build.context
  match rest with
  | [r] =>
    let kept := ctx.overlappingTerms acc (ctx.operands r) ([], kSymExprLogicSubsetWork)
    if !acc.isAllOnes && ctx.op r = .or && ctx.numOperands r ≤ 8 && kept.length ≠
      ctx.numOperands r then
      some <$> do
        let mask ← Build.mkConst acc
        let masked ← Build.each (fun term => B.mkAnd [mask, term]) kept
        if masked = [] then Build.mkZero w else B.mkOr masked
    else pure none
  | _ => pure none

def finishBitwise (op : SymOp) (neutral : Bool) (rest : List SymRef) (acc : APInt) : Build SymRef :=
  if neutral then soleOr (fun rs => Build.intern op acc.width rs 0) rest
  else do
    let c ← Build.mkConst acc
    Build.intern op acc.width (c :: rest) 0

def recoverTruth (op : SymOp) (w : Nat) (rest : List SymRef) (acc : APInt) :
    Build (Option SymRef) :=
  if w = 1 then recoverObservedComparison B op rest acc else pure none

def rewriteAnd (w : Nat) (rest : List SymRef) (acc : APInt) : Build SymRef :=
  (contractZeroExtensions B .and rest acc).orElse <|
  (knownSlice w rest acc).orElse <|
  (unmaskedWord w rest acc).orElse <|
  (recoverTruth B .and w rest acc).orElse <|
  (maskedUnion B w rest acc).orElse <|
  finishBitwise .and acc.isAllOnes rest acc

def mkAnd (ops : List SymRef) : Build SymRef :=
  if ops = [] then Build.stop
  else do
    let ctx ← Build.context
    let w := ctx.width (ops.getD 0 0)
    let flat ← Build.ofOption (ctx.flatten .and n ops.reverse [] (APInt.allOnes w))
    let seen ← demandLowBits B flat.1 flat.2
    let ctx ← Build.context
    let unique := uniqueRefs (sortRefs seen.1)
    let rest := unique.filter fun r => !ctx.andAbsorbed unique seen.2 r
    if seen.2.isZero then Build.mkZero w
    else if ctx.hasComplement rest then Build.mkZero w
    else if rest = [] then Build.mkConst seen.2
    else rewriteAnd B w rest seen.2

omit [KnownTransfer]

def mergeUnion (rest : List SymRef) (acc : APInt) : Build (List SymRef × APInt) := do
  let merged ← mergeMaskedOperands rest false
  let ctx ← Build.context
  if merged.2 then Build.ofOption (ctx.flatten .or n merged.1.reverse [] acc) else pure (rest, acc)

def rewriteOr (w : Nat) (rest : List SymRef) (acc : APInt) : Build SymRef :=
  (contractZeroExtensions B .or rest acc).orElse <|
  (recoverTruth B .or w rest acc).orElse <|
  finishBitwise .or acc.isZero rest acc

def mkOr (ops : List SymRef) : Build SymRef :=
  if ops = [] then Build.stop
  else do
    let ctx ← Build.context
    let w := ctx.width (ops.getD 0 0)
    let flat ← Build.ofOption (ctx.flatten .or n ops.reverse [] (APInt.zero w))
    let merged ← mergeUnion n flat.1 flat.2
    let ctx ← Build.context
    let unique := uniqueRefs (sortRefs merged.1)
    let rest := ctx.orUnabsorbed w unique merged.2 unique kSymExprLogicSubsetWork
    if merged.2.isAllOnes then Build.mkConst merged.2
    else if ctx.hasComplement rest then Build.mkOnes w
    else if rest = [] then Build.mkConst merged.2
    else rewriteOr B w rest merged.2

end

lemma mem_uniqueRefs (rs : List SymRef) : r ∈ uniqueRefs rs ↔ r ∈ rs := by
  fun_induction uniqueRefs rs with
  | case1 => exact .rfl
  | case2 q => exact .rfl
  | case3 q rs ih =>
    rw [ih]
    simp
  | case4 q p rs hne ih => rw [mem_cons, ih, mem_cons (a := r) (b := q)]

lemma allWork_true {α : Type} {f : α → Nat → Bool × Nat} {xs : List α}
    (h : (allWork f xs work).1 = true) : ∀ x ∈ xs, ∃ left, (f x left).1 = true := by
  induction xs generalizing work with
  | nil => exact forall_mem_nil _
  | cons x xs ih =>
    rw [allWork] at h
    split at h
    next hx =>
      intro y hy
      rcases mem_cons.mp hy with rfl | hy
      · exact ⟨work, hx⟩
      · exact ih h y hy
    · cases h

lemma anyWork_true {α : Type} {f : α → Nat → Bool × Nat} {xs : List α}
    (h : (anyWork f xs work).1 = true) : ∃ x ∈ xs, ∃ left, (f x left).1 = true := by
  induction xs generalizing work with
  | nil => cases h
  | cons x xs ih =>
    rw [anyWork] at h
    split at h
    next hx => exact ⟨x, mem_cons_self .., work, hx⟩
    · obtain ⟨y, hy, left, hl⟩ := ih h
      exact ⟨y, mem_cons_of_mem _ hy, left, hl⟩

section

variable [BlockHash] {last : SymContext} {vals : List APInt} {s : SymBuilder} {w : Nat}
    {B : Builders}

lemma At.operand_below (h : At last vals s) {c : SymRef} (hr : r < s.ctx.nodes.length)
    (hc : c ∈ s.ctx.operands r) : c < r := h.typed.below r hr c hc

omit [BlockHash] in
lemma toNat_and_not {a b : APInt} (ha : a.width = w) (hb : b.width = w) :
    (a.and b.not).toNat = a.toNat &&& notOf w b.toNat := by
  rw [toNat_and (show b.not.width = a.width from hb.trans ha.symm), toNat_not, hb]

omit [BlockHash] in
lemma subset_of_isZero {a b : APInt} (ha : a.width = w) (hb : b.width = w)
    (h : (a.and b.not).isZero = true) (i : Nat)
    (hi : a.toNat.testBit i = true) : b.toNat.testBit i = true := by
  have hz := congrArg (fun n => n.testBit i) ((toNat_and_not ha hb).symm.trans (toNat_of_isZero h))
  have hblt := b.toNat_lt
  have halt := a.toNat_lt
  rw [hb] at hblt
  rw [ha] at halt
  simpa [testBit_notOf hblt, hi, lt_of_testBit_true halt hi] using hz

omit [BlockHash] in
lemma subset_of_and_eq {a b : APInt} (hw : b.width = a.width) (h : a.and b = b) (i : Nat)
    (hi : b.toNat.testBit i = true) : a.toNat.testBit i = true := by
  have hz := congrArg (fun n => n.testBit i) ((toNat_and hw).symm.trans (congrArg APInt.toNat h))
  simpa [hi] using hz

lemma means_bitwiseOf (hB : B.Sound last vals) (hop : op = .and ∨ op = .or ∨ op = .xor)
    {rs : List SymRef} (hrs : ∀ r ∈ rs, Has s r w) :
    Means last vals s (bitwiseOf B op rs) w (combine op w (rs.map (last.num vals))) := by
  rcases hop with rfl | rfl | rfl
  · exact hB.mkAnd hrs
  · exact hB.mkOr hrs
  · exact hB.mkXor hrs

omit [BlockHash] in
theorem combine_narrow (hop : op = .and ∨ op = .or ∨ op = .xor) {v c : Nat} (hv : v ≤ w)
    (hne : xs ≠ []) (hxs : ∀ x ∈ xs, x < 2 ^ v) (hc : op ≠ .and → c < 2 ^ v) :
    combine op v (xs ++ [c % 2 ^ v]) = combine op w (c :: xs) := by
  rcases hop with rfl | rfl | rfl
  · obtain ⟨x, xs, rfl⟩ := exists_cons_of_ne_nil hne
    have hx := hxs x (mem_cons_self ..)
    show andAll v _ = andAll w _
    apply eq_of_testBit_eq
    intro i
    rw [testBit_andAll, testBit_andAll]
    simp only [cons_append, all_cons, all_append, all_nil, Nat.testBit_mod_two_pow, Bool.and_true]
    by_cases hi : i < v
    · simp only [hi, hi.trans_le hv, decide_true, Bool.true_and]
      rw [Bool.and_comm, Bool.and_comm (x.testBit i), Bool.and_assoc, Bool.and_comm (c.testBit i)]
      rw [Bool.and_comm (x.testBit i)]
      cases c.testBit i with
      | true => simp [Bool.and_comm]
      | false => simp
    · simp [hi, testBit_of_lt hx (not_lt.mp hi)]
  · rw [Nat.mod_eq_of_lt (hc (by decide))]
    exact orAll_perm perm_append_comm
  · rw [Nat.mod_eq_of_lt (hc (by decide))]
    exact xorAll_perm perm_append_comm

variable {rest : List SymRef}

lemma meansIf_contractZeroExtensions (hB : B.Sound last vals)
    (hop : op = .and ∨ op = .or ∨ op = .xor) (hrest : ∀ r ∈ rest, Has s r w) {acc : APInt}
    (hacc : acc.width = w) : MeansIf last vals s (contractZeroExtensions B op rest acc) w
      (combine op w (acc.toNat :: rest.map (last.num vals))) := by
  apply meansIf_context
  intro h
  refine meansIf_ite (fun _ => meansIf_none) fun hc => ?_
  simp only [not_or, Bool.not_eq_true, Bool.not_eq_false', not_and, not_lt] at hc
  obtain ⟨hne, hactive, hall⟩ := hc
  rw [all_eq_true] at hall
  generalize s.ctx.width (s.ctx.operand (rest.getD 0 0) 0) = v at *
  have hnarrow : ∀ r ∈ rest, Has s (s.ctx.operand r 0) v ∧ v < w ∧
      last.num vals r = last.num vals (s.ctx.operand r 0) := by
    intro r hr
    have hx := hall r hr
    rw [SymContext.extendedFrom, and_eq_true, decide_eq_true_eq, decide_eq_true_eq] at hx
    obtain ⟨-, hin, hlt, hnum⟩ := h.zext_num (hrest r hr) hx.1
    rw [hx.2] at hin hlt
    exact ⟨hin, hlt, hnum⟩
  obtain ⟨q, qs, hqs⟩ := exists_cons_of_ne_nil hne
  obtain ⟨hq, hvw, -⟩ := hnarrow q (by rw [hqs]; exact mem_cons_self ..)
  apply meansIf_some
  refine means_bind (means_mkConst (show 0 < (acc.zextOrTrunc v).width from h.pos hq) rfl
    (toNat_zextOrTrunc ..)) ?_
  intro c t _ het hct
  refine means_bind (means_bitwiseOf (w := v) hB hop ?_) ?_
  · intro r hr
    rcases mem_append.mp hr with hr | hr
    · obtain ⟨x, hx, rfl⟩ := mem_map.mp hr
      exact ((hnarrow x hx).1).mono het
    · rw [mem_singleton.mp hr]
      exact hct.1
  · intro value u _ _ hvalue
    rw [hacc]
    refine (hB.mkZExt hvalue.1 hvw.le).congr ?_
    rw [hvalue.2, map_append, map_map, map_singleton, hct.2]
    have hnums : rest.map (last.num vals ∘ fun r => s.ctx.operand r 0) = rest.map (last.num vals) :=
      map_congr_left fun r hr => (hnarrow r hr).2.2.symm
    rw [hnums]
    refine combine_narrow hop hvw.le (fun hnil => hne (map_eq_nil_iff.mp hnil)) ?_ ?_
    · intro x hx
      obtain ⟨r, hr, rfl⟩ := mem_map.mp hx
      rw [(hnarrow r hr).2.2]
      exact h.lt (hnarrow r hr).1
    · intro hand
      exact APInt.toNat_lt_of_activeBits (hactive hand)

lemma means_finishBitwise (op : SymOp) (hop : isNary op = true) {neutral : Bool} (hne : rest ≠ [])
    (hrest : ∀ r ∈ rest, Has s r w) {acc : APInt} (hacc : acc.width = w)
    (hneutral : neutral = true → combine op w (acc.toNat :: rest.map (last.num vals)) =
      combine op w (rest.map (last.num vals))) :
      Means last vals s (finishBitwise op neutral rest acc) w
      (combine op w (acc.toNat :: rest.map (last.num vals))) := by
  apply means_of_at
  intro h
  have hpos : 0 < w := by
    obtain ⟨q, qs, rfl⟩ := exists_cons_of_ne_nil hne
    exact h.pos (hrest q (mem_cons_self ..))
  unfold finishBitwise
  rw [hacc]
  refine means_ite (fun hn => ?_) fun _ => ?_
  · rw [hneutral hn]
    exact means_soleNode op hop hne hrest
  · refine means_bind (means_mkConst (hacc ▸ hpos) hacc rfl) ?_
    intro c t _ het hc
    refine (means_nary op hop (two_le_cons hne _) ?_).congr ?_
    · intro q hq
      rcases mem_cons.mp hq with rfl | hq
      · exact hc.1
      · exact (hrest q hq).mono het
    · rw [map_cons, hc.2]

lemma meansIf_recoverTruth (hB : B.Sound last vals) (hop : op = .and ∨ op = .or ∨ op = .xor)
    (hrest : ∀ r ∈ rest, Has s r w) {acc : APInt} (hacc : acc.width = w) {v : Nat} :
    MeansIf last vals s (recoverTruth B op v rest acc) w
      (combine op w (acc.toNat :: rest.map (last.num vals))) :=
  meansIf_ite (fun _ => meansIf_recoverObservedComparison hB hop hrest hacc) fun _ => meansIf_none

lemma hasComplement_spec (h : At last vals s) (hrest : ∀ r ∈ rest, Has s r w)
    (hc : s.ctx.hasComplement rest = true) :
    ∃ x ∈ rest, ∃ y ∈ rest, last.num vals x = notOf w (last.num vals y) := by
  rw [SymContext.hasComplement, any_eq_true] at hc
  obtain ⟨r, hr, hcond⟩ := hc
  rw [and_eq_true, decide_eq_true_eq, contains_iff_mem] at hcond
  exact ⟨r, hr, _, hcond.2, (h.not_num (hrest r hr) hcond.1).2⟩

end

section

variable [BlockHash] {last : SymContext} {vals : List APInt} {s : SymBuilder} {w : Nat}
    {B : Builders}

variable {acc : APInt} {rest : List SymRef}

lemma andAbsorbed_spec (h : At last vals s) (hrest : ∀ r ∈ rest, Has s r w) (hacc : acc.width = w) :
    andAll w (acc.toNat :: (rest.filter fun r => !s.ctx.andAbsorbed rest acc r).map
      (last.num vals)) = andAll w (acc.toNat :: rest.map (last.num vals)) := by
  apply eq_of_testBit_eq
  intro i
  rw [testBit_andAll, testBit_andAll, all_cons, all_cons]
  by_cases hi : i < w
  swap
  · simp [hi]
  cases ha : acc.toNat.testBit i with
  | false => simp
  | true =>
    simp only [hi, decide_true, Bool.true_and]
    rw [Bool.eq_iff_iff, all_eq_true, all_eq_true]
    constructor
    · -- by induction on the reference: what absorbs is below what it absorbs
      intro hk x hx
      obtain ⟨r, hr, rfl⟩ := mem_map.mp hx
      induction r using Nat.strong_induction_on with
      | _ r ih =>
        cases hab : s.ctx.andAbsorbed rest acc r with
        | false => exact hk _ (mem_map_of_mem (mem_filter.mpr ⟨hr, by simp [hab]⟩))
        | true =>
          rw [SymContext.andAbsorbed, and_eq_true, decide_eq_true_eq, or_eq_true] at hab
          obtain ⟨hop, hab⟩ := hab
          obtain ⟨hne, hall⟩ := h.nary (hrest r hr) (by simp [hop])
          have hin : ∀ c ∈ s.ctx.operands r, (last.num vals c).testBit i = true →
              (last.num vals r).testBit i = true := by
            intro c hc hci
            rw [h.or_num (hrest r hr) hop, testBit_orAll, any_map, any_eq_true]
            exact ⟨c, hc, hci⟩
          rcases hab with hab | hab
          · rw [any_eq_true] at hab
            obtain ⟨c, hc, hcr⟩ := hab
            have hcr' : c ∈ rest := contains_iff_mem.mp hcr
            exact hin c hc (ih c (h.operand_below (hrest r hr).1 hc) hcr' (mem_map_of_mem hcr'))
          · rw [and_eq_true, decide_eq_true_eq] at hab
            have hmem : s.ctx.operand r 0 ∈ s.ctx.operands r := by
              unfold SymContext.operand
              obtain ⟨c, cs, hcs⟩ := exists_cons_of_ne_nil hne
              rw [hcs]
              exact mem_cons_self ..
            apply hin _ hmem
            rw [h.const_num (hall _ hmem) hab.1]
            exact subset_of_and_eq (hacc.trans (h.const_width (hall _ hmem) hab.1).symm) hab.2 i ha
    · intro hk x hx
      obtain ⟨r, hr, rfl⟩ := mem_map.mp hx
      exact hk _ (mem_map_of_mem (mem_of_mem_filter hr))

omit [BlockHash] in
lemma andAll_complement {x y : Nat} (hx : x ∈ xs) (hy : y ∈ xs) (hylt : y < 2 ^ w)
    (h : x = notOf w y) : andAll w xs = 0 := by
  apply eq_of_testBit_eq
  intro i
  rw [testBit_andAll, zero_testBit, Bool.and_eq_false_iff]
  right
  rw [eq_false_iff, ne_eq, all_eq_true]
  intro hall
  have h1 := hall x hx
  have h2 := hall y hy
  rw [h, testBit_notOf hylt, h2] at h1
  simp at h1

lemma demandLowBits_spec (hB : B.Sound last vals) (hrest : ∀ r ∈ rest, Has s r w)
    (hacc : acc.width = w) :
    Triple last vals s (demandLowBits B rest acc) fun seen t => (∀ r ∈ seen.1, Has t r w) ∧
      seen.2.width = w ∧
      andAll w (seen.2.toNat :: seen.1.map (last.num vals)) =
      andAll w (acc.toNat :: rest.map (last.num vals)) := by
  unfold demandLowBits
  split
  next r =>
    have hr := hrest r (mem_cons_self ..)
    refine triple_ite (fun _ => ?_) fun _ => triple_pure fun _ => ⟨hrest, hacc, rfl⟩
    refine triple_bind (simplifyLowMaskedAdd_spec hB hr hacc) ?_
    intro reduced t ht het hred
    apply triple_context
    intro _
    refine triple_ite (fun _ => triple_pure fun _ => ⟨fun q hq => (hrest q hq).mono het, hacc, rfl⟩)
      fun _ => ?_
    apply triple_pure
    intro _
    have hparts : ∃ parts, (if t.ctx.op reduced = .and then t.ctx.operands reduced else [reduced]) =
        parts ∧
        (∀ q ∈ parts, Has t q w) ∧
          last.num vals reduced = andAll w (parts.map (last.num vals)) := by
      by_cases hop : t.ctx.op reduced = .and
      · exact ⟨_, if_pos hop, (ht.nary hred.1 (by simp [hop])).2, ht.and_num hred.1 hop⟩
      · refine ⟨_, if_neg hop, ?_, (and_ones (ht.lt hred.1)).symm⟩
        intro q hq
        rw [mem_singleton.mp hq]
        exact hred.1
    obtain ⟨parts, hp, hpw, hpnum⟩ := hparts
    rw [hp]
    obtain ⟨h1, h2⟩ := foldl_masks ht hpw hacc
    refine ⟨fun q hq => hpw q (mem_of_mem_filter hq), h1, ?_⟩
    rw [andAll_cons, Nat.and_comm, h2, ← hpnum, hred.2, map_singleton, andAll_cons, Nat.and_comm]
    congr 1
    exact (and_ones (ht.lt (hr.mono het))).symm
  · exact triple_pure fun _ => ⟨hrest, hacc, rfl⟩

variable [KnownTransfer]

omit [BlockHash] [KnownTransfer] in
lemma andAll_pair {a x : Nat} (hx : x < 2 ^ w) : andAll w [a, x] = a &&& x := by
  show a &&& (x &&& ones w) = _
  rw [and_ones hx]

lemma meansIf_knownSlice (hT : KnownTransfer.Sound) (hrest : ∀ r ∈ rest, Has s r w)
    (hacc : acc.width = w) :
    MeansIf last vals s (knownSlice w rest acc) w
      (andAll w (acc.toNat :: rest.map (last.num vals))) := by
  apply meansIf_context
  intro h
  split
  next r =>
    have hr := hrest r (mem_cons_self ..)
    refine meansIf_ite (fun _ => ?_) fun _ => meansIf_none
    split
    next bits hbits =>
      refine meansIf_ite (fun hk => ?_) fun _ => meansIf_none
      have hknows := (query_spec hT h (forall_mem_nil _) r kSymExprLogicSubsetWork).2 bits hbits
      apply meansIf_some
      have hlt := acc.toNat_lt
      rw [hacc] at hlt
      refine means_mkConst (show 0 < (APInt.ofNat w _).width from h.pos hr) rfl ?_
      rw [APInt.ofNat_toNat, Nat.mod_eq_of_lt (lt_of_le_of_lt Nat.and_le_right hlt)]
      rw [map_singleton, andAll_pair (h.lt hr), Nat.and_comm]
      apply eq_of_testBit_eq
      intro i
      rw [testBit_and, testBit_and]
      cases ha : acc.toNat.testBit i with
      | false => simp
      | true =>
        have hki := congrArg (fun n => n.testBit i) hk
        simp only [testBit_and, Nat.testBit_or, ha, Bool.and_true] at hki
        cases h1 : bits.one.testBit i with
        | true => rw [hknows.set i h1]
        | false =>
          rw [h1, Bool.or_false] at hki
          rw [hknows.clear i hki]
    · exact meansIf_none
  · exact meansIf_none

omit [KnownTransfer] in
lemma insideMask_spec (h : At last vals s) (ht : Has s term w) (hacc : acc.width = w)
    (hin : s.ctx.insideMask acc.not term = true) (i : Nat)
    (hi : (last.num vals term).testBit i = true) : acc.toNat.testBit i = true := by
  unfold SymContext.insideMask at hin
  split at hin
  next hc =>
    rw [h.const_num ht hc] at hi
    exact subset_of_isZero (h.const_width ht hc) hacc hin i hi
  · rw [and_eq_true] at hin
    obtain ⟨-, h0, hc, -, hnum⟩ := h.masked ht hin.1
    rw [hnum, testBit_and, and_eq_true] at hi
    exact subset_of_isZero (h.const_width h0 hc) hacc hin.2 i hi.1

omit [KnownTransfer] [BlockHash] in
lemma exists_of_testBit_xorAll {i : Nat} (h : (xorAll xs).testBit i = true) :
    ∃ x ∈ xs, x.testBit i = true := by
  induction xs with
  | nil => simp [xorAll] at h
  | cons x xs ih =>
    cases hx : x.testBit i with
    | true => exact ⟨x, mem_cons_self .., hx⟩
    | false =>
      rw [xorAll_cons, Nat.testBit_xor, hx, Bool.false_xor] at h
      obtain ⟨y, hy, hyi⟩ := ih h
      exact ⟨y, mem_cons_of_mem _ hy, hyi⟩

omit [KnownTransfer] in
lemma meansIf_unmaskedWord (hrest : ∀ r ∈ rest, Has s r w) (hacc : acc.width = w) :
    MeansIf last vals s (unmaskedWord w rest acc) w
      (andAll w (acc.toNat :: rest.map (last.num vals))) := by
  apply meansIf_context
  intro h
  split
  next r =>
    have hr := hrest r (mem_cons_self ..)
    refine meansIf_ite (fun hc => ?_) fun _ => meansIf_none
    simp only [and_eq_true, or_eq_true, decide_eq_true_eq, all_eq_true] at hc
    obtain ⟨⟨⟨-, hop⟩, -⟩, hall⟩ := hc
    refine triple_pure fun _ q hq => ?_
    cases hq
    refine ⟨hr, ?_⟩
    rw [map_singleton, andAll_pair (h.lt hr)]
    have hops : ∀ c ∈ s.ctx.operands r, Has s c w :=
      (h.nary hr (by rcases hop with hop | hop <;> simp [hop])).2
    apply eq_of_testBit_eq
    intro i
    rw [testBit_and]
    cases hi : (last.num vals r).testBit i with
    | false => simp
    | true =>
      -- some operand has the bit, and every operand is inside the mask
      have hex : ∃ c ∈ s.ctx.operands r, (last.num vals c).testBit i = true := by
        rcases hop with hop | hop
        · rw [h.or_num hr hop, testBit_orAll, any_map, any_eq_true] at hi
          exact hi
        · rw [h.xor_num hr hop] at hi
          obtain ⟨x, hx, hxi⟩ := exists_of_testBit_xorAll hi
          obtain ⟨c, hc, rfl⟩ := mem_map.mp hx
          exact ⟨c, hc, hxi⟩
      obtain ⟨c, hc, hci⟩ := hex
      rw [insideMask_spec h (hops c hc) hacc (hall c hc) i hci]
      rfl
  · exact meansIf_none

variable (hT : KnownTransfer.Sound)
include hT

theorem disjointTerm_spec (h : At last vals s) (ht : Has s term w)
    (hacc : acc.width = w) {known : List (SymRef × KnownBits) × Nat}
    (hk : ∀ p ∈ known.1, FactsOf last vals s p.1 p.2) :
    (∀ p ∈ (s.ctx.disjointTerm acc term known).2.1, FactsOf last vals s p.1 p.2) ∧
      ((s.ctx.disjointTerm acc term known).1 = true → acc.toNat &&& last.num vals term = 0) := by
  have hzero : ∀ c, Has s c w → s.ctx.isConst c = true →
      ((s.ctx.constValue c).and acc).isZero = true → last.num vals c &&& acc.toNat = 0 := by
    intro c hc hconst hz
    rw [h.const_num hc hconst, ← toNat_and (hacc.trans (h.const_width hc hconst).symm)]
    exact toNat_of_isZero hz
  unfold SymContext.disjointTerm
  split
  next hc => exact ⟨hk, fun hz => by rw [Nat.and_comm]; exact hzero term ht hc hz⟩
  · split
    next hc =>
      refine ⟨hk, fun _ => ?_⟩
      rw [and_eq_true, decide_eq_true_eq, any_eq_true] at hc
      obtain ⟨hop, factor, hf, hfc⟩ := hc
      rw [and_eq_true] at hfc
      have hz := hzero factor ((h.nary ht (by simp [hop])).2 factor hf) hfc.1 hfc.2
      apply eq_of_testBit_eq
      intro i
      have hzi := congrArg (fun n => n.testBit i) hz
      rw [testBit_and, h.and_num ht hop, testBit_andAll, zero_testBit]
      simp only [testBit_and, zero_testBit] at hzi
      cases ha : acc.toNat.testBit i with
      | false => rfl
      | true =>
        rw [ha, Bool.and_true] at hzi
        rw [Bool.true_and, Bool.and_eq_false_iff]
        right
        rw [eq_false_iff, ne_eq, all_eq_true]
        intro hall
        have := hall _ (mem_map_of_mem hf)
        rw [hzi] at this
        cases this
    · have hq := query_spec hT h hk term known.2
      refine ⟨hq.1, fun hd => ?_⟩
      rw [Option.any_eq_true] at hd
      obtain ⟨bits, hbits, hz⟩ := hd
      have hknows := hq.2 bits hbits
      rw [decide_eq_true_eq] at hz
      apply eq_of_testBit_eq
      intro i
      rw [testBit_and, zero_testBit]
      cases ha : acc.toNat.testBit i with
      | false => rfl
      | true =>
        have hzi := congrArg (fun n => n.testBit i) hz
        simp only [testBit_and, ha, Bool.and_true] at hzi
        rw [hknows.clear i hzi]
        rfl

lemma overlappingTerms_spec (h : At last vals s) {terms : List SymRef}
    (ht : ∀ r ∈ terms, Has s r w) (hacc : acc.width = w) (known : List (SymRef × KnownBits) × Nat)
    (hk : ∀ p ∈ known.1, FactsOf last vals s p.1 p.2) :
      (∀ r ∈ s.ctx.overlappingTerms acc terms known, r ∈ terms) ∧
      acc.toNat &&& orAll (terms.map (last.num vals)) =
        orAll ((s.ctx.overlappingTerms acc terms known).map fun r => acc.toNat &&&
          last.num vals r) := by
  induction terms generalizing known with
  | nil => exact ⟨forall_mem_nil _, by simp [SymContext.overlappingTerms, orAll]⟩
  | cons term terms ih =>
    obtain ⟨hk', hd⟩ := disjointTerm_spec hT h (ht term (mem_cons_self ..)) hacc hk
    obtain ⟨ih1, ih2⟩ := ih (fun r hr => ht r (mem_cons_of_mem _ hr)) _ hk'
    rw [SymContext.overlappingTerms, map_cons, orAll_cons, and_or_distrib, ih2]
    split
    next hdis =>
      refine ⟨fun r hr => mem_cons_of_mem _ (ih1 r hr), ?_⟩
      rw [hd hdis, zero_or]
    · refine ⟨?_, rfl⟩
      intro r hr
      rcases mem_cons.mp hr with rfl | hr
      · exact mem_cons_self ..
      · exact mem_cons_of_mem _ (ih1 r hr)

variable (hB : B.Sound last vals)
include hB

lemma meansIf_maskedUnion (hrest : ∀ r ∈ rest, Has s r w) (hacc : acc.width = w) :
    MeansIf last vals s (maskedUnion B w rest acc) w
      (andAll w (acc.toNat :: rest.map (last.num vals))) := by
  apply meansIf_context
  intro h
  split
  next r =>
    have hr := hrest r (mem_cons_self ..)
    refine meansIf_ite (fun hc => ?_) fun _ => meansIf_none
    simp only [and_eq_true, decide_eq_true_eq] at hc
    have hop := hc.1.1.2
    obtain ⟨-, hall⟩ := h.nary hr (by simp [hop])
    obtain ⟨hmem, hvalue⟩ :=
      overlappingTerms_spec hT h hall hacc ([], kSymExprLogicSubsetWork) (forall_mem_nil _)
    have hgoal : andAll w (acc.toNat :: [r].map (last.num vals)) =
        orAll ((s.ctx.overlappingTerms acc (s.ctx.operands r) ([], kSymExprLogicSubsetWork)).map
          fun q =>
          acc.toNat &&& last.num vals q) := by
      rw [map_singleton, andAll_pair (h.lt hr), ← hvalue, h.or_num hr hop]
    rw [hgoal]
    generalize s.ctx.overlappingTerms acc (s.ctx.operands r) ([], kSymExprLogicSubsetWork) =
      kept at hmem
    apply meansIf_some
    refine means_bind (means_mkConst (hacc ▸ h.pos hr) hacc rfl) ?_
    intro mask t ht het hmask
    refine triple_bind (triple_each_map (w := w) kept (g := fun q => acc.toNat &&& last.num vals q)
      ?_) ?_
    · intro u hu heu q hq
      have hqs := ((hall q (hmem q hq)).mono het).mono heu
      refine (hB.mkAnd (has_pair (hmask.1.mono heu) hqs)).congr ?_
      simp only [map_cons, map_nil]
      rw [andAll_pair (hu.lt hqs), hmask.2]
    · intro masked u _ _ hmasked
      rw [← hmasked.2]
      refine means_ite (fun hnil => ?_) fun _ => hB.mkOr hmasked.1
      rw [hnil]
      exact means_mkZero (h.pos hr)
  · exact meansIf_none

lemma means_rewriteAnd (hne : rest ≠ []) (hrest : ∀ r ∈ rest, Has s r w) (hacc : acc.width = w) :
    Means last vals s (rewriteAnd B w rest acc) w
      (andAll w (acc.toNat :: rest.map (last.num vals))) := by
  refine means_orElse (meansIf_contractZeroExtensions hB (.inl rfl) hrest hacc) ?_
  intro t₁ _ he₁
  have h₁ := fun r hr => (hrest r hr).mono he₁
  refine means_orElse (meansIf_knownSlice hT h₁ hacc) ?_
  intro t₂ _ he₂
  have h₂ := fun r hr => (h₁ r hr).mono he₂
  refine means_orElse (meansIf_unmaskedWord h₂ hacc) ?_
  intro t₃ _ he₃
  have h₃ := fun r hr => (h₂ r hr).mono he₃
  refine means_orElse (meansIf_recoverTruth hB (.inl rfl) h₃ hacc) ?_
  intro t₄ _ he₄
  have h₄ := fun r hr => (h₃ r hr).mono he₄
  refine means_orElse (meansIf_maskedUnion hT hB h₄ hacc) ?_
  intro t₅ _ he₅
  refine means_finishBitwise .and (by rfl) hne (fun r hr => (h₄ r hr).mono he₅) hacc ?_
  intro hones
  show andAll w _ = andAll w _
  rw [andAll_cons, toNat_of_isAllOnes hones, hacc, Nat.and_comm, and_ones (andAll_lt ..)]

lemma means_mkAnd {n : Nat} {ops : List SymRef} (hops : ∀ q ∈ ops, Has s q w) :
    Means last vals s (mkAnd n B ops) w (andAll w (ops.map (last.num vals))) := by
  refine means_ite (fun _ => means_stop) fun hne => ?_
  apply means_context
  intro h
  obtain ⟨q, qs, rfl⟩ := exists_cons_of_ne_nil hne
  have hq := hops q (mem_cons_self ..)
  have hw : s.ctx.width ((q :: qs).getD 0 0) = w := hq.2
  have hpos := h.pos hq
  rw [hw]
  apply means_ofOption
  intro flat hflat
  obtain ⟨hfrest, hfw, hfvalue⟩ := flatten_spec h (by rfl) (fun r hr => hops r (mem_reverse.mp hr))
    (forall_mem_nil _) rfl hflat
  refine triple_bind (demandLowBits_spec hB hfrest hfw) ?_
  intro seen t ht _ hseen
  apply means_context
  intro _
  obtain ⟨hs1, hs2, hs3⟩ := hseen
  have hmem : ∀ r, r ∈ uniqueRefs (sortRefs seen.1) ↔ r ∈ seen.1 := fun r =>
    (mem_uniqueRefs _).trans (perm_insertionSort ..).mem_iff
  have hu : ∀ r ∈ uniqueRefs (sortRefs seen.1), Has t r w := fun r hr => hs1 r ((hmem r).mp hr)
  have habs := andAbsorbed_spec ht hu hs2
  have hkept : ∀ r ∈ (uniqueRefs (sortRefs seen.1)).filter
      (fun r => !t.ctx.andAbsorbed (uniqueRefs (sortRefs seen.1)) seen.2 r), Has t r w :=
    fun r hr => hu r (mem_of_mem_filter hr)
  have hvalue : andAll w (seen.2.toNat :: ((uniqueRefs (sortRefs seen.1)).filter
      (fun r => !t.ctx.andAbsorbed (uniqueRefs (sortRefs seen.1)) seen.2 r)).map (last.num vals)) =
        andAll w ((q :: qs).map (last.num vals)) := by
    rw [habs]
    have hset : andAll w (seen.2.toNat :: (uniqueRefs (sortRefs seen.1)).map (last.num vals)) =
        andAll w (seen.2.toNat :: seen.1.map (last.num vals)) := by
      apply andAll_congr
      intro x
      simp only [mem_cons, mem_map, hmem]
    rw [hset, hs3]
    refine .trans hfvalue ?_
    show andAll w _ = _
    rw [andAll_cons, toNat_allOnes, Nat.and_comm, and_ones (andAll_lt ..), append_nil, map_reverse]
    exact andAll_perm (reverse_perm _)
  dsimp only
  generalize (uniqueRefs (sortRefs seen.1)).filter
      (fun r => !t.ctx.andAbsorbed (uniqueRefs (sortRefs seen.1)) seen.2 r) = rest at hkept hvalue
  rw [← hvalue]
  refine means_ite (fun hz => ?_) fun _ => means_ite (fun hc => ?_) fun _ =>
    means_ite (fun hnil => ?_) fun hnil => ?_
  · rw [andAll_cons, toNat_of_isZero hz, Nat.zero_and]
    exact means_mkZero hpos
  · obtain ⟨x, hx, y, hy, hxy⟩ := hasComplement_spec ht hkept hc
    rw [andAll_complement (mem_cons_of_mem _ (mem_map_of_mem hx))
      (mem_cons_of_mem _ (mem_map_of_mem hy)) (ht.lt (hkept y hy)) hxy]
    exact means_mkZero hpos
  · refine means_mkConst (hs2 ▸ hpos) hs2 ?_
    have hlt := seen.2.toNat_lt
    rw [hs2] at hlt
    rw [hnil]
    exact (and_ones hlt).symm
  · exact means_rewriteAnd hT hB hnil hkept hs2

omit hB

end

variable [BlockHash] {last : SymContext} {vals : List APInt} {s : SymBuilder} {w : Nat}
    {B : Builders}

variable {rest : List SymRef} {i : Nat} {acc : APInt}

variable (h : At last vals s)
include h

variable (hr : Has s r w)
include hr

lemma At.and_subset {c : SymRef} (hop : s.ctx.op r = .and)
    (hc : c ∈ s.ctx.operands r) (hi : (last.num vals r).testBit i = true) :
    (last.num vals c).testBit i = true := by
  rw [h.and_num hr hop, testBit_andAll, and_eq_true, all_eq_true] at hi
  exact hi.2 _ (mem_map_of_mem hc)

lemma At.or_subset {c : SymRef} (hop : s.ctx.op r = .or)
    (hc : c ∈ s.ctx.operands r) (hi : (last.num vals c).testBit i = true) :
    (last.num vals r).testBit i = true := by
  rw [h.or_num hr hop, testBit_orAll, any_map, any_eq_true]
  exact ⟨c, hc, hi⟩

lemma At.or_exists (hop : s.ctx.op r = .or)
    (hi : (last.num vals r).testBit i = true) :
    ∃ c ∈ s.ctx.operands r, (last.num vals c).testBit i = true := by
  rw [h.or_num hr hop, testBit_orAll, any_map, any_eq_true] at hi
  exact hi

lemma At.xor_exists (hop : s.ctx.op r = .xor)
    (hi : (last.num vals r).testBit i = true) :
    ∃ c ∈ s.ctx.operands r, (last.num vals c).testBit i = true := by
  rw [h.xor_num hr hop] at hi
  obtain ⟨x, hx, hxi⟩ := exists_of_testBit_xorAll hi
  obtain ⟨c, hc, rfl⟩ := mem_map.mp hx
  exact ⟨c, hc, hxi⟩

omit hr

lemma coveredByConstant_spec (hacc : acc.width = w) {value : SymRef}
    (hv : Has s value w) {v : Nat} (hc : (s.ctx.coveredByConstant v acc value work).1 = true)
    (hi : (last.num vals value).testBit i = true) : acc.toNat.testBit i = true := by
  unfold SymContext.coveredByConstant at hc
  split at hc
  · cases hc
  split at hc
  · cases hc
  rename_i mask hmask
  dsimp only at hc
  split at hc
  · cases hc
  unfold SymContext.boundingMask at hmask
  dsimp only at hmask
  split at hmask
  next hconst =>
    cases hmask
    rw [h.const_num hv hconst] at hi
    exact subset_of_isZero (h.const_width hv hconst) hacc hc i hi
  split at hmask
  next hm =>
    cases hmask
    obtain ⟨-, h0, hconst, -, hnum⟩ := h.masked hv hm
    rw [hnum, testBit_and, and_eq_true] at hi
    exact subset_of_isZero (h.const_width h0 hconst) hacc hc i hi.1
  split at hmask
  next hn =>
    cases hmask
    simp only [and_eq_true, decide_eq_true_eq] at hn
    obtain ⟨⟨hnot, hor⟩, hconst⟩ := hn
    obtain ⟨hin, hnum⟩ := h.not_num hv hnot
    obtain ⟨hne, hall⟩ := h.nary hin (by simp [hor])
    have hmem : s.ctx.operand (s.ctx.operand value 0) 0 ∈
        s.ctx.operands (s.ctx.operand value 0) := by
      generalize s.ctx.operand value 0 = q at *
      unfold SymContext.operand
      obtain ⟨c, cs, hcs⟩ := exists_cons_of_ne_nil hne
      rw [hcs]
      exact mem_cons_self ..
    have h0 := hall _ hmem
    have hcw := h.const_width h0 hconst
    refine subset_of_isZero (a := (s.ctx.constValue _).not) hcw hacc hc i ?_
    have hlt := (s.ctx.constValue (s.ctx.operand (s.ctx.operand value 0) 0)).toNat_lt
    rw [hcw] at hlt
    rw [hnum, testBit_notOf (h.lt hin), and_eq_true, Bool.not_eq_true'] at hi
    rw [toNat_not, hcw, testBit_notOf hlt, and_eq_true, Bool.not_eq_true']
    refine ⟨hi.1, ?_⟩
    cases hb : (s.ctx.constValue (s.ctx.operand (s.ctx.operand value 0) 0)).toNat.testBit i with
    | false => rfl
    | true =>
      rw [← h.const_num h0 hconst] at hb
      rw [h.or_subset hin hor hmem hb] at hi
      exact hi.2
  · cases hmask

lemma coveredArm_spec {cover : SymRef} (ht : Has s term w)
    (hc : (s.ctx.coveredArm cover term work).1 = true)
    (hi : (last.num vals term).testBit i = true) :
    (last.num vals cover).testBit i = true ∧ cover ≤ term := by
  unfold SymContext.coveredArm at hc
  split at hc
  · cases hc
  split at hc
  next heq =>
    rw [← heq]
    exact ⟨hi, le_rfl⟩
  split at hc
  · cases hc
  next hop =>
    rw [not_not] at hop
    obtain ⟨factor, hf, left, hl⟩ := anyWork_true hc
    split at hl
    · cases hl
    · have heq : factor = cover := of_decide_eq_true hl
      rw [← heq]
      exact ⟨h.and_subset ht hop hf hi, (h.operand_below ht.1 hf).le⟩

theorem orAbsorbed_spec (hacc : acc.width = w)
    (hr : Has s r w) {v : Nat} (hab : (s.ctx.orAbsorbed v rest acc r work).1 = true)
    (hi : (last.num vals r).testBit i = true) :
    acc.toNat.testBit i = true ∨ ∃ c ∈ rest, c < r ∧ (last.num vals c).testBit i = true := by
  unfold SymContext.orAbsorbed at hab
  dsimp only at hab
  generalize hleft : (if s.ctx.op r = .and then
    anyWork (s.ctx.coveredFactor rest acc) (s.ctx.operands r) work else (false, work)).2 =
      left₀ at hab
  rw [or_eq_true, or_eq_true] at hab
  rcases hab with (hab | hab) | hab
  · -- a factor in the union, or a union of terms that are
    split at hab
    next hop =>
      obtain ⟨factor, hf, left, hl⟩ := anyWork_true hab
      have hfw := (h.nary hr (by simp [hop])).2 factor hf
      have hfi := h.and_subset hr hop hf hi
      have hflt := h.operand_below hr.1 hf
      unfold SymContext.coveredFactor at hl
      split at hl
      next hmem => exact .inr ⟨factor, contains_iff_mem.mp hmem, hflt, hfi⟩
      · split at hl
        · cases hl
        next hor =>
          rw [not_not] at hor
          obtain ⟨term, ht, hti⟩ := h.or_exists hfw hor hfi
          have htw := (h.nary hfw (by simp [hor])).2 term ht
          obtain ⟨left', hterm⟩ := allWork_true hl term ht
          unfold SymContext.coveredTerm at hterm
          split at hterm
          · cases hterm
          · split at hterm
            next hconst =>
              rw [h.const_num htw hconst] at hti
              exact .inl (subset_of_isZero (h.const_width htw hconst) hacc hterm i hti)
            · exact .inr ⟨term, contains_iff_mem.mp hterm, (h.operand_below hfw.1 ht).trans hflt,
                hti⟩
    · cases hab
  · -- an exclusive or of covered terms
    unfold SymContext.coveredXor at hab
    split at hab
    · cases hab
    next hop =>
      rw [not_not] at hop
      obtain ⟨term, ht, hti⟩ := h.xor_exists hr hop hi
      have htw := (h.nary hr (by simp [hop])).2 term ht
      have htlt := h.operand_below hr.1 ht
      by_cases hlit : (if !acc.isZero then
          allWork (s.ctx.coveredByConstant v acc) (s.ctx.operands r) left₀
        else (false, left₀)).1 = true
      · split at hlit
        · obtain ⟨left, hl⟩ := allWork_true hlit term ht
          exact .inl (coveredByConstant_spec h hacc htw hl hti)
        · cases hlit
      · rw [if_neg hlit] at hab
        obtain ⟨cover, hcover, left, hl⟩ := anyWork_true hab
        unfold SymContext.coveredBy at hl
        split at hl
        · cases hl
        · split at hl
          · cases hl
          · obtain ⟨left', harm⟩ := allWork_true hl term ht
            obtain ⟨h1, h2⟩ := coveredArm_spec h htw harm hti
            exact .inr ⟨cover, hcover, h2.trans_lt htlt, h1⟩
  · rw [and_eq_true] at hab
    obtain ⟨-, h0, hconst, -, hnum⟩ := h.masked hr hab.1
    rw [hnum, testBit_and, and_eq_true] at hi
    exact .inl (subset_of_isZero (h.const_width h0 hconst) hacc hab.2 i hi.1)

omit h

omit [BlockHash] in
lemma mem_orUnabsorbed (ctx : SymContext) (v : Nat) (rest : List SymRef) (acc : APInt)
    (rs : List SymRef) (work : Nat) : (∀ r ∈ ctx.orUnabsorbed v rest acc rs work, r ∈ rs) ∧
      ∀ r ∈ rs, r ∈ ctx.orUnabsorbed v rest acc rs work ∨
        ∃ left, (ctx.orAbsorbed v rest acc r left).1 = true := by
  induction rs generalizing work with
  | nil => exact ⟨forall_mem_nil _, forall_mem_nil _⟩
  | cons q rs ih =>
    obtain ⟨h1, h2⟩ := ih (ctx.orAbsorbed v rest acc q work).2
    rw [SymContext.orUnabsorbed]
    split
    next hab =>
      refine ⟨fun r hr => mem_cons_of_mem _ (h1 r hr), ?_⟩
      intro r hr
      rcases mem_cons.mp hr with rfl | hr
      · exact .inr ⟨work, hab⟩
      · exact h2 r hr
    · constructor
      · intro r hr
        rcases mem_cons.mp hr with rfl | hr
        · exact mem_cons_self ..
        · exact mem_cons_of_mem _ (h1 r hr)
      · intro r hr
        rcases mem_cons.mp hr with rfl | hr
        · exact .inl (mem_cons_self ..)
        · exact (h2 r hr).imp_left (mem_cons_of_mem _)

lemma orUnabsorbed_spec (h : At last vals s) (hrest : ∀ r ∈ rest, Has s r w) (hacc : acc.width = w)
    (v work : Nat) :
    orAll (acc.toNat :: (s.ctx.orUnabsorbed v rest acc rest work).map (last.num vals)) =
      orAll (acc.toNat :: rest.map (last.num vals)) := by
  obtain ⟨h1, h2⟩ := mem_orUnabsorbed s.ctx v rest acc rest work
  apply eq_of_testBit_eq
  intro i
  rw [testBit_orAll, testBit_orAll, any_cons, any_cons]
  cases ha : acc.toNat.testBit i with
  | true => simp
  | false =>
    rw [Bool.false_or, Bool.false_or, Bool.eq_iff_iff, any_map, any_map, any_eq_true, any_eq_true]
    constructor
    · rintro ⟨r, hr, hi⟩
      exact ⟨r, h1 r hr, hi⟩
    · rintro ⟨r, hr, hi⟩
      -- by induction on the reference: what absorbs is below what it absorbs
      induction r using Nat.strong_induction_on with
      | _ r ih =>
        rcases h2 r hr with hk | ⟨left, hab⟩
        · exact ⟨r, hk, hi⟩
        · rcases orAbsorbed_spec h hacc (hrest r hr) hab hi with hacc' | ⟨c, hc, hlt, hci⟩
          · rw [ha] at hacc'
            cases hacc'
          · exact ih c hlt hc hci

omit [BlockHash] in
lemma orAll_complement (hxs : ∀ x ∈ xs, x < 2 ^ w) {x y : Nat} (hx : x ∈ xs) (hy : y ∈ xs)
    (h : x = notOf w y) : orAll xs = ones w := by
  apply eq_of_testBit_eq
  intro i
  rw [testBit_orAll, testBit_ones]
  by_cases hi : i < w
  · rw [decide_eq_true hi, any_eq_true]
    cases hb : y.testBit i with
    | true => exact ⟨y, hy, hb⟩
    | false => exact ⟨x, hx, by rw [h, testBit_notOf (hxs y hy), hb]; simp [hi]⟩
  · rw [decide_eq_false hi, eq_false_iff, ne_eq, any_eq_true]
    rintro ⟨z, hz, hzi⟩
    exact hi (lt_of_testBit_true (hxs z hz) hzi)

lemma mergeUnion_spec {n : Nat} (hrest : ∀ r ∈ rest, Has s r w) (hacc : acc.width = w) :
    Triple last vals s (mergeUnion n rest acc) fun merged t => (∀ r ∈ merged.1, Has t r w) ∧
      merged.2.width = w ∧
      orAll (merged.2.toNat :: merged.1.map (last.num vals)) =
      orAll (acc.toNat :: rest.map (last.num vals)) := by
  refine triple_bind (mergeMaskedOperands_spec false hrest) ?_
  intro merged t ht het hmerged
  apply triple_context
  intro _
  refine triple_ite (fun _ => ?_) fun _ => triple_pure fun _ => ⟨fun r hr => (hrest r hr).mono het,
    hacc, rfl⟩
  cases hf : t.ctx.flatten .or n merged.1.reverse [] acc with
  | none => exact triple_stop
  | some flat =>
    apply triple_pure
    intro _
    obtain ⟨h1, h2, h3⟩ := flatten_spec ht (by rfl) (fun r hr => hmerged.1 r (mem_reverse.mp hr))
      (forall_mem_nil _) hacc hf
    refine ⟨h1, h2, .trans h3 ?_⟩
    show orAll _ = _
    rw [orAll_cons, orAll_cons, append_nil, map_reverse, orAll_perm (reverse_perm _), hmerged.2.1]

lemma means_rewriteOr (hB : B.Sound last vals) (hne : rest ≠ [])
    (hrest : ∀ r ∈ rest, Has s r w) (hacc : acc.width = w) :
    Means last vals s (rewriteOr B w rest acc) w
      (orAll (acc.toNat :: rest.map (last.num vals))) := by
  refine means_orElse (meansIf_contractZeroExtensions hB (.inr (.inl rfl)) hrest hacc) ?_
  intro t₁ _ he₁
  have h₁ := fun r hr => (hrest r hr).mono he₁
  refine means_orElse (meansIf_recoverTruth hB (.inr (.inl rfl)) h₁ hacc) ?_
  intro t₂ _ he₂
  refine means_finishBitwise .or (by rfl) hne (fun r hr => (h₁ r hr).mono he₂) hacc ?_
  intro hz
  show orAll _ = orAll _
  rw [orAll_cons, toNat_of_isZero hz, zero_or]

lemma means_mkOr (hB : B.Sound last vals) {n : Nat} {ops : List SymRef}
    (hops : ∀ q ∈ ops, Has s q w) :
    Means last vals s (mkOr n B ops) w (orAll (ops.map (last.num vals))) := by
  refine means_ite (fun _ => means_stop) fun hne => ?_
  apply means_context
  intro h
  obtain ⟨q, qs, rfl⟩ := exists_cons_of_ne_nil hne
  have hq := hops q (mem_cons_self ..)
  have hw : s.ctx.width ((q :: qs).getD 0 0) = w := hq.2
  have hpos := h.pos hq
  rw [hw]
  apply means_ofOption
  intro flat hflat
  obtain ⟨hfrest, hfw, hfvalue⟩ := flatten_spec h (by rfl) (fun r hr => hops r (mem_reverse.mp hr))
    (forall_mem_nil _) rfl hflat
  refine triple_bind (mergeUnion_spec hfrest hfw) ?_
  intro merged t ht _ hmerged
  apply means_context
  intro _
  obtain ⟨hs1, hs2, hs3⟩ := hmerged
  have hmem : ∀ r, r ∈ uniqueRefs (sortRefs merged.1) ↔ r ∈ merged.1 := fun r =>
    (mem_uniqueRefs _).trans (perm_insertionSort ..).mem_iff
  have hu : ∀ r ∈ uniqueRefs (sortRefs merged.1), Has t r w := fun r hr => hs1 r ((hmem r).mp hr)
  have habs := orUnabsorbed_spec ht hu hs2 w kSymExprLogicSubsetWork
  have hkept : ∀ r ∈ t.ctx.orUnabsorbed w (uniqueRefs (sortRefs merged.1)) merged.2
      (uniqueRefs (sortRefs merged.1))
      kSymExprLogicSubsetWork, Has t r w :=
        fun r hr => hu r ((mem_orUnabsorbed t.ctx w _ _ _ _).1 r hr)
  have hvalue :
      orAll (merged.2.toNat :: (t.ctx.orUnabsorbed w (uniqueRefs (sortRefs merged.1)) merged.2
      (uniqueRefs (sortRefs merged.1)) kSymExprLogicSubsetWork).map (last.num vals)) =
        orAll ((q :: qs).map (last.num vals)) := by
    rw [habs]
    have hset : orAll (merged.2.toNat :: (uniqueRefs (sortRefs merged.1)).map (last.num vals)) =
        orAll (merged.2.toNat :: merged.1.map (last.num vals)) := by
      apply orAll_congr
      intro x
      simp only [mem_cons, mem_map, hmem]
    rw [hset, hs3]
    refine .trans hfvalue ?_
    show orAll _ = _
    rw [orAll_cons, toNat_zero, zero_or, append_nil, map_reverse]
    exact orAll_perm (reverse_perm _)
  dsimp only
  generalize t.ctx.orUnabsorbed w (uniqueRefs (sortRefs merged.1)) merged.2
      (uniqueRefs (sortRefs merged.1)) kSymExprLogicSubsetWork = rest at hkept hvalue
  have hlt := merged.2.toNat_lt
  rw [hs2] at hlt
  have hall : ∀ x ∈ merged.2.toNat :: rest.map (last.num vals), x < 2 ^ w := by
    intro x hx
    rcases mem_cons.mp hx with rfl | hx
    · exact hlt
    · obtain ⟨r, hr, rfl⟩ := mem_map.mp hx
      exact ht.lt (hkept r hr)
  rw [← hvalue]
  refine means_ite (fun ho => ?_) fun _ => means_ite (fun hc => ?_) fun _ =>
    means_ite (fun hnil => ?_) fun hnil => ?_
  · refine means_mkConst (hs2 ▸ hpos) hs2 ?_
    rw [toNat_of_isAllOnes ho, hs2, orAll_cons]
    have hrest : orAll (rest.map (last.num vals)) < 2 ^ w :=
      orAll_lt fun x hx => hall x (mem_cons_of_mem _ hx)
    apply eq_of_testBit_eq
    intro i
    rw [Nat.testBit_or, testBit_ones]
    by_cases hi : i < w
    · simp [hi]
    · rw [testBit_of_lt hrest (not_lt.mp hi), Bool.or_false]
  · obtain ⟨x, hx, y, hy, hxy⟩ := hasComplement_spec ht hkept hc
    rw [orAll_complement hall (mem_cons_of_mem _ (mem_map_of_mem hx))
      (mem_cons_of_mem _ (mem_map_of_mem hy)) hxy]
    exact means_mkOnes hpos
  · refine means_mkConst (hs2 ▸ hpos) hs2 ?_
    rw [hnil]
    simp [orAll]
  · exact means_rewriteOr hB hnil hkept hs2

end NeverD.Sym
