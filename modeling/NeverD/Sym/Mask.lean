import NeverD.Sym.Builders

namespace NeverD.Sym
open Lib APInt
open Words List
open Bool (and_eq_true)

variable {mask : APInt}

namespace SymContext

variable (ctx : SymContext)

def hasConstantMask (r : SymRef) : Bool := ctx.op r = .and && ctx.isConst (ctx.operand r 0)

def isScaled (r : SymRef) : Bool :=
  ctx.op r = .mul && ctx.numOperands r = 2 && ctx.isConst (ctx.operand r 0)

def mayRestoreField (r : SymRef) : Bool :=
  ctx.op (if ctx.isScaled r then ctx.operand r 1 else r) = .zext

def fieldPlace (r : SymRef) : Option (Nat × SymRef) :=
  if ctx.isScaled r then
    let factor := ctx.constValue (ctx.operand r 0)
    if factor.isPowerOf2 then some (factor.logBase2, ctx.operand r 1) else none
  else some (0, r)

def fieldMask (w : Nat) (r : SymRef) : APInt × SymRef :=
  let mask := APInt.lowBitsSet w (ctx.width r)
  if ctx.hasConstantMask r && ctx.numOperands r = 2 then
    (mask.and ((ctx.constValue (ctx.operand r 0)).zextOrTrunc w), ctx.operand r 1)
  else (mask, r)

def fieldSource (r : SymRef) : Option (Nat × SymRef) :=
  if ctx.op r ≠ .extract then none
  else
    let word := ctx.operand r 0
    if ctx.op word = .lshr && ctx.isConst (ctx.operand word 1) then
      let count := ctx.constValue (ctx.operand word 1)
      if ctx.width word ≤ count.toNat then none
      else some (ctx.aux r + count.toNat, ctx.operand word 0)
    else some (ctx.aux r, word)

def restoredField (r : SymRef) : Option (SymRef × APInt) :=
  (ctx.fieldPlace r).bind fun place =>
    if ctx.op place.2 ≠ .zext then none
    else
      let masked := ctx.fieldMask (ctx.width r) (ctx.operand place.2 0)
      (ctx.fieldSource masked.2).bind fun source =>
        if ctx.width source.2 ≠ ctx.width r ∨ source.1 ≠ place.1 then none
        else some (source.2, masked.1.shl place.1)

def maskedView (r : SymRef) : Option (List SymRef × APInt) :=
  if ctx.hasConstantMask r then
    some ((ctx.operands r).drop 1, ctx.constValue (ctx.operand r 0))
  else (ctx.restoredField r).map fun field =>
    if ctx.op field.1 = .and then
      ((ctx.operands field.1).filter fun c => !ctx.isConst c,
        ((ctx.operands field.1).filter ctx.isConst).foldl (fun m c => m.and (ctx.constValue c))
        field.2)
    else ([field.1], field.2)

structure MaskScan where
  count : Nat := 0
  commonBits : Nat := ones 64
  hasFields : Bool := false

def scanMasks (requireDisjoint : Bool) : List SymRef → MaskScan → MaskScan
  | [], scan => scan
  | r :: rs, scan =>
    let next :=
      if ctx.hasConstantMask r then
        { scan with
          count := scan.count + 1
          commonBits := if requireDisjoint then
            scan.commonBits &&& (ctx.constValue (ctx.operand r 0)).word 0 else scan.commonBits }
      else if ctx.mayRestoreField r then { scan with count := scan.count + 1, hasFields := true }
      else scan
    if next.count = scan.count then scanMasks requireDisjoint rs scan
    else if 2 ≤ next.count ∧ (!requireDisjoint ∨ next.hasFields ∨ next.commonBits = 0) then next
    else scanMasks requireDisjoint rs next

end SymContext

abbrev MaskedTerm := SymRef × Option (List SymRef × APInt)

def joinMasks : List APInt → APInt × Bool → APInt × Bool
  | [], group => group
  | m :: ms, group => joinMasks ms (group.1.or m, group.2 || !(group.1.and m).isZero)

def masksOf (source : List SymRef) (terms : List MaskedTerm) : List APInt :=
  terms.filterMap fun t => t.2.bind fun view => if view.1 = source then some view.2 else none

def showsSource (source : List SymRef) (t : MaskedTerm) : Bool :=
  t.2.any fun view => view.1 = source

/-- Put one term in place of the first term of a group, and drop the others. -/
def replaceGroup (source : List SymRef) (r : SymRef) : List MaskedTerm → List MaskedTerm
  | [] => []
  | t :: ts =>
    if showsSource source t then (r, none) :: ts.filter fun u => !showsSource source u
    else t :: replaceGroup source r ts

section

variable [BlockHash]

def internMaskedSource (source : List SymRef) (mask : APInt) : Build SymRef :=
  if source = [] then Build.stop
  else if mask.isZero then Build.mkZero mask.width
  else if mask.isAllOnes then
    if source.length = 1 then pure (source.getD 0 0)
    else Build.intern .and mask.width source 0
  else do
    let c ← Build.mkConst mask
    Build.intern .and mask.width (c :: source) 0

def mergeGroup (requireDisjoint : Bool) (source : List SymRef) (terms : List MaskedTerm) :
    Build (List MaskedTerm) :=
  match masksOf source terms with
  | first :: second :: rest =>
    let group := joinMasks (second :: rest) (first, false)
    if requireDisjoint && group.2 then pure terms
    else do
      let r ← internMaskedSource source group.1
      pure (replaceGroup source r terms)
  | _ => pure terms

def mergeGroups (requireDisjoint : Bool) : List (List SymRef) → List MaskedTerm →
    Build (List MaskedTerm)
  | [], terms => pure terms
  | source :: sources, terms => do
    let next ← mergeGroup requireDisjoint source terms
    mergeGroups requireDisjoint sources next

def mergeMaskedOperands (terms : List SymRef) (requireDisjoint : Bool) :
    Build (List SymRef × Bool) := do
  let ctx ← Build.context
  let scan := ctx.scanMasks requireDisjoint terms {}
  if scan.count < 2 ∨ (requireDisjoint ∧ !scan.hasFields ∧ scan.commonBits ≠ 0) then
    pure (terms, false)
  else do
    let views : List MaskedTerm := terms.map fun r => (r, ctx.maskedView r)
    let sources := ((views.filterMap fun t => t.2.map Prod.fst).dedup).insertionSort (· ≤ ·)
    let merged ← mergeGroups requireDisjoint sources views
    pure (merged.map Prod.fst, merged.length ≠ terms.length)

/-- A term's masked word, if its mask keeps all the bits that are seen. -/
def SymContext.coveredBase (ctx : SymContext) (mask : APInt) (term : SymRef) : Option SymRef :=
  let base := if ctx.isScaled term then ctx.operand term 1 else term
  if ctx.hasConstantMask base && ((ctx.constValue (ctx.operand base 0)).and mask = mask) then
    some base
  else none

def addCount (key : SymRef) (c : APInt) : List (SymRef × APInt) → List (SymRef × APInt)
  | [] => [(key, c)]
  | p :: counts => if p.1 = key then (key, p.2.add c) :: counts else p :: addCount key c counts

def countTerms (mask : APInt) : List SymRef → List (SymRef × APInt) → Build (List (SymRef × APInt))
  | [], counts => pure counts
  | term :: terms, counts => do
    let ctx ← Build.context
    match ctx.coveredBase mask term with
    | none => countTerms mask terms (addCount term (APInt.ofNat mask.width 1) counts)
    | some base => do
      let source ← internMaskedSource ((ctx.operands base).drop 1) (APInt.allOnes mask.width)
      let coeff := if base ≠ term then ctx.constValue (ctx.operand term 0)
        else APInt.ofNat mask.width 1
      countTerms mask terms (addCount source coeff counts)

def scaledTerm (B : Builders) (count : APInt) (source : SymRef) : Build SymRef :=
  if count.isOne then pure source
  else do
    let c ← Build.mkConst count
    B.mkMul [c, source]

def simplifyLowMaskedAdd (B : Builders) (sum : SymRef) (mask : APInt) : Build SymRef := do
  let ctx ← Build.context
  if ctx.op sum ≠ .add ∨ !mask.isMask ∨ mask.isAllOnes then pure sum
  else if !(ctx.operands sum).any fun r => (ctx.coveredBase mask r).isSome then pure sum
  else do
    let counts ← countTerms mask (ctx.operands sum) []
    let kept := (counts.insertionSort fun p q => p.1 ≤ q.1).filter fun p => !p.2.isZero
    let terms ← Build.each (fun p => scaledTerm B p.2 p.1) kept
    if terms = [] then Build.mkZero mask.width else B.mkAdd terms

end

def matchingShiftPower (ctx : SymContext) (count : SymRef) (factor : APInt) : Option Nat :=
  if factor.isPowerOf2 && ctx.isConst count && (ctx.constValue count).toNat = factor.logBase2 then
    some factor.logBase2
  else none

lemma lowBitsSet_toNat {w n : Nat} (hn : n ≤ w) : (lowBitsSet w n).toNat = ones n := by
  rw [lowBitsSet, ofNat_toNat, Nat.mod_eq_of_lt]
  exact (ones_lt n).trans_le (Nat.pow_le_pow_right two_pos hn)

lemma toNat_zextOrTrunc (a : APInt) (n : Nat) : (a.zextOrTrunc n).toNat = a.toNat % 2 ^ n :=
  BitVec.toNat_setWidth ..

lemma toNat_shl (a : APInt) (n : Nat) : (a.shl n).toNat = a.toNat * 2 ^ n % 2 ^ a.width := by
  show (a.bits <<< n).toNat = _
  rw [BitVec.toNat_shiftLeft, Nat.shiftLeft_eq]
  rfl

lemma toNat_lshr (a : APInt) (n : Nat) : (a.lshr n).toNat = a.toNat / 2 ^ n := by
  show (a.bits >>> n).toNat = _
  rw [BitVec.toNat_ushiftRight, Nat.shiftRight_eq_div_pow]
  rfl

lemma toNat_extractBits (a : APInt) (n low : Nat) :
    (a.extractBits n low).toNat = slice low n a.toNat := by
  show (a.bits.extractLsb' low n).toNat = _
  rw [BitVec.extractLsb'_toNat, Nat.shiftRight_eq_div_pow]
  rfl

lemma toNat_of_isAllOnes {a : APInt} (h : a.isAllOnes = true) : a.toNat = ones a.width := by
  have hb : a.bits = BitVec.allOnes a.width := of_decide_eq_true h
  rw [APInt.toNat, hb]
  exact BitVec.toNat_allOnes

lemma toNat_of_isZero {a : APInt} (h : a.isZero = true) : a.toNat = 0 := of_decide_eq_true h

lemma toNat_of_isOne {a : APInt} (h : a.isOne = true) : a.toNat = 1 := of_decide_eq_true h

lemma toNat_neg (a : APInt) : a.neg.toNat = negOf a.width a.toNat := by
  rw [neg, ofNat_toNat]
  rfl

section

variable [BlockHash] {last : SymContext} {vals : List APInt} {s : SymBuilder} {r : SymRef} {w : Nat}

variable (h : At last vals s)
include h

lemma At.masked (hr : Has s r w) (hm : s.ctx.hasConstantMask r = true) :
    s.ctx.operands r = s.ctx.operand r 0 :: (s.ctx.operands r).drop 1 ∧
      Has s (s.ctx.operand r 0) w ∧
      s.ctx.isConst (s.ctx.operand r 0) = true ∧ (∀ c ∈ (s.ctx.operands r).drop 1, Has s c w) ∧
      last.num vals r = (s.ctx.constValue (s.ctx.operand r 0)).toNat &&&
        andAll w (((s.ctx.operands r).drop 1).map (last.num vals)) := by
  rw [SymContext.hasConstantMask, and_eq_true, decide_eq_true_eq] at hm
  obtain ⟨hne, hall⟩ := h.nary hr (by simp [hm.1])
  have hops : s.ctx.operands r = s.ctx.operand r 0 :: (s.ctx.operands r).drop 1 := by
    unfold SymContext.operand
    obtain ⟨c, cs, hcs⟩ := exists_cons_of_ne_nil hne
    rw [hcs]
    rfl
  have h0 : Has s (s.ctx.operand r 0) w := hall _ (by rw [hops]; exact mem_cons_self ..)
  refine ⟨hops, h0, hm.2, fun c hc => hall c (mem_of_mem_drop hc), ?_⟩
  rw [h.and_num hr hm.1, ← h.const_num h0 hm.2]
  conv_lhs => rw [hops]
  rfl

lemma At.scaled (hr : Has s r w) (hm : s.ctx.isScaled r = true) :
    Has s (s.ctx.operand r 0) w ∧ s.ctx.isConst (s.ctx.operand r 0) = true ∧
      Has s (s.ctx.operand r 1) w ∧ s.ctx.operands r = [s.ctx.operand r 0, s.ctx.operand r 1] ∧
      last.num vals r = (s.ctx.constValue (s.ctx.operand r 0)).toNat *
      last.num vals (s.ctx.operand r 1) % 2 ^ w := by
  rw [SymContext.isScaled, and_eq_true, and_eq_true, decide_eq_true_eq, decide_eq_true_eq] at hm
  obtain ⟨⟨hop, hlen⟩, hc⟩ := hm
  obtain ⟨-, hall⟩ := h.nary hr (by simp [hop])
  have hops : s.ctx.operands r = [s.ctx.operand r 0, s.ctx.operand r 1] := by
    unfold SymContext.operand
    unfold SymContext.numOperands at hlen
    obtain ⟨a, b, hab⟩ := length_eq_two.mp hlen
    rw [hab]
    rfl
  have h0 : Has s (s.ctx.operand r 0) w := hall _ (by rw [hops]; exact mem_cons_self ..)
  have h1 : Has s (s.ctx.operand r 1) w := hall _ (by rw [hops]; simp)
  refine ⟨h0, hc, h1, hops, ?_⟩
  rw [h.mul_num hr hop, ← h.const_num h0 hc]
  conv_lhs => rw [hops]
  simp [mulAll]

lemma fieldPlace_spec (hr : Has s r w) {place : Nat × SymRef}
    (hp : s.ctx.fieldPlace r = some place) :
    Has s place.2 w ∧ last.num vals r = last.num vals place.2 * 2 ^ place.1 % 2 ^ w := by
  unfold SymContext.fieldPlace at hp
  split at hp
  next hs =>
    obtain ⟨-, -, h1, -, hnum⟩ := h.scaled hr hs
    dsimp only at hp
    split at hp
    next hpow =>
      cases hp
      refine ⟨h1, ?_⟩
      rw [hnum, toNat_of_isPowerOf2 hpow, mul_comm]
    · cases hp
  · cases hp
    refine ⟨hr, ?_⟩
    rw [pow_zero, mul_one, Nat.mod_eq_of_lt (h.lt hr)]

lemma fieldMask_spec {v : Nat} (hr : Has s r v) (hv : v ≤ w) :
    Has s (s.ctx.fieldMask w r).2 v ∧ (s.ctx.fieldMask w r).1.width = w ∧
      (s.ctx.fieldMask w r).1.toNat < 2 ^ v ∧
      last.num vals r = last.num vals (s.ctx.fieldMask w r).2 &&&
      (s.ctx.fieldMask w r).1.toNat := by
  have hone : (lowBitsSet w (s.ctx.width r)).toNat = ones v := by
    rw [hr.2]
    exact lowBitsSet_toNat hv
  unfold SymContext.fieldMask
  split
  next hm =>
    rw [and_eq_true, decide_eq_true_eq] at hm
    obtain ⟨hops, h0, hc, hrest, hnum⟩ := h.masked hr hm.1
    have hlen : ((s.ctx.operands r).drop 1).length = 1 := by
      rw [length_drop]
      unfold SymContext.numOperands at hm
      omega
    obtain ⟨a, ha⟩ := length_eq_one_iff.mp hlen
    have h1 : s.ctx.operand r 1 = a := by
      unfold SymContext.operand
      rw [hops, ha]
      rfl
    have hcw := h.const_width h0 hc
    have h1' : Has s a v := hrest a (by rw [ha]; exact mem_cons_self ..)
    have hlt := (s.ctx.constValue (s.ctx.operand r 0)).toNat_lt
    rw [hcw] at hlt
    have hmask : ((lowBitsSet w (s.ctx.width r)).and
          ((s.ctx.constValue (s.ctx.operand r 0)).zextOrTrunc w)).toNat =
          (s.ctx.constValue (s.ctx.operand r 0)).toNat := by
      rw [toNat_and (by rfl), hone, toNat_zextOrTrunc,
        Nat.mod_eq_of_lt (hlt.trans_le (Nat.pow_le_pow_right two_pos hv)), Nat.and_comm,
        and_ones hlt]
    refine ⟨by rw [h1]; exact h1', rfl, by rw [hmask]; exact hlt, ?_⟩
    rw [hmask, hnum, ha, h1]
    show _ &&& (last.num vals a &&& ones v) = _
    rw [and_ones (h.lt h1'), Nat.and_comm]
  · refine ⟨hr, rfl, by rw [hone]; exact ones_lt v, ?_⟩
    rw [hone, and_ones (h.lt hr)]

lemma fieldSource_spec {v : Nat} (hr : Has s r v) {source : Nat × SymRef}
    (hf : s.ctx.fieldSource r = some source) :
    Has s source.2 (s.ctx.width source.2) ∧
      last.num vals r = slice source.1 v (last.num vals source.2) := by
  unfold SymContext.fieldSource at hf
  split at hf
  · cases hf
  next hop =>
    obtain ⟨-, hword, hle, hnum⟩ := h.extract_num hr (not_not.mp hop)
    dsimp only at hf
    split at hf
    next hs =>
      rw [and_eq_true, decide_eq_true_eq] at hs
      obtain ⟨h0, h1, hsnum⟩ := h.lshr_num hword hs.1
      split at hf
      · cases hf
      · cases hf
        refine ⟨⟨h0.1, rfl⟩, ?_⟩
        rw [hnum, hsnum, h.const_num h1 hs.2, Nat.div_div_eq_div_mul, ← pow_add, add_comm]
        rfl
    · cases hf
      exact ⟨hword, hnum⟩

theorem restoredField_spec (hr : Has s r w) {field : SymRef × APInt}
    (hf : s.ctx.restoredField r = some field) :
    Has s field.1 w ∧ field.2.width = w ∧
      last.num vals r = last.num vals field.1 &&& field.2.toNat := by
  obtain ⟨place, hplace, hf⟩ := Option.bind_eq_some_iff.mp hf
  split at hf
  · cases hf
  rename_i hop
  obtain ⟨source, hsource, hf⟩ := Option.bind_eq_some_iff.mp hf
  split at hf
  · cases hf
  rename_i hsame
  cases hf
  rw [not_or, not_not, not_not, hr.2] at hsame
  obtain ⟨hp, hpnum⟩ := fieldPlace_spec h hr hplace
  obtain ⟨-, hz, hzw, hznum⟩ := h.zext_num hp (not_not.mp hop)
  obtain ⟨hm, hmw, hmlt, hmnum⟩ := fieldMask_spec h hz hzw.le
  rw [hr.2] at hsource ⊢
  obtain ⟨hs, hsnum⟩ := fieldSource_spec h hm hsource
  refine ⟨⟨hs.1, hsame.1⟩, hmw, ?_⟩
  rw [toNat_shl, hmw, hpnum, hznum, hmnum, hsnum, hsame.2]
  apply Nat.eq_of_testBit_eq
  intro i
  rw [testBit_shl, Nat.testBit_and, Nat.testBit_and, testBit_shl, testBit_slice]
  by_cases hi : place.1 ≤ i
  · rw [show place.1 + (i - place.1) = i by omega]
    by_cases hv : i - place.1 < s.ctx.width (s.ctx.operand place.2 0)
    · simp only [hi, hv, decide_true, Bool.true_and]
      cases decide (i < w) with
      | true => simp
      | false => simp
    · rw [testBit_of_lt hmlt (not_lt.mp hv)]
      simp
  · simp [hi]

lemma foldl_masks {cs : List SymRef} (hc : ∀ c ∈ cs, Has s c w) {m : APInt} (hm : m.width = w) :
    ((cs.filter s.ctx.isConst).foldl (fun m c => m.and (s.ctx.constValue c)) m).width = w ∧
      andAll w ((cs.filter fun c => !s.ctx.isConst c).map (last.num vals)) &&&
        ((cs.filter s.ctx.isConst).foldl (fun m c => m.and (s.ctx.constValue c)) m).toNat =
      andAll w (cs.map (last.num vals)) &&& m.toNat := by
  induction cs generalizing m with
  | nil => exact ⟨hm, rfl⟩
  | cons c cs ih =>
    have hcs := fun d hd => hc d (mem_cons_of_mem _ hd)
    have hcw := hc c (mem_cons_self ..)
    cases hconst : s.ctx.isConst c with
    | true =>
      have hvw := h.const_width hcw hconst
      obtain ⟨h1, h2⟩ := ih hcs (show (m.and (s.ctx.constValue c)).width = w from hm)
      rw [filter_cons_of_pos hconst, filter_cons_of_neg (by simp [hconst]), foldl_cons]
      refine ⟨h1, h2.trans ?_⟩
      rw [toNat_and (hvw.trans hm.symm), map_cons, andAll_cons, h.const_num hcw hconst,
        Nat.and_comm m.toNat, ← Nat.and_assoc]
      congr 1
      exact Nat.and_comm ..
    | false =>
      obtain ⟨h1, h2⟩ := ih hcs hm
      rw [filter_cons_of_neg (by simp [hconst]), filter_cons_of_pos (by simp [hconst])]
      refine ⟨h1, ?_⟩
      rw [map_cons, map_cons, andAll_cons, andAll_cons, Nat.and_assoc, h2, Nat.and_assoc]

lemma maskedView_spec (hr : Has s r w) {view : List SymRef × APInt}
    (hv : s.ctx.maskedView r = some view) : (∀ c ∈ view.1, Has s c w) ∧ view.2.width = w ∧
      last.num vals r = andAll w (view.1.map (last.num vals)) &&& view.2.toNat := by
  unfold SymContext.maskedView at hv
  split at hv
  next hm =>
    cases hv
    obtain ⟨-, h0, hc, hrest, hnum⟩ := h.masked hr hm
    exact ⟨hrest, h.const_width h0 hc, hnum.trans (Nat.and_comm ..)⟩
  · obtain ⟨field, hf, rfl⟩ := Option.map_eq_some_iff.mp hv
    obtain ⟨hf1, hfw, hfnum⟩ := restoredField_spec h hr hf
    split
    next hop =>
      obtain ⟨-, hall⟩ := h.nary hf1 (by simp [hop])
      obtain ⟨h1, h2⟩ := foldl_masks h hall hfw
      refine ⟨fun c hc => hall c (mem_of_mem_filter hc), h1, ?_⟩
      rw [hfnum, h.and_num hf1 hop]
      exact h2.symm
    · refine ⟨fun c hc => ?_, hfw, ?_⟩
      · rw [mem_singleton.mp hc]
        exact hf1
      · rw [hfnum]
        congr 1
        exact (and_ones (h.lt hf1)).symm

end

section

variable [BlockHash] {last : SymContext} {vals : List APInt} {s : SymBuilder} {w : Nat}

lemma means_internMaskedSource {source : List SymRef} (hs : ∀ c ∈ source, Has s c w)
    (hm : mask.width = w) : Means last vals s (internMaskedSource source mask) w
      (andAll w (source.map (last.num vals)) &&& mask.toNat) := by
  apply means_of_at
  intro h
  refine means_ite (fun _ => means_stop) fun hne => ?_
  have hlt := andAll_lt w (source.map (last.num vals))
  obtain ⟨c, cs, rfl⟩ := exists_cons_of_ne_nil hne
  have hw : 0 < w := h.pos (hs c (mem_cons_self ..))
  rw [hm]
  refine means_ite (fun hz => ?_) fun hz => means_ite (fun ho => ?_) fun ho => ?_
  · have h0 : mask.toNat = 0 := of_decide_eq_true hz
    rw [h0, Nat.and_zero]
    exact means_mkZero hw
  · have hones : mask.toNat = ones w := by rw [toNat_of_isAllOnes ho, hm]
    rw [hones, and_ones hlt]
    refine means_ite (fun hlen => ?_) fun hlen => means_nary .and (by rfl) ?_ hs
    obtain rfl : cs = [] := length_eq_zero_iff.mp (by simpa using hlen)
    refine means_pure fun h => ⟨hs c (mem_cons_self ..), ?_⟩
    exact (and_ones (h.lt (hs c (mem_cons_self ..)))).symm
    rw [length_cons] at hlen ⊢
    omega
  · refine means_bind (means_mkConst (hm ▸ hw) hm rfl) ?_
    intro m t ht he hmt
    refine (means_nary .and (by rfl) (Nat.le_add_left 2 _) ?_).congr ?_
    · intro d hd
      rcases mem_cons.mp hd with rfl | hd
      · exact hmt.1
      · exact (hs d hd).mono he
    · show andAll w (last.num vals m :: _) = _
      rw [andAll_cons, hmt.2, Nat.and_comm]

omit [BlockHash] in
lemma joinMasks_spec {ms : List APInt} (hm : ∀ m ∈ ms, m.width = w) {group : APInt × Bool}
    (hg : group.1.width = w) (x : Nat) : (joinMasks ms group).1.width = w ∧
        x &&& (joinMasks ms group).1.toNat =
        (x &&& group.1.toNat) ||| orAll (ms.map fun m => x &&& m.toNat) ∧
      ((joinMasks ms group).2 = false → group.2 = false ∧ x &&& (joinMasks ms group).1.toNat =
          (x &&& group.1.toNat) + (ms.map fun m => x &&& m.toNat).sum) := by
  induction ms generalizing group with
  | nil => exact ⟨hg, by simp [joinMasks, orAll], fun h => ⟨h, by simp [joinMasks]⟩⟩
  | cons m ms ih =>
    have hmw := (hm m (mem_cons_self ..)).trans hg.symm
    obtain ⟨h1, h2, h3⟩ := ih (fun n hn => hm n (mem_cons_of_mem _ hn))
      (show (group.1.or m, group.2 || !(group.1.and m).isZero).1.width = w from hg)
    have hor : (group.1.or m).toNat = group.1.toNat ||| m.toNat := toNat_or hmw
    refine ⟨h1, ?_, fun hf => ?_⟩
    · rw [joinMasks, h2]
      rw [hor, and_or_distrib, Nat.or_assoc]
      rfl
    · obtain ⟨h4, h5⟩ := h3 hf
      rw [Bool.or_eq_false_iff, Bool.not_eq_false'] at h4
      have hzero : group.1.toNat &&& m.toNat = 0 := by
        rw [← toNat_and hmw]
        exact toNat_of_isZero h4.2
      refine ⟨h4.1, ?_⟩
      rw [joinMasks, h5]
      rw [hor, ← and_add_and hzero, add_assoc]
      rfl

/-- Every term is in the graph, and is its source under its mask when it is grouped. -/
def TermsOk (last : SymContext) (vals : List APInt) (s : SymBuilder) (w : Nat)
    (terms : List MaskedTerm) : Prop :=
  ∀ t ∈ terms, Has s t.1 w ∧ ∀ view, t.2 = some view → (∀ c ∈ view.1, Has s c w) ∧
    view.2.width = w ∧ last.num vals t.1 = andAll w (view.1.map (last.num vals)) &&& view.2.toNat

variable {terms : List MaskedTerm}

omit [BlockHash] in
lemma TermsOk.mono (h : TermsOk last vals s w terms) {t : SymBuilder}
    (he : s.ctx.Extends t.ctx) : TermsOk last vals t w terms := by
  intro u hu
  obtain ⟨h1, h2⟩ := h u hu
  refine ⟨h1.mono he, fun view hv => ?_⟩
  obtain ⟨h3, h4, h5⟩ := h2 view hv
  exact ⟨fun c hc => (h3 c hc).mono he, h4, h5⟩

omit [BlockHash] in
lemma TermsOk.masks (h : TermsOk last vals s w terms) (source : List SymRef) :
    (∀ m ∈ masksOf source terms, m.width = w) ∧
        ((terms.filter (showsSource source)).map fun t => last.num vals t.1) =
        (masksOf source terms).map fun m => andAll w (source.map (last.num vals)) &&& m.toNat := by
  induction terms with
  | nil => exact ⟨forall_mem_nil _, rfl⟩
  | cons t terms ih =>
    obtain ⟨ih1, ih2⟩ := ih fun u hu => h u (mem_cons_of_mem _ hu)
    obtain ⟨r, view⟩ := t
    have ht := (h _ (mem_cons_self ..)).2
    have hskip : showsSource source (r, view) = false →
        masksOf source ((r, view) :: terms) = masksOf source terms := by
      intro hs
      unfold masksOf
      rw [filterMap_cons_none]
      cases view with
      | none => rfl
      | some v =>
        simp only [showsSource, Option.any_some, decide_eq_false_iff_not] at hs
        simp [hs]
    cases hs : showsSource source (r, view) with
    | false =>
      rw [hskip hs, filter_cons_of_neg (by simp [hs])]
      exact ⟨ih1, ih2⟩
    | true =>
      cases view with
      | none => simp [showsSource] at hs
      | some v =>
        simp only [showsSource, Option.any_some, decide_eq_true_eq] at hs
        subst hs
        obtain ⟨-, hvw, hnum⟩ := ht v rfl
        have hcons : masksOf v.1 ((r, some v) :: terms) = v.2 :: masksOf v.1 terms := by
          unfold masksOf
          rw [filterMap_cons_some]
          simp
        rw [hcons, filter_cons_of_pos (by simp [showsSource])]
        refine ⟨?_, ?_⟩
        · intro m hm
          rcases mem_cons.mp hm with rfl | hm
          · exact hvw
          · exact ih1 m hm
        · rw [map_cons, map_cons, ih2, hnum]

omit [BlockHash] in
lemma replaceGroup_perm (source : List SymRef) (r : SymRef)
    (h : terms.filter (showsSource source) ≠ []) :
    (replaceGroup source r terms).Perm ((r, none) :: terms.filter fun t =>
      !showsSource source t) := by
  induction terms with
  | nil => exact absurd rfl h
  | cons t terms ih =>
    rw [replaceGroup]
    cases hs : showsSource source t with
    | true => simp [hs]
    | false =>
      rw [filter_cons_of_neg (by simp [hs])] at h
      rw [filter_cons_of_pos (by simp [hs])]
      exact ((ih h).cons t).trans (.swap ..)

/-- Merging a group keeps the union of the terms, and their sum when no masks overlap. -/
theorem mergeGroup_spec (requireDisjoint : Bool) (source : List SymRef)
    (hok : TermsOk last vals s w terms) :
    Triple last vals s (mergeGroup requireDisjoint source terms) fun merged t =>
        TermsOk last vals t w merged ∧
        orAll (merged.map fun u => last.num vals u.1) =
        orAll (terms.map fun u => last.num vals u.1) ∧ (requireDisjoint = true →
          (merged.map fun u => last.num vals u.1).sum =
          (terms.map fun u => last.num vals u.1).sum) := by
  have hsame : Triple last vals s (pure terms) fun merged t =>
      TermsOk last vals t w merged ∧
        orAll (merged.map fun u => last.num vals u.1) =
        orAll (terms.map fun u => last.num vals u.1) ∧
        (requireDisjoint = true →
          (merged.map fun u => last.num vals u.1).sum =
          (terms.map fun u => last.num vals u.1).sum) :=
    triple_pure fun _ => ⟨hok, rfl, fun _ => rfl⟩
  obtain ⟨hmw, hshown⟩ := hok.masks source
  unfold mergeGroup
  split
  next first second rest hmasks =>
    rw [hmasks] at hmw hshown
    obtain ⟨hjw, hjor, hjsum⟩ := joinMasks_spec (fun m hm => hmw m (mem_cons_of_mem _ hm))
      (show (first, false).1.width = w from hmw first (mem_cons_self ..))
      (andAll w (source.map (last.num vals)))
    refine triple_ite (fun _ => hsame) fun hd => ?_
    have hne : terms.filter (showsSource source) ≠ [] := by
      intro hnil
      rw [hnil] at hshown
      cases hshown
    have hsrc : ∀ c ∈ source, Has s c w := by
      obtain ⟨t, ht⟩ := exists_mem_of_ne_nil _ hne
      obtain ⟨htm, hts⟩ := mem_filter.mp ht
      obtain ⟨r, view⟩ := t
      cases view with
      | none => simp [showsSource] at hts
      | some v =>
        simp only [showsSource, Option.any_some, decide_eq_true_eq] at hts
        subst hts
        exact ((hok _ htm).2 v rfl).1
    refine triple_bind (means_internMaskedSource hsrc hjw) ?_
    intro r t _ he hr
    apply triple_pure
    intro _
    have hperm := replaceGroup_perm source r hne
    have hpart := filter_append_perm (showsSource source) terms
    have hmap := (hperm.map fun u => last.num vals u.1)
    have hmap' := (hpart.map fun u => last.num vals u.1)
    refine ⟨?_, ?_, fun hdis => ?_⟩
    · intro u hu
      rcases mem_cons.mp (hperm.mem_iff.mp hu) with rfl | hu
      · exact ⟨hr.1, fun view hv => (nomatch hv)⟩
      · exact (hok.mono he) u (mem_of_mem_filter hu)
    · rw [orAll_perm hmap, ← orAll_perm hmap', map_append, orAll_append, hshown]
      show last.num vals r ||| _ = _
      rw [hr.2, hjor]
      rfl
    · rw [hmap.sum_eq, ← hmap'.sum_eq, map_append, sum_append, hshown]
      show last.num vals r + _ = _
      have hflag : (joinMasks (second :: rest) (first, false)).2 = false := by
        rw [hdis, Bool.true_and] at hd
        simpa using hd
      rw [hr.2, (hjsum hflag).2]
      rfl
  · exact hsame

lemma mergeGroups_spec (requireDisjoint : Bool) (sources : List (List SymRef))
    (hok : TermsOk last vals s w terms) :
    Triple last vals s (mergeGroups requireDisjoint sources terms) fun merged t =>
        TermsOk last vals t w merged ∧
        orAll (merged.map fun u => last.num vals u.1) =
        orAll (terms.map fun u => last.num vals u.1) ∧ (requireDisjoint = true →
          (merged.map fun u => last.num vals u.1).sum =
          (terms.map fun u => last.num vals u.1).sum) := by
  induction sources generalizing s terms with
  | nil => exact triple_pure fun _ => ⟨hok, rfl, fun _ => rfl⟩
  | cons source sources ih =>
    refine triple_bind (mergeGroup_spec requireDisjoint source hok) ?_
    intro next t _ _ hnext
    refine triple_mono (ih hnext.1) ?_
    intro merged u _ _ hm
    exact ⟨hm.1, hm.2.1.trans hnext.2.1, fun hd => (hm.2.2 hd).trans (hnext.2.2 hd)⟩

lemma mergeMaskedOperands_spec {terms : List SymRef} (requireDisjoint : Bool)
    (ht : ∀ r ∈ terms, Has s r w) :
    Triple last vals s (mergeMaskedOperands terms requireDisjoint) fun merged t =>
        (∀ r ∈ merged.1, Has t r w) ∧
        orAll (merged.1.map (last.num vals)) = orAll (terms.map (last.num vals)) ∧
        (requireDisjoint = true →
          (merged.1.map (last.num vals)).sum = (terms.map (last.num vals)).sum) := by
  apply triple_context
  intro h
  refine triple_ite (fun _ => triple_pure fun _ => ⟨ht, rfl, fun _ => rfl⟩) fun _ => ?_
  have hok : TermsOk last vals s w (terms.map fun r => (r, s.ctx.maskedView r)) := by
    intro t htm
    obtain ⟨r, hr, rfl⟩ := mem_map.mp htm
    exact ⟨ht r hr, fun view hv => maskedView_spec h (ht r hr) hv⟩
  refine triple_bind (mergeGroups_spec requireDisjoint _ hok) ?_
  intro merged t _ _ hm
  apply triple_pure
  intro _
  rw [map_map] at hm
  refine ⟨?_, ?_, ?_⟩
  · intro r hr
    obtain ⟨u, hu, rfl⟩ := mem_map.mp hr
    exact (hm.1 u hu).1
  · rw [map_map]
    exact hm.2.1
  · rw [map_map]
    exact hm.2.2

end

variable [BlockHash] {last : SymContext} {vals : List APInt} {s : SymBuilder} {w : Nat}

def countSum (num : SymRef → Nat) (counts : List (SymRef × APInt)) : Nat :=
  (counts.map fun p => p.2.toNat * num p.1).sum

/-- The counted addends are in the graph, and the counts have the width of the sum. -/
def CountsOk (s : SymBuilder) (w : Nat) (counts : List (SymRef × APInt)) : Prop :=
  ∀ p ∈ counts, Has s p.1 w ∧ p.2.width = w

variable {counts : List (SymRef × APInt)}

omit [BlockHash] in
lemma CountsOk.mono (h : CountsOk s w counts) {t : SymBuilder} (he : s.ctx.Extends t.ctx) :
    CountsOk t w counts :=
  fun p hp => ⟨(h p hp).1.mono he, (h p hp).2⟩

omit [BlockHash] in
lemma addCount_ok (h : CountsOk s w counts) {key : SymRef} {c : APInt}
    (hk : Has s key w) (hc : c.width = w) : CountsOk s w (addCount key c counts) := by
  induction counts with
  | nil =>
    intro p hp
    rw [mem_singleton.mp hp]
    exact ⟨hk, hc⟩
  | cons q counts ih =>
    have hq := h q (mem_cons_self ..)
    have hrest := fun p hp => h p (mem_cons_of_mem _ hp)
    rw [addCount]
    split
    · intro p hp
      rcases mem_cons.mp hp with rfl | hp
      · exact ⟨hk, hq.2⟩
      · exact hrest p hp
    · intro p hp
      rcases mem_cons.mp hp with rfl | hp
      · exact hq
      · exact ih hrest p hp

omit [BlockHash] in
lemma addCount_sum (num : SymRef → Nat) (h : CountsOk s w counts) (key : SymRef) {c : APInt}
    (hc : c.width = w) :
    countSum num (addCount key c counts) ≡ countSum num counts + c.toNat * num key [MOD 2 ^ w] := by
  induction counts with
  | nil => exact Nat.ModEq.rfl.trans (by rw [addCount, countSum, countSum]; simp; rfl)
  | cons q counts ih =>
    rw [addCount]
    split
    next hqk =>
      have hq := (h q (mem_cons_self ..)).2
      show (q.2.add c).toNat * num key + countSum num counts ≡
        q.2.toNat * num q.1 + countSum num counts + c.toNat * num key [MOD 2 ^ w]
      rw [toNat_add (hc.trans hq.symm), hq, hqk]
      have hmod := ((Nat.mod_modEq (q.2.toNat + c.toNat) (2 ^ w)).mul_right (num key)).add_right
        (countSum num counts)
      refine hmod.trans ?_
      rw [add_mul]
      have : q.2.toNat * num key + c.toNat * num key + countSum num counts =
          q.2.toNat * num key + countSum num counts + c.toNat * num key := by omega
      rw [this]
    · have hih := ih fun p hp => h p (mem_cons_of_mem _ hp)
      show q.2.toNat * num q.1 + countSum num (addCount key c counts) ≡
        q.2.toNat * num q.1 + countSum num counts + c.toNat * num key [MOD 2 ^ w]
      rw [add_assoc]
      exact hih.add_left _

lemma coveredBase_spec (h : At last vals s) {k : Nat} (hmask : mask.toNat = ones k)
    (hmw : mask.width = w) (hk : k ≤ w) {term base : SymRef} (ht : Has s term w)
    (hc : s.ctx.coveredBase mask term = some base) :
      (∀ c ∈ (s.ctx.operands base).drop 1, Has s c w) ∧
      (if base ≠ term then s.ctx.constValue (s.ctx.operand term 0) else ofNat mask.width 1).width =
      w ∧
      (if base ≠ term then s.ctx.constValue (s.ctx.operand term 0) else ofNat mask.width 1).toNat *
        andAll w (((s.ctx.operands base).drop 1).map (last.num vals)) ≡
          last.num vals term [MOD 2 ^ k] := by
  have hwpos := h.pos ht
  -- a masked word agrees with its factors on the bits that are seen
  have hlow : ∀ b, Has s b w → s.ctx.hasConstantMask b = true →
      (s.ctx.constValue (s.ctx.operand b 0)).and mask = mask →
      (∀ c ∈ (s.ctx.operands b).drop 1, Has s c w) ∧
        andAll w (((s.ctx.operands b).drop 1).map (last.num vals)) ≡
        last.num vals b [MOD 2 ^ k] := by
    intro b hb hm hcover
    obtain ⟨-, h0, hconst, hrest, hnum⟩ := h.masked hb hm
    refine ⟨hrest, ?_⟩
    have hnat := congrArg APInt.toNat hcover
    rw [toNat_and (hmw.trans (h.const_width h0 hconst).symm), hmask] at hnat
    rw [hnum]
    exact (and_mod_of_covers hnat _).symm
  unfold SymContext.coveredBase at hc
  cases hs : s.ctx.isScaled term with
  | true =>
    simp only [hs, if_true] at hc
    split at hc
    next hcond =>
      rw [and_eq_true, decide_eq_true_eq] at hcond
      cases hc
      obtain ⟨h0, hconst, h1, -, hnum⟩ := h.scaled ht hs
      obtain ⟨hrest, hmod⟩ := hlow _ h1 hcond.1 hcond.2
      have hne : s.ctx.operand term 1 ≠ term := by
        intro heq
        rw [SymContext.isScaled, and_eq_true, and_eq_true, decide_eq_true_eq] at hs
        rw [heq, SymContext.hasConstantMask, and_eq_true, decide_eq_true_eq] at hcond
        rw [hs.1.1] at hcond
        exact absurd hcond.1.1 (by decide)
      rw [if_pos hne]
      refine ⟨hrest, h.const_width h0 hconst, ?_⟩
      refine (hmod.mul_left _).trans ?_
      rw [hnum]
      exact ((Nat.mod_modEq _ _).of_dvd (pow_dvd_pow 2 hk)).symm
    · cases hc
  | false =>
    simp only [hs, Bool.false_eq_true, if_false] at hc
    split at hc
    next hcond =>
      rw [and_eq_true, decide_eq_true_eq] at hcond
      cases hc
      obtain ⟨hrest, hmod⟩ := hlow _ ht hcond.1 hcond.2
      refine ⟨hrest, ?_, ?_⟩
      · rw [if_neg (by simp)]
        exact hmw
      · rw [if_neg (by simp), ofNat_toNat, hmw, Nat.mod_eq_of_lt (Nat.one_lt_two_pow (by omega)),
          one_mul]
        exact hmod
    · cases hc

lemma countTerms_spec {k : Nat} (hmask : mask.toNat = ones k) (hmw : mask.width = w)
    (hk : k ≤ w) {terms : List SymRef} (ht : ∀ r ∈ terms, Has s r w) (hcs : CountsOk s w counts) :
    Triple last vals s (countTerms mask terms counts) fun counts' t => CountsOk t w counts' ∧
      countSum (last.num vals) counts' ≡
        countSum (last.num vals) counts + (terms.map (last.num vals)).sum [MOD 2 ^ k] := by
  have hdvd : 2 ^ k ∣ 2 ^ w := pow_dvd_pow 2 hk
  induction terms generalizing s counts with
  | nil => exact triple_pure fun _ => ⟨hcs, .rfl⟩
  | cons term terms ih =>
    apply triple_context
    intro h
    have hterm := ht term (mem_cons_self ..)
    have hrest := fun r hr => ht r (mem_cons_of_mem _ hr)
    have hwpos := h.pos hterm
    split
    · have hone : (ofNat mask.width 1).width = w := hmw
      refine triple_mono (ih hrest (addCount_ok hcs hterm hone)) ?_
      intro counts' t _ _ hres
      refine ⟨hres.1, hres.2.trans ?_⟩
      have hadd := (addCount_sum (last.num vals) hcs term hone).of_dvd hdvd
      have hunit : (ofNat mask.width 1).toNat = 1 := by
        rw [ofNat_toNat, hmw, Nat.mod_eq_of_lt (Nat.one_lt_two_pow (by omega))]
      rw [hunit, one_mul] at hadd
      rw [map_cons, sum_cons, ← add_assoc]
      exact hadd.add_right _
    next base hbase =>
      obtain ⟨hfactors, hcw, hmod⟩ := coveredBase_spec h hmask hmw hk hterm hbase
      refine triple_bind (means_internMaskedSource hfactors hmw) ?_
      intro source t _ he hsource
      rw [toNat_allOnes, hmw, and_ones (andAll_lt ..)] at hsource
      refine triple_mono (ih (fun r hr => (hrest r hr).mono he)
        (addCount_ok (hcs.mono he) hsource.1 hcw)) ?_
      intro counts' u _ _ hres
      refine ⟨hres.1, hres.2.trans ?_⟩
      have hadd := (addCount_sum (last.num vals) hcs source hcw).of_dvd hdvd
      rw [hsource.2] at hadd
      rw [map_cons, sum_cons, ← add_assoc]
      exact (hadd.trans (hmod.add_left _)).add_right _

variable {B : Builders}

lemma means_scaledTerm (hB : B.Sound last vals) {count : APInt} {source : SymRef}
    (hc : count.width = w) (hs : Has s source w) :
    Means last vals s (scaledTerm B count source) w
      (count.toNat * last.num vals source % 2 ^ w) := by
  apply means_of_at
  intro h
  refine means_ite (fun h1 => means_pure fun _ => ⟨hs, ?_⟩) fun _ => ?_
  · rw [toNat_of_isOne h1, one_mul, Nat.mod_eq_of_lt (h.lt hs)]
  · refine means_bind (means_mkConst (hc ▸ h.pos hs) hc rfl) ?_
    intro c t _ he hct
    refine (hB.mkMul ?_).congr ?_
    · intro r hr
      rcases mem_cons.mp hr with rfl | hr
      · exact hct.1
      · rw [mem_singleton.mp hr]
        exact hs.mono he
    · simp [mulAll, hct.2]

omit [BlockHash] in
lemma countSum_modEq (num : SymRef → Nat) (counts : List (SymRef × APInt)) :
    (counts.map fun p => p.2.toNat * num p.1 % 2 ^ w).sum ≡ countSum num counts [MOD 2 ^ w] := by
  induction counts with
  | nil => exact .rfl
  | cons p counts ih =>
    exact (Nat.mod_modEq _ _).add ih

omit [BlockHash] in
lemma countSum_filter (num : SymRef → Nat) (counts : List (SymRef × APInt)) :
    countSum num (counts.filter fun p => !p.2.isZero) = countSum num counts := by
  induction counts with
  | nil => rfl
  | cons p counts ih =>
    cases hz : p.2.isZero with
    | true =>
      rw [filter_cons_of_neg (by simp [hz]), ih]
      show _ = p.2.toNat * num p.1 + countSum num counts
      rw [toNat_of_isZero hz, zero_mul, zero_add]
    | false =>
      rw [filter_cons_of_pos (by simp [hz])]
      show _ + countSum num _ = _ + countSum num counts
      rw [ih]

lemma simplifyLowMaskedAdd_spec (hB : B.Sound last vals) {sum : SymRef} (hs : Has s sum w)
    (hmw : mask.width = w) : Triple last vals s (simplifyLowMaskedAdd B sum mask) fun r t =>
      Has t r w ∧ last.num vals r &&& mask.toNat = last.num vals sum &&& mask.toNat := by
  apply triple_context
  intro h
  have hwpos := h.pos hs
  refine triple_ite (fun _ => triple_pure fun _ => ⟨hs, rfl⟩) fun hc => ?_
  refine triple_ite (fun _ => triple_pure fun _ => ⟨hs, rfl⟩) fun _ => ?_
  simp only [not_or, not_not, Bool.not_eq_true, Bool.not_eq_false'] at hc
  obtain ⟨hop, hmask, -⟩ := hc
  obtain ⟨k, -, hk, hones⟩ := toNat_of_isMask hmask
  rw [hmw] at hk
  have hdvd : 2 ^ k ∣ 2 ^ w := pow_dvd_pow 2 hk
  obtain ⟨-, hall⟩ := h.nary hs (by simp [hop])
  refine triple_bind (countTerms_spec hones hmw hk hall (forall_mem_nil _)) ?_
  intro counts t _ he hcounts
  obtain ⟨hcok, hcsum⟩ := hcounts
  have hperm := perm_insertionSort (fun p q => p.1 ≤ q.1) counts
  have hkept : ∀ p ∈ (counts.insertionSort fun p q => p.1 ≤ q.1).filter fun p => !p.2.isZero,
      Has t p.1 w ∧ p.2.width = w := fun p hp => hcok p (hperm.mem_iff.mp (mem_of_mem_filter hp))
  have hkeptSum : countSum (last.num vals)
      ((counts.insertionSort fun p q => p.1 ≤ q.1).filter fun p => !p.2.isZero) ≡
        last.num vals sum [MOD 2 ^ k] := by
    rw [countSum_filter, countSum, (hperm.map _).sum_eq]
    refine hcsum.trans ?_
    rw [h.add_num hs hop, addAll]
    show 0 + _ ≡ _ [MOD 2 ^ k]
    rw [zero_add]
    exact ((Nat.mod_modEq _ _).of_dvd hdvd).symm
  have hgoal : ∀ x, x ≡ last.num vals sum [MOD 2 ^ k] →
      x &&& mask.toNat = last.num vals sum &&& mask.toNat := by
    intro x hx
    rw [hones, and_ones_mod, and_ones_mod]
    exact hx
  generalize (counts.insertionSort fun p q => p.1 ≤ q.1).filter (fun p => !p.2.isZero) = kept at *
  refine triple_bind (triple_each_map kept fun u _ heu p hp =>
    means_scaledTerm hB (hkept p hp).2 ((hkept p hp).1.mono heu)) ?_
  intro terms u _ _ hterms
  have hsum : (terms.map (last.num vals)).sum ≡ last.num vals sum [MOD 2 ^ k] := by
    rw [hterms.2]
    exact ((countSum_modEq _ _).of_dvd hdvd).trans hkeptSum
  refine triple_ite (fun hnil => ?_) fun _ => ?_
  · rw [hmw]
    refine triple_mono (means_mkZero hwpos) ?_
    intro r v _ _ hr
    refine ⟨hr.1, hgoal _ ?_⟩
    rw [hr.2]
    rw [hnil] at hsum
    exact hsum
  · refine triple_mono (hB.mkAdd hterms.1) ?_
    intro r v _ _ hr
    refine ⟨hr.1, hgoal _ ?_⟩
    rw [hr.2, addAll]
    exact ((Nat.mod_modEq _ _).of_dvd hdvd).trans hsum

omit [BlockHash] in
lemma matchingShiftPower_spec {ctx : SymContext} {count : SymRef} {factor : APInt} {k : Nat}
    (h : matchingShiftPower ctx count factor = some k) :
    factor.toNat = 2 ^ k ∧ k < factor.width ∧ ctx.isConst count = true ∧
      (ctx.constValue count).toNat = k := by
  unfold matchingShiftPower at h
  split at h
  next hc =>
    rw [and_eq_true, and_eq_true, decide_eq_true_eq] at hc
    cases h
    exact ⟨toNat_of_isPowerOf2 hc.1.1, logBase2_lt hc.1.1, hc.1.2, hc.2⟩
  · cases h

end NeverD.Sym
