import NeverD.Sym.Windows
import NeverD.Sym.Xor

namespace NeverD.Sym
open Lib APInt
open Words List

variable {amt : Nat} {op : SymOp}

def kMaxDiscardedShiftWidth : Nat := 128

def kSymExprLogicRemoveDiscardedShiftTermsWork : Nat := 256

def kSymExprLogicRemoveDiscardedShiftTermsCNumOperandsALimit : Nat := 8

def isNeutral (op : SymOp) (value : APInt) : Bool :=
  if op = .and then value.isAllOnes else value.isZero

namespace SymContext

variable (ctx : SymContext)

/-- Whether all bits from `low` on are known not to matter to the operator. -/
def neutralAbove (op : SymOp) (child : SymRef) (width : Nat) : Nat → Nat → Nat → Bool × Nat
  | 0, _, work => (false, work)
  | n + 1, low, work =>
    if width ≤ low then (true, work)
    else
      let bits := min (width - low) 64
      let window := ctx.constantWindowWithin child low bits work
      if window.1.any (isNeutral op) then
        neutralAbove op child width n (low + bits) window.2
      else (false, window.2)

def keptShiftTerms (op : SymOp) (width amount : Nat) : List SymRef → Nat → List SymRef
  | [], _ => []
  | child :: rest, work =>
    let neutral := ctx.neutralAbove op child width (width + 1) amount work
    if neutral.1 then keptShiftTerms op width amount rest neutral.2
    else child :: keptShiftTerms op width amount rest neutral.2

end SymContext

section

variable [BlockHash] (B : Builders)

def removeDiscardedShiftTerms (a : SymRef) (amount : Nat) : Build SymRef := do
  let ctx ← Build.context
  let op := ctx.op a
  let w := ctx.width a
  let kept :=
    ctx.keptShiftTerms op w amount (ctx.operands a) kSymExprLogicRemoveDiscardedShiftTermsWork
  if ¬ (op = .and ∨ op = .or ∨ op = .xor) ∨ kMaxDiscardedShiftWidth < w ∨
      kSymExprLogicRemoveDiscardedShiftTermsCNumOperandsALimit < ctx.numOperands a then pure a
  else if kept.length = ctx.numOperands a then pure a
  else if kept = [] then
    if op = .and then Build.mkOnes w else Build.mkZero w
  else bitwiseOf B op kept

def mkShl (a b : SymRef) : Build SymRef := do
  let ctx ← Build.context
  let w := ctx.width a
  let amt := (ctx.constValue b).toNat
  if ctx.isConst b then
    if w ≤ amt then Build.mkZero w
    else if amt = 0 then pure a
    else if ctx.isConst a then Build.mkConst ((ctx.constValue a).shl amt)
    else do
      let scale ← Build.mkConst ((APInt.ofNat w 1).shl amt)
      B.mkMul [scale, a]
  else if ctx.isConstZero a then Build.mkZero w
  else Build.intern .shl w [a, b] 0

def shiftOfMasked (w amt : Nat) (a b : SymRef) : Build (Option SymRef) := do
  let ctx ← Build.context
  if ctx.hasConstantMask a ∧ ctx.numOperands a = 2 ∧
      w - amt ≤ (ctx.constValue (ctx.operand a 0)).countLeadingOnes then
    some <$> B.mkLShr (ctx.operand a 1) b
  else pure none

def shiftOfScaled (w : Nat) (a b : SymRef) : Build (Option SymRef) := do
  let ctx ← Build.context
  if ctx.isScaled a then
    match matchingShiftPower ctx b (ctx.constValue (ctx.operand a 0)) with
    | some k =>
      some <$> do
        let mask ← Build.mkConst (APInt.lowBitsSet w (w - k))
        B.mkAnd [ctx.operand a 1, mask]
    | none => pure none
  else pure none

def shiftOfSign (w amt : Nat) (a : SymRef) : Build (Option SymRef) :=
  if amt = w - 1 then do
    match ← recoverSignComparison B a with
    | some predicate => some <$> B.mkZExt predicate w
    | none => pure none
  else pure none

def finishLShr (w : Nat) (a b : SymRef) : Build SymRef := do
  let ctx ← Build.context
  if ctx.op a = .zext then do
    let narrow ← B.mkLShr (ctx.operand a 0) b
    B.mkZExt narrow w
  else if ctx.isConstZero a then Build.mkZero w
  else Build.intern .lshr w [a, b] 0

/-- A shift by a literal, once the terms it drops are gone. -/
def shiftByLiteral (w amt : Nat) (a b : SymRef) : Build SymRef := do
  let ctx ← Build.context
  if ctx.isConst a then Build.mkConst ((ctx.constValue a).lshr amt)
  else
    (shiftOfMasked B w amt a b).orElse <|
    (shiftOfScaled B w a b).orElse <|
    (shiftOfSign B w amt a).orElse <|
    finishLShr B w a b

def mkLShr (a b : SymRef) : Build SymRef := do
  let ctx ← Build.context
  let w := ctx.width a
  let amt := (ctx.constValue b).toNat
  if ctx.isConst b then
    if w ≤ amt then Build.mkZero w
    else if amt = 0 then pure a
    else if ctx.isConst a then Build.mkConst ((ctx.constValue a).lshr amt)
    else do
      let count ← Build.mkConst (APInt.ofNat w amt)
      let seen ← removeDiscardedShiftTerms B a amt
      shiftByLiteral B w amt seen count
  else finishLShr B w a b

def finishAShr (w : Nat) (a b : SymRef) : Build SymRef := do
  let ctx ← Build.context
  if ctx.isConstZero a then Build.mkZero w else Build.intern .ashr w [a, b] 0

def signCopies (w amt : Nat) (a : SymRef) : Build (Option SymRef) :=
  if w - 1 ≤ amt then do
    match ← recoverSignComparison B a with
    | some predicate => some <$> B.mkSExt predicate w
    | none => pure none
  else pure none

def mkAShr (a b : SymRef) : Build SymRef := do
  let ctx ← Build.context
  let w := ctx.width a
  let amt := (ctx.constValue b).toNat
  let value := ctx.constValue a
  if w = 1 then pure a
  else if ctx.isConst b then
    if ctx.isConst a then
      Build.mkConst (if w ≤ amt then if value.isNegative then APInt.allOnes w else APInt.zero w
        else value.ashr amt)
    else if amt = 0 then pure a
    else
      (signCopies B w amt a).orElse do
        let count ← Build.mkConst (APInt.ofNat w (if w - 1 ≤ amt then w - 1 else amt))
        finishAShr w a count
  else finishAShr w a b

/-- A rotation by a literal is taken modulo the width. -/
def rotate (op : SymOp) (turn : APInt → Nat → APInt) (a b : SymRef) : Build SymRef := do
  let ctx ← Build.context
  let w := ctx.width a
  let amt := (ctx.constValue b).toNat % w
  if ctx.isConst b ∧ amt = 0 then pure a
  else if ctx.isConst b ∧ ctx.isConst a then Build.mkConst (turn (ctx.constValue a) amt)
  else Build.intern op w [a, b] 0

def mkRol (a b : SymRef) : Build SymRef := rotate .rol APInt.rotl a b

def mkRor (a b : SymRef) : Build SymRef := rotate .ror APInt.rotr a b

end

variable [BlockHash] {last : SymContext} {vals : List APInt} {s : SymBuilder} {w : Nat}
    {B : Builders} {a b : SymRef}

lemma neutralAbove_spec (h : At last vals s) (ha : Has s a w) {n low work : Nat}
    (hn : (s.ctx.neutralAbove op a w n low work).1 = true) {i : Nat} (hl : low ≤ i) (hi : i < w) :
    (last.num vals a).testBit i = decide (op = .and) := by
  induction n generalizing low work with
  | zero => cases hn
  | succ n ih =>
    rw [SymContext.neutralAbove] at hn
    split at hn
    · omega
    · dsimp only at hn
      split at hn
      next hlow hany =>
        rw [Option.any_eq_true] at hany
        obtain ⟨value, hvalue, hneutral⟩ := hany
        obtain ⟨hvw, hslice⟩ := constantWindowWithin_spec h ha hvalue
        by_cases hin : low + min (w - low) 64 ≤ i
        · exact ih hn hin
        · have hbit := congrArg (fun x => x.testBit (i - low)) hslice
          simp only [testBit_slice] at hbit
          rw [show low + (i - low) =
            i by omega, decide_eq_true (show i - low < min (w - low) 64 by omega),
            Bool.true_and] at hbit
          rw [hbit]
          unfold isNeutral at hneutral
          split at hneutral
          next hop =>
            rw [toNat_of_isAllOnes hneutral, hvw, testBit_ones, decide_eq_true hop, decide_eq_true]
            omega
          next hop => rw [toNat_of_isZero hneutral, Nat.zero_testBit, decide_eq_false hop]
      · cases hn

omit [BlockHash] in
lemma testBit_combine_cons (hop : op = .and ∨ op = .or ∨ op = .xor) (x : Nat) (xs : List Nat)
    (i : Nat) : (combine op w (x :: xs)).testBit i = (bitOp op x (combine op w xs)).testBit i := by
  rcases hop with rfl | rfl | rfl
  · rfl
  · rfl
  · rfl

lemma keptShiftTerms_spec (h : At last vals s) (hop : op = .and ∨ op = .or ∨ op = .xor)
    (amount work : Nat)
    {rs : List SymRef} (hrs : ∀ r ∈ rs, Has s r w) :
      (∀ r ∈ s.ctx.keptShiftTerms op w amount rs work, r ∈ rs) ∧ ∀ i, amount ≤ i → i < w →
        (combine op w ((s.ctx.keptShiftTerms op w amount rs work).map (last.num vals))).testBit i =
          (combine op w (rs.map (last.num vals))).testBit i := by
  induction rs generalizing work with
  | nil => exact ⟨forall_mem_nil _, fun _ _ _ => rfl⟩
  | cons r rs ih =>
    have hr := hrs r (mem_cons_self ..)
    rw [SymContext.keptShiftTerms]
    obtain ⟨h1, h2⟩ := ih (s.ctx.neutralAbove op r w (w + 1) amount work).2 fun q hq =>
      hrs q (mem_cons_of_mem _ hq)
    split
    next hneutral =>
      refine ⟨fun q hq => mem_cons_of_mem _ (h1 q hq), ?_⟩
      intro i hlow hi
      have hbit := neutralAbove_spec h hr hneutral hlow hi
      rw [h2 i hlow hi, map_cons, testBit_combine_cons hop, testBit_bitOp]
      rcases hop with rfl | rfl | rfl
      · simp [hbit]
      · simp [hbit]
      · simp [hbit]
    · constructor
      · intro q hq
        rcases mem_cons.mp hq with rfl | hq
        · exact mem_cons_self ..
        · exact mem_cons_of_mem _ (h1 q hq)
      · intro i hlow hi
        rw [map_cons, map_cons, testBit_combine_cons hop, testBit_combine_cons hop, testBit_bitOp,
          testBit_bitOp, h2 i hlow hi]

omit [BlockHash] in
lemma div_eq_of_bits {x y k : Nat} (hx : x < 2 ^ w) (hy : y < 2 ^ w)
    (h : ∀ i, k ≤ i → i < w → x.testBit i = y.testBit i) : x / 2 ^ k = y / 2 ^ k := by
  apply Nat.eq_of_testBit_eq
  intro i
  rw [Nat.testBit_div_two_pow, Nat.testBit_div_two_pow]
  by_cases hi : i + k < w
  · exact h _ (Nat.le_add_left ..) hi
  · rw [testBit_of_lt hx (not_lt.mp hi), testBit_of_lt hy (not_lt.mp hi)]

lemma removeDiscardedShiftTerms_spec (hB : B.Sound last vals) (ha : Has s a w) (amount : Nat) :
    Triple last vals s (removeDiscardedShiftTerms B a amount) fun r t =>
      Has t r w ∧ last.num vals r / 2 ^ amount = last.num vals a / 2 ^ amount := by
  apply triple_context
  intro h
  rw [ha.2]
  have hsame : Triple last vals s (pure a) fun r t =>
      Has t r w ∧ last.num vals r / 2 ^ amount = last.num vals a / 2 ^ amount :=
        triple_pure fun _ => ⟨ha, rfl⟩
  refine triple_ite (fun _ => hsame) fun hop => ?_
  rw [not_or, not_not] at hop
  have hop := hop.1
  refine triple_ite (fun _ => hsame) fun _ => ?_
  obtain ⟨hsub, hnum⟩ := h.nary_num ha (by rcases hop with ho | ho | ho <;> rw [ho] <;> rfl)
  obtain ⟨h1, h2⟩ :=
    keptShiftTerms_spec h hop amount kSymExprLogicRemoveDiscardedShiftTermsWork hsub
  rw [← hnum] at h2
  generalize s.ctx.keptShiftTerms (s.ctx.op a) w amount (s.ctx.operands a)
    kSymExprLogicRemoveDiscardedShiftTermsWork = kept at h1 h2 ⊢
  have hmeans : ∀ {m : Build SymRef},
      Means last vals s m w (combine (s.ctx.op a) w (kept.map (last.num vals))) →
      Triple last vals s m fun r t =>
        Has t r w ∧ last.num vals r / 2 ^ amount = last.num vals a / 2 ^ amount := by
    intro m hm
    refine triple_mono hm ?_
    intro r t ht _ hr
    refine ⟨hr.1, div_eq_of_bits (ht.lt hr.1) (h.lt ha) ?_⟩
    intro i hlow hi
    rw [hr.2, h2 i hlow hi]
  refine triple_ite (fun hnil => ?_) fun _ =>
    hmeans (means_bitwiseOf hB hop fun q hq => hsub q (h1 q hq))
  rw [hnil] at hmeans
  refine triple_ite (fun ho => hmeans ?_) fun ho => hmeans ?_
  · rw [ho]
    exact means_mkOnes (h.pos ha)
  · rcases hop.resolve_left ho with ho | ho
    · rw [ho]
      exact means_mkZero (h.pos ha)
    · rw [ho]
      exact means_mkZero (h.pos ha)

variable {v : Nat}

variable (hB : B.Sound last vals)
include hB

variable (ha : Has s a w)
include ha

lemma means_mkShl (hb : Has s b v) :
    Means last vals s (mkShl B a b) w (last.num vals a * 2 ^ last.num vals b % 2 ^ w) := by
  apply means_context
  intro h
  rw [ha.2]
  have hpos := h.pos ha
  refine means_ite (fun hc => ?_) fun _ => means_ite (fun hz => ?_) fun _ => ?_
  · rw [← h.const_num hb hc]
    generalize last.num vals b = n
    refine means_ite (fun hle => ?_) fun hlt => means_ite (fun h0 => ?_) fun _ =>
      means_ite (fun hca => ?_) fun _ => ?_
    · refine (means_mkZero hpos).congr ?_
      obtain ⟨k, rfl⟩ := Nat.exists_eq_add_of_le hle
      rw [pow_add, mul_left_comm, Nat.mul_mod_right]
    · rw [h0, pow_zero, mul_one, Nat.mod_eq_of_lt (h.lt ha)]
      exact means_pure fun _ => ⟨ha, rfl⟩
    · have hcw := h.const_width ha hca
      refine means_mkConst (c := (s.ctx.constValue a).shl n) (hcw ▸ hpos) hcw ?_
      rw [toNat_shl, hcw, h.const_num ha hca]
    · refine means_bind (means_mkConst (w := w) (c := (ofNat w 1).shl n) hpos rfl (toNat_shl _ _))
        ?_
      intro scale t _ he hs
      refine (hB.mkMul (has_pair hs.1 (ha.mono he))).congr ?_
      rw [toNat_one hpos] at hs
      simp only [map_cons, map_nil, mulAll, prod_cons, prod_nil, mul_one]
      rw [hs.2, one_mul, ofNat_width, Nat.mod_mul_mod, mul_comm]
  · rw [SymContext.isConstZero, Bool.and_eq_true] at hz
    refine (means_mkZero hpos).congr ?_
    rw [h.const_num ha hz.1, toNat_of_isZero hz.2, zero_mul, Nat.zero_mod]
  · exact means_binary hpos ⟨by decide, by decide⟩ ha hb ⟨v, rfl⟩

lemma meansIf_shiftOfMasked (hb : Has s b v) (hn : last.num vals b = amt) :
    MeansIf last vals s (shiftOfMasked B w amt a b) w (last.num vals a / 2 ^ amt) := by
  apply meansIf_context
  intro h
  refine meansIf_ite (fun hc => ?_) fun _ => meansIf_none
  obtain ⟨hmask, hlen, hlead⟩ := hc
  obtain ⟨-, h0, hconst, hrest, hnum⟩ := h.masked ha hmask
  have hops := SymContext.operands_two hlen
  rw [hops] at hrest hnum
  have h1 := hrest _ (mem_singleton_self _)
  apply meansIf_some
  refine (hB.mkLShr h1 hb).congr ?_
  rw [hn]
  apply div_eq_of_bits (h.lt h1) (h.lt ha)
  intro i hlow hi
  have hcw := h.const_width h0 hconst
  have hbit := testBit_of_countLeadingOnes hlead (i := i) (by omega) (by omega)
  have hx : andAll w ([s.ctx.operand a 1].map (last.num vals)) =
      last.num vals (s.ctx.operand a 1) := by
    rw [map_singleton, andAll_cons, andAll_nil, and_ones (h.lt h1)]
  have hsee : last.num vals a = (s.ctx.constValue (s.ctx.operand a 0)).toNat &&&
      last.num vals (s.ctx.operand a 1) :=
    hnum.trans (congrArg _ hx)
  rw [hsee, Nat.testBit_and, hbit, Bool.true_and]

lemma meansIf_shiftOfScaled (hb : Has s b v) (hn : last.num vals b = amt) :
    MeansIf last vals s (shiftOfScaled B w a b) w (last.num vals a / 2 ^ amt) := by
  apply meansIf_context
  intro h
  refine meansIf_ite (fun hc => ?_) fun _ => meansIf_none
  obtain ⟨h0, hconst, h1, -, hnum⟩ := h.scaled ha hc
  split
  next k hk =>
    obtain ⟨hpow, hkw, hbc, hbk⟩ := matchingShiftPower_spec hk
    rw [h.const_width h0 hconst] at hkw
    have hamt : amt = k := by rw [← hn, h.const_num hb hbc, hbk]
    apply meansIf_some
    refine means_bind (means_mkConst (w := w) (c := lowBitsSet w (w - k)) (h.pos ha) rfl
      (lowBitsSet_toNat (Nat.sub_le ..))) ?_
    intro mask t _ he hm
    refine (hB.mkAnd (has_pair (h1.mono he) hm.1)).congr ?_
    simp only [map_cons, map_nil, andAll_cons, andAll_nil]
    have hlt : ones (w - k) < 2 ^ w :=
      (ones_lt _).trans_le (Nat.pow_le_pow_right two_pos (Nat.sub_le ..))
    rw [hm.2, and_ones hlt, and_ones_mod, hnum, hpow, hamt]
    have hsplit : 2 ^ w = 2 ^ k * 2 ^ (w - k) := by
      rw [← pow_add]
      congr 1
      omega
    rw [hsplit, Nat.mul_mod_mul_left, Nat.mul_div_cancel_left _ (Nat.two_pow_pos k)]
  · exact meansIf_none

lemma meansIf_shiftOfSign :
    MeansIf last vals s (shiftOfSign B w amt a) w (last.num vals a / 2 ^ amt) := by
  refine triple_of_at fun h => ?_
  refine meansIf_ite (fun hamt => ?_) fun _ => meansIf_none
  refine triple_bind (meansIf_recoverSignComparison hB ha) ?_
  intro o t _ _ ho
  split
  next predicate =>
    have hp := ho predicate rfl
    apply meansIf_some
    refine (hB.mkZExt hp.1 (h.pos ha)).congr ?_
    rw [hp.2, hamt, div_eq_bit_msb (h.pos ha) (h.lt ha)]
  · exact meansIf_none

lemma means_finishLShr (hb : Has s b v) :
    Means last vals s (finishLShr B w a b) w (last.num vals a / 2 ^ last.num vals b) := by
  apply means_context
  intro h
  refine means_ite (fun hop => ?_) fun _ => means_ite (fun hz => ?_) fun _ => ?_
  · obtain ⟨-, hin, hlt, hnum⟩ := h.zext_num ha hop
    refine means_bind (hB.mkLShr hin hb) ?_
    intro narrow t _ _ hnarrow
    refine (hB.mkZExt hnarrow.1 hlt.le).congr ?_
    rw [hnarrow.2, hnum]
  · rw [SymContext.isConstZero, Bool.and_eq_true] at hz
    refine (means_mkZero (h.pos ha)).congr ?_
    rw [h.const_num ha hz.1, toNat_of_isZero hz.2, Nat.zero_div]
  · exact means_binary (h.pos ha) ⟨by decide, by decide⟩ ha hb ⟨v, rfl⟩

lemma means_shiftByLiteral (hb : Has s b v) (hn : last.num vals b = amt) :
    Means last vals s (shiftByLiteral B w amt a b) w (last.num vals a / 2 ^ amt) := by
  apply means_context
  intro h
  refine means_ite (fun hc => ?_) fun _ => ?_
  · have hcw := h.const_width ha hc
    refine means_mkConst (c := (s.ctx.constValue a).lshr amt) (hcw ▸ h.pos ha) hcw ?_
    rw [toNat_lshr, h.const_num ha hc]
  · refine means_orElse (meansIf_shiftOfMasked hB ha hb hn) ?_
    intro t _ he
    refine means_orElse (meansIf_shiftOfScaled hB (ha.mono he) (hb.mono he) hn) ?_
    intro u _ heu
    refine means_orElse (meansIf_shiftOfSign hB ((ha.mono he).mono heu)) ?_
    intro x _ hex
    rw [← hn]
    exact means_finishLShr hB (((ha.mono he).mono heu).mono hex) (((hb.mono he).mono heu).mono hex)

lemma means_mkLShr (hb : Has s b v) :
    Means last vals s (mkLShr B a b) w (last.num vals a / 2 ^ last.num vals b) := by
  apply means_context
  intro h
  rw [ha.2]
  have hpos := h.pos ha
  refine means_ite (fun hc => ?_) fun _ => means_finishLShr hB ha hb
  rw [← h.const_num hb hc]
  generalize last.num vals b = n
  refine means_ite (fun hle => ?_) fun hlt => means_ite (fun h0 => ?_) fun _ =>
    means_ite (fun hca => ?_) fun _ => ?_
  · refine (means_mkZero hpos).congr ?_
    rw [Nat.div_eq_of_lt ((h.lt ha).trans_le (Nat.pow_le_pow_right two_pos hle))]
  · rw [h0, pow_zero, Nat.div_one]
    exact means_pure fun _ => ⟨ha, rfl⟩
  · have hcw := h.const_width ha hca
    refine means_mkConst (c := (s.ctx.constValue a).lshr n) (hcw ▸ hpos) hcw ?_
    rw [toNat_lshr, h.const_num ha hca]
  · have hnw : n < 2 ^ w := (not_le.mp hlt).trans Nat.lt_two_pow_self
    refine means_bind (means_mkConst (w := w) (c := ofNat w n) (x := n) hpos rfl ?_) ?_
    · rw [ofNat_toNat, Nat.mod_eq_of_lt hnw]
    intro count t _ he hcount
    refine triple_bind (removeDiscardedShiftTerms_spec hB (ha.mono he) n) ?_
    intro seen u _ heu hseen
    refine (means_shiftByLiteral hB hseen.1 (hcount.1.mono heu) hcount.2).congr hseen.2

omit ha

omit hB

lemma means_finishAShr (ha : Has s a w) (hb : Has s b v) :
    Means last vals s (finishAShr w a b) w (ashrOf w (last.num vals a) (last.num vals b)) := by
  apply means_context
  intro h
  refine means_ite (fun hz => ?_) fun _ => means_binary (h.pos ha) ⟨by decide, by decide⟩ ha hb ⟨v,
    rfl⟩
  rw [SymContext.isConstZero, Bool.and_eq_true] at hz
  refine (means_mkZero (h.pos ha)).congr ?_
  rw [h.const_num ha hz.1, toNat_of_isZero hz.2]
  simp [ashrOf, msb]

omit [BlockHash] in
theorem ashrOf_saturates {x n : Nat} (hw : 0 < w) (hx : x < 2 ^ w) (h : w - 1 ≤ n) :
    ashrOf w x n = if msb w x then ones w else 0 := by
  apply eq_of_bits (ashrOf_lt hx n) (by split <;> simp [ones_lt])
  intro i hi
  rw [testBit_ashrOf hx hi]
  have hbit : (if i + n < w then x.testBit (i + n) else msb w x) = msb w x := by
    split
    · rw [msb]
      congr 1
      omega
    · rfl
  rw [hbit]
  cases msb w x with
  | true => simp [hi]
  | false => simp

omit [BlockHash] in
lemma ashrOf_one {x : Nat} (hx : x < 2 ^ 1) (n : Nat) : ashrOf 1 x n = x := by
  rw [ashrOf_saturates one_pos hx (Nat.zero_le _)]
  have : x = 0 ∨ x = 1 := by omega
  rcases this with rfl | rfl
  · rfl
  · rfl

lemma meansIf_signCopies (hB : B.Sound last vals) (ha : Has s a w) :
    MeansIf last vals s (signCopies B w amt a) w (ashrOf w (last.num vals a) amt) := by
  refine triple_of_at fun h => ?_
  refine meansIf_ite (fun hamt => ?_) fun _ => meansIf_none
  refine triple_bind (meansIf_recoverSignComparison hB ha) ?_
  intro o t _ _ ho
  split
  next predicate =>
    have hp := ho predicate rfl
    have hpos := h.pos ha
    apply meansIf_some
    refine (hB.mkSExt hp.1 hpos).congr ?_
    rw [hp.2, ashrOf_saturates hpos (h.lt ha) hamt]
    have hpow : 2 ≤ 2 ^ w := Nat.pow_le_pow_right (n := 2) two_pos hpos
    cases msb w (last.num vals a) with
    | true =>
      show 1 + (2 ^ w - 2 ^ 1) = 2 ^ w - 1
      omega
    | false => rfl
  · exact meansIf_none

lemma means_mkAShr (hB : B.Sound last vals) (ha : Has s a w) (hb : Has s b v) :
    Means last vals s (mkAShr B a b) w (ashrOf w (last.num vals a) (last.num vals b)) := by
  apply means_context
  intro h
  rw [ha.2]
  have hpos := h.pos ha
  have hlt := h.lt ha
  refine means_ite (fun hw => ?_) fun hw => means_ite (fun hc => ?_) fun _ => means_finishAShr ha hb
  · subst hw
    rw [ashrOf_one hlt]
    exact means_pure fun _ => ⟨ha, rfl⟩
  rw [← h.const_num hb hc]
  generalize last.num vals b = n
  refine means_ite (fun hca => ?_) fun _ => means_ite (fun h0 => ?_) fun _ => ?_
  · have hcw := h.const_width ha hca
    rw [h.const_num ha hca] at hlt ⊢
    by_cases hle : w ≤ n
    · rw [if_pos hle, ashrOf_of_le hlt hle, isNegative_eq, hcw]
      cases msb w (s.ctx.constValue a).toNat with
      | true => exact means_mkOnes hpos
      | false => exact means_mkZero hpos
    · rw [if_neg hle]
      refine means_mkConst (c := (s.ctx.constValue a).ashr n) (hcw ▸ hpos) hcw ?_
      rw [toNat_ashr, hcw]
  · have hself : ashrOf w (last.num vals a) 0 = last.num vals a := by
      apply eq_of_bits (ashrOf_lt hlt 0) hlt
      intro i hi
      rw [testBit_ashrOf hlt hi, add_zero, if_pos hi]
    rw [h0, hself]
    exact means_pure fun _ => ⟨ha, rfl⟩
  · refine means_orElse (meansIf_signCopies hB ha) ?_
    intro t _ he
    have hm : (if w - 1 ≤ n then w - 1 else n) < 2 ^ w := by
      have := Nat.lt_two_pow_self (n := w)
      split <;> omega
    refine means_bind (means_mkConst (w := w) (c := ofNat w (if w - 1 ≤ n then w - 1 else n))
      (x := if w - 1 ≤ n then w - 1 else n) hpos rfl ?_) ?_
    · rw [ofNat_toNat, Nat.mod_eq_of_lt hm]
    intro count u _ heu hcount
    refine (means_finishAShr ((ha.mono he).mono heu) hcount.1).congr ?_
    rw [hcount.2]
    split
    next hle => rw [ashrOf_saturates hpos hlt hle, ashrOf_saturates hpos hlt le_rfl]
    · rfl

omit [BlockHash] in
lemma rotateLeft_zero (x : BitVec w) : x.rotateLeft 0 = x := by
  rw [BitVec.rotateLeft_def]
  simp [BitVec.ushiftRight_eq_zero]

omit [BlockHash] in
lemma rotateRight_zero (x : BitVec w) : x.rotateRight 0 = x := by
  rw [BitVec.rotateRight_def]
  simp [BitVec.shiftLeft_eq_zero]

lemma means_rotate {turn : APInt → Nat → APInt} (ha : Has s a w) (hb : Has s b v)
    (hop : op = .rol ∧ turn = rotl ∨ op = .ror ∧ turn = rotr) :
      Means last vals s (rotate op turn a b) w
      (turn (ofNat w (last.num vals a)) (last.num vals b % w)).toNat := by
  apply means_context
  intro h
  rw [ha.2]
  have hpos := h.pos ha
  refine means_ite (fun hc => ?_) fun _ => means_ite (fun hc => ?_) fun _ => ?_
  · rw [h.const_num hb hc.1, hc.2]
    refine means_pure fun _ => ⟨ha, ?_⟩
    have hself : last.num vals a = (ofNat w (last.num vals a)).toNat := by
      rw [ofNat_toNat, Nat.mod_eq_of_lt (h.lt ha)]
    rcases hop with ⟨-, rfl⟩ | ⟨-, rfl⟩
    · rw [rotl, rotateLeft_zero]
      exact hself
    · rw [rotr, rotateRight_zero]
      exact hself
  · have hcw := h.const_width ha hc.2
    have hself : ofNat w (s.ctx.constValue a).toNat = s.ctx.constValue a := by
      rw [← hcw]
      exact ofNat_self _
    rw [h.const_num ha hc.2, h.const_num hb hc.1, hself]
    rcases hop with ⟨-, rfl⟩ | ⟨-, rfl⟩
    · exact means_mkConst (c := (s.ctx.constValue a).rotl _) (hcw ▸ hpos) hcw rfl
    · exact means_mkConst (c := (s.ctx.constValue a).rotr _) (hcw ▸ hpos) hcw rfl
  · rcases hop with ⟨rfl, rfl⟩ | ⟨rfl, rfl⟩
    · exact means_binary hpos ⟨by decide, by decide⟩ ha hb ⟨v, rfl⟩
    · exact means_binary hpos ⟨by decide, by decide⟩ ha hb ⟨v, rfl⟩

lemma means_mkRol (ha : Has s a w) (hb : Has s b v) :
    Means last vals s (mkRol a b) w (rolOf w (last.num vals a) (last.num vals b)) :=
  means_rotate ha hb (Or.inl ⟨rfl, rfl⟩)

lemma means_mkRor (ha : Has s a w) (hb : Has s b v) :
    Means last vals s (mkRor a b) w (rorOf w (last.num vals a) (last.num vals b)) :=
  means_rotate ha hb (Or.inr ⟨rfl, rfl⟩)

end NeverD.Sym
