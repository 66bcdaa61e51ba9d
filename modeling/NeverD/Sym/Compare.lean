import NeverD.Sym.Mask

namespace NeverD.Sym
open Lib
open Words List
open Bool (and_eq_true not_eq_true not_eq_false')

variable {x : Nat} {word : SymRef}

namespace SymContext

variable (ctx : SymContext)

/-- Two exclusive ors of opaque words with a word in common: an overflow, which no
comparison matches. -/
def isOverflowOnly (word : SymRef) : Bool :=
  let a := ctx.operand word 0
  let b := ctx.operand word 1
  ctx.op word = .and && ctx.numOperands word = 2 && ctx.op a = .xor && ctx.op b = .xor &&
    ctx.numOperands a = 2 && ctx.numOperands b = 2 &&
    (ctx.operands a).all (fun r => !isBitwise (ctx.op r)) &&
    (ctx.operands b).all (fun r => !isBitwise (ctx.op r)) &&
    (ctx.operands b).any fun r => r = ctx.operand a 0 || r = ctx.operand a 1

def testedBoolean (r : SymRef) : SymRef :=
  let a := ctx.operand (ctx.operand r 0) 0
  let b := ctx.operand (ctx.operand r 0) 1
  if ctx.op r = .not && ctx.op (ctx.operand r 0) = .eq then
    if ctx.isConstZero a then
      if ctx.op b = .zext && ctx.width (ctx.operand b 0) = 1 then ctx.operand b 0 else r
    else if ctx.isConstZero b then
      if ctx.op a = .zext && ctx.width (ctx.operand a 0) = 1 then ctx.operand a 0 else r
    else r
  else r

def signedWord (r : SymRef) : Option SymRef :=
  let word := ctx.operand r 0
  if ctx.op r = .extract && ctx.width r = 1 && ctx.aux r = ctx.width word - 1 then some word
  else if ctx.op r = .slt && ctx.isConstZero (ctx.operand r 1) then some word
  else if ctx.op r = .lshr && ctx.isConst (ctx.operand r 1) &&
      (ctx.constValue (ctx.operand r 1)).toNat = ctx.width word - 1 then some word
  else if ctx.width r = 1 then some r
  else none

def observedWord (r : SymRef) : Option SymRef :=
  let tested := ctx.testedBoolean r
  ctx.signedWord (if ctx.op tested = .zext then ctx.operand tested 0 else tested)

def observedWords : List SymRef → List SymRef → Option (List SymRef)
  | [], roots => some roots
  | r :: rs, roots =>
    (ctx.observedWord r).bind fun word =>
      if roots ≠ [] ∧ ctx.width word ≠ ctx.width (roots.getD 0 0) then none
      else observedWords rs (roots ++ [word])

/-- A truth value and the bit it is packed into, as far as that bit is observed. -/
def packedLane (w : Nat) (observed : APInt) (value : SymRef) : Option (SymRef × APInt) :=
  let place := if ctx.isScaled value then ctx.constValue (ctx.operand value 0) else APInt.ofNat w 1
  let carrier := if ctx.isScaled value then ctx.operand value 1 else value
  let truth := if ctx.op carrier = .zext then ctx.operand carrier 0 else carrier
  if ctx.width truth ≠ 1 ∨ !place.isPowerOf2 then none else some (truth, place.and observed)

structure PackedWord where
  forced : APInt
  used : APInt
  lanes : List (SymRef × APInt) := []

def packedLanes (w : Nat) (observed : APInt) : List SymRef → PackedWord → Option PackedWord
  | [], packed => some packed
  | value :: values, packed =>
    if ctx.isConst value then
      packedLanes w observed values { packed with
          forced := packed.forced.or ((ctx.constValue value).and observed) }
    else (ctx.packedLane w observed value).bind fun lane =>
      if lane.2.isZero then packedLanes w observed values packed
      else if !(packed.used.and lane.2).isZero then none
      else packedLanes w observed values
        { packed with used := packed.used.or lane.2, lanes := packed.lanes ++ [lane] }

def observedBits (word : SymRef) : APInt × SymRef :=
  if ctx.hasConstantMask word && ctx.numOperands word = 2 then
    (ctx.constValue (ctx.operand word 0), ctx.operand word 1)
  else (APInt.allOnes (ctx.width word), word)

end SymContext

section

variable [BlockHash] (B : Builders)

def orderedMatch (m : SignMatcher.Match) : Build SymRef :=
  if m.signed then B.mkSlt m.x m.y else B.mkUlt m.x m.y

def materialize (m : SignMatcher.Match) : Build SymRef := do
  let r ← orderedMatch B m
  if m.inverted then B.mkNot r else pure r

def recoverSignComparison (word : SymRef) : Build (Option SymRef) := do
  let ctx ← Build.context
  if !isBitwise (ctx.op word) then pure none
  else if ctx.isOverflowOnly word then pure none
  else match SignMatcher.matchNetwork ctx (ctx.width word) [word] .xor false with
    | none => pure none
    | some m => some <$> materialize B m

def recoverObservedComparison (op : SymOp) (operands : List SymRef) (constant : APInt) :
    Build (Option SymRef) := do
  let ctx ← Build.context
  if operands.length < 2 ∨ kSymExprCompareMaxTerms < operands.length ∨
      (constant.width ≠ 1 ∧ op ≠ .xor) ∨ (!constant.isZero ∧ !constant.isOne) then pure none
  else match ctx.observedWords operands [] with
    | none => pure none
    | some roots =>
      match SignMatcher.matchNetwork ctx (ctx.width (roots.getD 0 0)) roots op
        (!constant.isZero) with
      | none => pure none
      | some m => some <$> do
        let truth ← materialize B m
        B.mkZExt truth constant.width

def laneCondition (target : APInt) (lane : SymRef × APInt) : Build SymRef :=
  if (target.and lane.2).isZero then B.mkNot lane.1 else pure lane.1

def packedCondition (packed : SymContext.PackedWord) (target : APInt) : Build (Option SymRef) :=
  if !(packed.used.and packed.forced).isZero then pure none
  else if target.and packed.forced ≠ packed.forced ∨
      !(target.and (packed.used.or packed.forced).not).isZero then some <$> Build.mkFalse
  else do
    let conditions ← Build.each (laneCondition B target) packed.lanes
    some <$> if conditions = [] then Build.mkTrue else B.mkAnd conditions

def recoverPackedEquality (word literal : SymRef) : Build (Option SymRef) := do
  let ctx ← Build.context
  if !ctx.isConst literal then pure none
  else
    let w := ctx.width word
    let observed := ctx.observedBits word
    if ctx.op observed.2 ≠ .or then pure none
    else match ctx.packedLanes w observed.1 (ctx.operands observed.2) ⟨APInt.zero w,
      APInt.zero w, []⟩ with
      | none => pure none
      | some packed => packedCondition B packed (ctx.constValue literal)

end

section

variable [BlockHash] {last : SymContext} {vals : List APInt} {s : SymBuilder} {r : SymRef} {w : Nat}
    {B : Builders}

omit [BlockHash] in
lemma notOf_bit (b : Bool) : notOf 1 (bit b) = bit (!b) := by
  cases b with
  | true => rfl
  | false => rfl

lemma means_materialize (hB : B.Sound last vals) {m : SignMatcher.Match} (hx : Has s m.x w)
    (hy : Has s m.y w) :
    Means last vals s (materialize B m) 1
      (bit (m.holds w (last.num vals m.x) (last.num vals m.y))) := by
  have hord : Means last vals s (orderedMatch B m) 1 (bit (if m.signed then
      decide (toInt w (last.num vals m.x) < toInt w (last.num vals m.y)) else
      decide (last.num vals m.x < last.num vals m.y))) := by
    unfold orderedMatch
    cases m.signed with
    | true => exact hB.mkSlt hx hy
    | false => exact hB.mkUlt hx hy
  refine means_bind hord ?_
  intro r t _ _ hr
  unfold SignMatcher.Match.holds
  cases m.inverted with
  | true =>
    refine (hB.mkNot hr.1).congr ?_
    rw [hr.2, notOf_bit, Bool.xor_true]
  | false =>
    refine means_pure fun _ => ⟨hr.1, ?_⟩
    rw [hr.2, Bool.xor_false]

lemma meansIf_recoverSignComparison (hB : B.Sound last vals) (hw : Has s word w) :
    MeansIf last vals s (recoverSignComparison B word) 1 (bit (msb w (last.num vals word))) := by
  apply meansIf_context
  intro h
  refine meansIf_ite (fun _ => meansIf_none) fun _ => meansIf_ite (fun _ => meansIf_none) fun _ =>
    ?_
  split
  · exact meansIf_none
  next m hm =>
    rw [hw.2] at hm
    obtain ⟨hx, hy, hsign⟩ := matchNetwork_spec h (fun r hr => by
      rw [mem_singleton.mp hr]
      exact hw.1) hm
    apply meansIf_some
    refine (means_materialize hB hx hy).congr ?_
    rw [← hsign]
    simp [rootSign]

omit [BlockHash] in
lemma bit_msb_one (hx : x < 2 ^ 1) : bit (msb 1 x) = x := by
  have : x = 0 ∨ x = 1 := by omega
  rcases this with rfl | rfl
  · rfl
  · rfl

omit [BlockHash] in
lemma notOf_isZero (hx : x < 2 ^ 1) : notOf 1 (bit (x = 0)) = x := by
  have : x = 0 ∨ x = 1 := by omega
  rcases this with rfl | rfl
  · rfl
  · rfl

variable (h : At last vals s)
include h

variable (hr : Has s r w)
include hr

lemma At.compared_num (hop : isPredicate (s.ctx.op r) = true) :
      last.num vals r = opNum (s.ctx.op r) 1 (s.ctx.aux r)
      [(s.ctx.width (s.ctx.operand r 0), last.num vals (s.ctx.operand r 0)),
        (s.ctx.width (s.ctx.operand r 0), last.num vals (s.ctx.operand r 1))] := by
  obtain ⟨hw, hops, ha, hb⟩ := h.compared hr hop
  have hne : s.ctx.op r ≠ .const ∧ s.ctx.op r ≠ .var := by
    constructor
    · intro hc
      rw [hc] at hop
      exact absurd hop (by decide)
    · intro hc
      rw [hc] at hop
      exact absurd hop (by decide)
  rw [h.op_num hr hne.1 hne.2, hw]
  conv_lhs => rw [hops]
  rw [map_cons, map_cons, map_nil, hb.2]

lemma At.eq_num (hop : s.ctx.op r = .eq) :
    last.num vals r = bit (last.num vals (s.ctx.operand r 0) =
      last.num vals (s.ctx.operand r 1)) := by
  rw [h.compared_num hr (by simp [isPredicate, hop]), hop]
  rfl

lemma At.zero_num (hz : s.ctx.isConstZero r = true) : last.num vals r = 0 := by
  rw [SymContext.isConstZero, and_eq_true] at hz
  rw [h.const_num hr hz.1]
  exact toNat_of_isZero hz.2

lemma testedBoolean_spec : s.ctx.testedBoolean r = r ∨
      (Has s (s.ctx.testedBoolean r) 1 ∧
        last.num vals r = last.num vals (s.ctx.testedBoolean r)) := by
  unfold SymContext.testedBoolean
  dsimp only
  split
  next hop =>
    rw [and_eq_true, decide_eq_true_eq, decide_eq_true_eq] at hop
    obtain ⟨hnot, hnum⟩ := h.not_num hr hop.1
    obtain ⟨hw1, -, ha, hb⟩ := h.compared hnot (by simp [isPredicate, hop.2])
    have heq := h.eq_num hnot hop.2
    -- a byte that carries a truth value is zero when the value is
    have hcarry : ∀ c u, Has s c u → last.num vals r = notOf 1 (bit (last.num vals c = 0)) →
        (s.ctx.op c = .zext && s.ctx.width (s.ctx.operand c 0) = 1) = true →
        Has s (s.ctx.operand c 0) 1 ∧ last.num vals r = last.num vals (s.ctx.operand c 0) := by
      intro c u hc hz hcond
      rw [and_eq_true, decide_eq_true_eq, decide_eq_true_eq] at hcond
      obtain ⟨-, hin, -, hznum⟩ := h.zext_num hc hcond.1
      rw [hcond.2] at hin
      refine ⟨hin, ?_⟩
      rw [hz, hznum, notOf_isZero (h.lt hin)]
    split
    next hz =>
      split
      next hcond =>
        refine .inr (hcarry _ _ hb ?_ hcond)
        rw [hnum, heq, h.zero_num ha hz, hw1]
        congr 2
        exact decide_eq_decide.mpr eq_comm
      · exact .inl rfl
    · split
      next hz =>
        split
        next hcond =>
          refine .inr (hcarry _ _ ha ?_ hcond)
          rw [hnum, heq, h.zero_num hb hz, hw1]
        · exact .inl rfl
      · exact .inl rfl
  · exact .inl rfl

omit hr

omit h

omit [BlockHash] in
lemma div_eq_bit_msb {v : Nat} (hv : 0 < v) (hx : x < 2 ^ v) : x / 2 ^ (v - 1) = bit (msb v x) := by
  have hpow : 2 ^ v = 2 ^ (v - 1) * 2 := by rw [← pow_succ]; congr 1; omega
  rw [msb_iff hv hx]
  by_cases hle : 2 ^ (v - 1) ≤ x
  · rw [decide_eq_true hle]
    show x / 2 ^ (v - 1) = 1
    exact Nat.div_eq_of_lt_le (by omega) (by omega)
  · rw [decide_eq_false hle]
    exact Nat.div_eq_of_lt (not_le.mp hle)

omit [BlockHash] in
lemma toInt_neg_iff {v : Nat} (hx : x < 2 ^ v) : decide (toInt v x < toInt v 0) = msb v x := by
  have hzero : toInt v 0 = 0 := by
    rw [toInt, msb, Nat.zero_testBit]
    rfl
  rw [hzero, toInt]
  cases msb v x with
  | true =>
    apply decide_eq_true
    have : ((2 ^ v : Nat) : Int) = 2 ^ v := by push_cast; rfl
    simp only [if_true]
    omega
  | false =>
    apply decide_eq_false
    simp

variable (h : At last vals s)
include h

lemma signedWord_spec (hr : Has s r w) {word : SymRef} (hword : s.ctx.signedWord r = some word) :
    ∃ v, Has s word v ∧ last.num vals r = bit (msb v (last.num vals word)) := by
  unfold SymContext.signedWord at hword
  dsimp only at hword
  split at hword
  next hc =>
    cases hword
    rw [and_eq_true, and_eq_true, decide_eq_true_eq, decide_eq_true_eq, decide_eq_true_eq] at hc
    obtain ⟨-, hin, hle, hnum⟩ := h.extract_num hr hc.1.1
    refine ⟨_, hin, ?_⟩
    have hw1 : w = 1 := hr.2.symm.trans hc.1.2
    rw [hnum, hw1, hc.2, div_eq_bit_msb (h.pos hin) (h.lt hin)]
    cases msb (s.ctx.width (s.ctx.operand r 0)) (last.num vals (s.ctx.operand r 0)) with
    | true => rfl
    | false => rfl
  split at hword
  next hc =>
    cases hword
    rw [and_eq_true, decide_eq_true_eq] at hc
    obtain ⟨-, -, ha, hb⟩ := h.compared hr (by simp [isPredicate, hc.1])
    refine ⟨_, ha, ?_⟩
    rw [h.compared_num hr (by simp [isPredicate, hc.1]), hc.1, h.zero_num hb hc.2,
      ← toInt_neg_iff (h.lt ha)]
    rfl
  split at hword
  next hc =>
    cases hword
    rw [and_eq_true, and_eq_true, decide_eq_true_eq, decide_eq_true_eq] at hc
    obtain ⟨h0, h1, hnum⟩ := h.lshr_num hr hc.1.1
    refine ⟨w, h0, ?_⟩
    rw [hnum, h.const_num h1 hc.1.2, hc.2, h0.2, div_eq_bit_msb (h.pos h0) (h.lt h0)]
  split at hword
  · rename_i hc
    cases hword
    have hr1 : Has s r 1 := ⟨hr.1, hc⟩
    exact ⟨1, hr1, (bit_msb_one (h.lt hr1)).symm⟩
  · cases hword

lemma observedWord_spec (hr : Has s r w) (hword : s.ctx.observedWord r = some word) :
    ∃ v, Has s word v ∧ last.num vals r = bit (msb v (last.num vals word)) := by
  unfold SymContext.observedWord at hword
  dsimp only at hword
  have htested : ∃ u, Has s (s.ctx.testedBoolean r) u ∧
      last.num vals r = last.num vals (s.ctx.testedBoolean r) := by
    rcases testedBoolean_spec h hr with heq | ⟨h1, h2⟩
    · rw [heq]
      exact ⟨w, hr, rfl⟩
    · exact ⟨1, h1, h2⟩
  obtain ⟨u, hu, hnum⟩ := htested
  rw [hnum]
  split at hword
  next hop =>
    obtain ⟨-, hin, -, hz⟩ := h.zext_num hu hop
    rw [hz]
    exact signedWord_spec h hin hword
  · exact signedWord_spec h hu hword

lemma observedWords_spec {rs roots roots' : List SymRef} {v : Nat}
    (hrs : ∀ r ∈ rs, Has s r w) (hne : rs ≠ [] ∨ roots ≠ [])
    (hroots : roots ≠ [] → ∀ r ∈ roots, Has s r v)
    (hv : roots = [] ∨ s.ctx.width (roots.getD 0 0) = v)
    (ho : s.ctx.observedWords rs roots = some roots') :
    ∃ u words, roots' = roots ++ words ∧ (∀ r ∈ roots', Has s r u) ∧
      s.ctx.width (roots'.getD 0 0) = u ∧
      (roots ≠ [] → u = v) ∧ rs.map (last.num vals) = words.map fun r =>
      bit (msb u (last.num vals r)) := by
  induction rs generalizing roots v with
  | nil =>
    have ho' := Option.some.inj ho
    subst ho'
    have hroot : roots ≠ [] := hne.resolve_left (by simp)
    exact ⟨v, [], by simp, hroots hroot, hv.resolve_left hroot, fun _ => rfl, rfl⟩
  | cons r rs ih =>
    obtain ⟨word, hword, ho⟩ := Option.bind_eq_some_iff.mp ho
    obtain ⟨x, hx, hnum⟩ := observedWord_spec h (hrs r (mem_cons_self ..)) hword
    split at ho
    · cases ho
    next hsame =>
      have hxv : roots ≠ [] → x = v := by
        intro hne'
        by_contra hc
        apply hsame
        refine ⟨hne', ?_⟩
        rw [hx.2, hv.resolve_left hne']
        exact hc
      have hall : ∀ q ∈ roots ++ [word], Has s q x := by
        intro q hq
        rcases mem_append.mp hq with hq | hq
        · have hne' : roots ≠ [] := ne_nil_of_mem hq
          rw [hxv hne']
          exact hroots hne' q hq
        · rw [mem_singleton.mp hq]
          exact hx
      have hfirst : s.ctx.width ((roots ++ [word]).getD 0 0) = x := by
        cases roots with
        | nil => exact hx.2
        | cons q qs =>
          exact (hall q (by simp)).2
      obtain ⟨u, words, h1, h2, h3, h4, h5⟩ :=
        ih (fun q hq => hrs q (mem_cons_of_mem _ hq)) (.inr (by simp))
        (fun _ => hall) (.inr hfirst) ho
      have hux : u = x := h4 (by simp)
      subst hux
      refine ⟨u, word :: words, ?_, h2, h3, fun hne' => hxv hne', ?_⟩
      · rw [h1]
        simp
      · rw [map_cons, map_cons, h5, hnum]

omit h

omit [BlockHash] in
lemma combine_bits {op : SymOp} {v : Nat} (hop : op = .and ∨ op = .or ∨ op = .xor)
    (hv : op ≠ .xor → v = 1)
    (hpos : 0 < v) (c : Bool) (bs : List Bool) :
    combine op v (bit c :: bs.map bit) = bit (rootSign op c bs) := by
  have hlt : ∀ b, bit b < 2 ^ v := by
    intro b
    have : 2 ≤ 2 ^ v := by simpa using Nat.pow_le_pow_right two_pos hpos
    cases b with
    | true => simp only [bit, if_true]; omega
    | false => simp only [bit]; simp
  have hbits : ∀ (f : Nat → Nat → Nat) (g : Bool → Bool → Bool),
      (∀ a b, f (bit a) (bit b) = bit (g a b)) →
      ∀ (bs : List Bool) (c : Bool), (bs.map bit).foldl f (bit c) = bit (bs.foldl g c) := by
    intro f g hfg bs
    induction bs with
    | nil => exact fun _ => rfl
    | cons b bs ih =>
      intro c
      rw [map_cons, foldl_cons, foldl_cons, hfg, ih]
  rcases hop with rfl | rfl | rfl
  · show andAll v _ = _
    rw [← foldl_and v _ (hlt c)]
    exact hbits _ _ (by decide) bs c
  · show orAll _ = _
    rw [← foldl_or]
    exact hbits _ _ (by decide) bs c
  · show xorAll _ = _
    rw [← foldl_xor]
    exact hbits _ _ (by decide) bs c

lemma meansIf_recoverObservedComparison (hB : B.Sound last vals) {op : SymOp}
    (hop : op = .and ∨ op = .or ∨ op = .xor) {rs : List SymRef} (hrs : ∀ r ∈ rs, Has s r w)
    {constant : APInt}
    (hc : constant.width = w) : MeansIf last vals s (recoverObservedComparison B op rs constant) w
      (combine op w (constant.toNat :: rs.map (last.num vals))) := by
  apply meansIf_context
  intro h
  refine meansIf_ite (fun _ => meansIf_none) fun hcond => ?_
  simp only [not_or, not_and, not_lt] at hcond
  obtain ⟨hlen, -, hone, hbit⟩ := hcond
  have hne : rs ≠ [] := by
    intro hnil
    rw [hnil] at hlen
    simp at hlen
  have hwpos : 0 < w := by
    obtain ⟨q, qs, rfl⟩ := exists_cons_of_ne_nil hne
    exact h.pos (hrs q (mem_cons_self ..))
  have hconst : constant.toNat = bit (!constant.isZero) := by
    cases hz : constant.isZero with
    | true => exact toNat_of_isZero hz
    | false =>
      have := hbit (by simp [hz])
      exact toNat_of_isOne (by simpa using this)
  split
  · exact meansIf_none
  next roots hroots =>
    obtain ⟨u, words, hw1, hw2, hw3, -, hw5⟩ :=
      observedWords_spec h (v := 0) hrs (.inl hne) (fun hn => absurd rfl hn) (.inl rfl) hroots
    rw [nil_append] at hw1
    subst hw1
    rw [hw3]
    split
    · exact meansIf_none
    next m hm =>
      obtain ⟨hx, hy, hsign⟩ := matchNetwork_spec h (fun r hr => (hw2 r hr).1) hm
      apply meansIf_some
      have hv : op ≠ .xor → w = 1 := by
        intro hx
        by_contra hne1
        exact hx (by simpa using hone (by rw [hc]; exact hne1))
      have hsigns :=
        combine_bits hop hv hwpos (!constant.isZero) (roots.map fun r => msb u (last.num vals r))
      rw [map_map] at hsigns
      rw [hc, hconst, hw5]
      refine means_bind (means_materialize hB hx hy) ?_
      intro truth t _ _ ht
      refine (hB.mkZExt ht.1 (by omega)).congr ?_
      rw [ht.2, ← hsign, ← hsigns]
      rfl

end

variable [BlockHash] {last : SymContext} {vals : List APInt} {s : SymBuilder} {r : SymRef} {w : Nat}
    {B : Builders}

omit [BlockHash] in
lemma testBit_lane {p : Nat} (hp : p < 2 ^ 1) (i k : Nat) :
    (p * 2 ^ i).testBit k = (decide (p = 1) && decide (k = i)) := by
  have : p = 0 ∨ p = 1 := by omega
  rcases this with rfl | rfl
  · simp
  · rw [one_mul, Nat.testBit_two_pow]
    simp [eq_comm]

lemma packedLane_spec (h : At last vals s) {observed : APInt} (ho : observed.width = w)
    {value : SymRef}
    (hv : Has s value w) {lane : SymRef × APInt}
    (hl : s.ctx.packedLane w observed value = some lane) :
    Has s lane.1 1 ∧ lane.2.width = w ∧
      last.num vals value &&& observed.toNat = last.num vals lane.1 * lane.2.toNat ∧
      (lane.2.toNat = 0 ∨ ∃ i, lane.2.toNat = 2 ^ i) := by
  have hw := h.pos hv
  -- the carrier of the truth value, and its place
  have hcarrier : ∃ place carrier,
    (if s.ctx.isScaled value then s.ctx.constValue (s.ctx.operand value 0)
      else APInt.ofNat w 1) = place ∧
      (if s.ctx.isScaled value then s.ctx.operand value 1 else value) = carrier ∧
      place.width = w ∧ Has s carrier w ∧
      last.num vals value = place.toNat * last.num vals carrier % 2 ^ w := by
    cases hs : s.ctx.isScaled value with
    | true =>
      obtain ⟨h0, hc, h1, -, hnum⟩ := h.scaled hv hs
      exact ⟨_, _, rfl, rfl, h.const_width h0 hc, h1, hnum⟩
    | false =>
      refine ⟨_, _, rfl, rfl, rfl, hv, ?_⟩
      show last.num vals value = (APInt.ofNat w 1).toNat * last.num vals value % 2 ^ w
      rw [APInt.ofNat_toNat, Nat.mod_eq_of_lt (Nat.one_lt_two_pow (by omega)), one_mul,
        Nat.mod_eq_of_lt (h.lt hv)]
  obtain ⟨place, carrier, hp, hc, hpw, hcw, hnum⟩ := hcarrier
  have htruth : ∃ truth, (if s.ctx.op carrier = .zext then s.ctx.operand carrier 0 else carrier) =
      truth ∧
      (s.ctx.width truth = 1 → Has s truth 1) ∧ last.num vals carrier = last.num vals truth := by
    by_cases hz : s.ctx.op carrier = .zext
    · obtain ⟨-, hin, -, hznum⟩ := h.zext_num hcw hz
      exact ⟨_, if_pos hz, fun h1 => ⟨hin.1, h1⟩, hznum⟩
    · exact ⟨_, if_neg hz, fun h1 => ⟨hcw.1, h1⟩, rfl⟩
  obtain ⟨truth, ht, htw, htnum⟩ := htruth
  unfold SymContext.packedLane at hl
  dsimp only at hl
  rw [hp, hc, ht] at hl
  split at hl
  · cases hl
  rename_i hcond
  rw [not_or, not_not, not_eq_true, not_eq_false'] at hcond
  cases hl
  have hone := htw hcond.1
  have hlt := h.lt hone
  have hpow := APInt.toNat_of_isPowerOf2 hcond.2
  have hplace := APInt.logBase2_lt hcond.2
  rw [hpw] at hplace
  have hand : (place.and observed).toNat = place.toNat &&& observed.toNat :=
    toNat_and (ho.trans hpw.symm)
  have hbit : place.toNat &&& observed.toNat = 0 ∨
      place.toNat &&& observed.toNat = place.toNat := by
    rw [hpow, Nat.two_pow_and]
    cases observed.toNat.testBit place.logBase2 with
    | true => exact Or.inr (by simp)
    | false => exact Or.inl (by simp)
  refine ⟨hone, hpw, ?_, ?_⟩
  · rw [hnum, htnum, hand]
    have hcase : last.num vals truth = 0 ∨ last.num vals truth = 1 := by omega
    rcases hcase with h0 | h1
    · rw [h0]
      simp
    · rw [h1, mul_one, one_mul, Nat.mod_eq_of_lt]
      rw [hpow]
      exact Nat.pow_lt_pow_right one_lt_two hplace
  · rw [hand]
    rcases hbit with h0 | h1
    · exact Or.inl h0
    · exact Or.inr ⟨_, h1.trans hpow⟩

structure PackedOk (last : SymContext) (vals : List APInt) (s : SymBuilder) (w : Nat)
    (packed : SymContext.PackedWord) (x : Nat) : Prop where
  forcedWidth : packed.forced.width = w
  usedWidth : packed.used.width = w
  lanes : ∀ lane ∈ packed.lanes, Has s lane.1 1 ∧ lane.2.width = w ∧ ∃ i, lane.2.toNat = 2 ^ i
  used : packed.used.toNat = orAll (packed.lanes.map fun lane => lane.2.toNat)
  apart : packed.lanes.Pairwise fun a b => a.2.toNat &&& b.2.toNat = 0
  value : x = packed.forced.toNat ||| orAll (packed.lanes.map fun lane => last.num vals lane.1 *
    lane.2.toNat)

lemma packedLanes_spec (h : At last vals s) {observed : APInt} (ho : observed.width = w)
    {values : List SymRef} (hv : ∀ r ∈ values, Has s r w) {packed packed' : SymContext.PackedWord}
    (hok : PackedOk last vals s w packed x)
    (hp : s.ctx.packedLanes w observed values packed = some packed') :
    PackedOk last vals s w packed'
      (x ||| (orAll (values.map (last.num vals)) &&& observed.toNat)) := by
  induction values generalizing packed x with
  | nil =>
    cases hp
    have : x ||| (orAll ([].map (last.num vals)) &&& observed.toNat) = x := by simp [orAll]
    rw [this]
    exact hok
  | cons value values ih =>
    have hvalue := hv value (mem_cons_self ..)
    have hrest := fun r hr => hv r (mem_cons_of_mem _ hr)
    -- the observed bits of the first word join those read so far
    have hjoin : x ||| (orAll ((value :: values).map (last.num vals)) &&& observed.toNat) =
        (x ||| (last.num vals value &&& observed.toNat)) |||
          (orAll (values.map (last.num vals)) &&& observed.toNat) := by
      rw [map_cons, orAll_cons, Nat.and_comm, and_or_distrib, Nat.or_assoc,
        Nat.and_comm observed.toNat, Nat.and_comm observed.toNat]
    rw [hjoin]
    unfold SymContext.packedLanes at hp
    split at hp
    next hc =>
      have hcw := h.const_width hvalue hc
      have hand : ((s.ctx.constValue value).and observed).toNat = last.num vals value &&&
          observed.toNat := by
        rw [toNat_and (ho.trans hcw.symm), h.const_num hvalue hc]
      refine ih hrest ?_ hp
      refine ⟨hok.forcedWidth, hok.usedWidth, hok.lanes, hok.used, hok.apart, ?_⟩
      have hforced : (packed.forced.or ((s.ctx.constValue value).and observed)).toNat =
          packed.forced.toNat ||| (last.num vals value &&& observed.toNat) := by
        rw [toNat_or (show ((s.ctx.constValue value).and observed).width =
          _ from hcw.trans hok.forcedWidth.symm), hand]
      rw [hforced, hok.value, Nat.or_assoc, Nat.or_assoc]
      congr 1
      exact Nat.or_comm ..
    · obtain ⟨lane, hlane, hp⟩ := Option.bind_eq_some_iff.mp hp
      obtain ⟨h1, h2, h3, h4⟩ := packedLane_spec h ho hvalue hlane
      split at hp
      next hz =>
        rw [h3, toNat_of_isZero hz, mul_zero, Nat.or_zero]
        exact ih hrest hok hp
      next hz =>
        split at hp
        · cases hp
        next hapart =>
          rw [not_eq_true, not_eq_false'] at hapart
          have hpow : ∃ i, lane.2.toNat = 2 ^ i := by
            refine h4.resolve_left fun h0 => hz ?_
            exact decide_eq_true h0
          have hfree : packed.used.toNat &&& lane.2.toNat = 0 := by
            rw [← toNat_and (h2.trans hok.usedWidth.symm)]
            exact toNat_of_isZero hapart
          refine ih hrest ?_ hp
          refine ⟨hok.forcedWidth, hok.usedWidth, ?_, ?_, ?_, ?_⟩
          · intro l hl
            rcases mem_append.mp hl with hl | hl
            · exact hok.lanes l hl
            · rw [mem_singleton.mp hl]
              exact ⟨h1, h2, hpow⟩
          · rw [toNat_or (h2.trans hok.usedWidth.symm), hok.used, map_append, orAll_append]
            simp [orAll]
          · refine pairwise_append.mpr ⟨hok.apart, pairwise_singleton .., ?_⟩
            intro a ha b hb
            rw [mem_singleton.mp hb]
            apply Nat.eq_of_testBit_eq
            intro k
            have hk := congrArg (fun n => n.testBit k) hfree
            simp only [Nat.testBit_and, Nat.zero_testBit, hok.used, testBit_orAll] at hk ⊢
            cases hak : a.2.toNat.testBit k with
            | false => rfl
            | true =>
              have hany : (packed.lanes.map fun lane => lane.2.toNat).any (fun n => n.testBit k) =
                  true :=
                any_eq_true.mpr ⟨_, mem_map_of_mem ha, hak⟩
              rw [hany] at hk
              exact hk
          · rw [h3, hok.value, map_append, orAll_append, Nat.or_assoc]
            simp [orAll]

omit [BlockHash] in
lemma andAll_bits (bs : List Bool) : andAll 1 (bs.map bit) = bit (bs.all id) := by
  induction bs with
  | nil => rfl
  | cons b bs ih =>
    rw [map_cons, andAll_cons, ih, all_cons]
    cases b with
    | true =>
      cases bs.all id with
      | true => rfl
      | false => rfl
    | false => simp [bit]

def laneHolds (num : SymRef → Nat) (target : Nat) (lane : SymRef × APInt) : Bool :=
  decide (num lane.1 = 1) = !decide (target &&& lane.2.toNat = 0)

theorem packed_eq_iff (h : At last vals s) {packed : SymContext.PackedWord} {target : Nat}
    (hok : PackedOk last vals s w packed x) (hapart : packed.used.toNat &&& packed.forced.toNat = 0)
    (hforced : target &&& packed.forced.toNat = packed.forced.toNat)
    (hrest : ∀ k, target.testBit k = true → packed.used.toNat.testBit k = true ∨
    packed.forced.toNat.testBit k = true) :
    decide (x = target) = packed.lanes.all (laneHolds (last.num vals) target) := by
  have hbit : ∀ lane ∈ packed.lanes, ∀ i, lane.2.toNat = 2 ^ i →
      laneHolds (last.num vals) target lane =
      decide (decide (last.num vals lane.1 = 1) = target.testBit i) := by
    intro lane hl i hi
    unfold laneHolds
    have hz : decide (target &&& lane.2.toNat = 0) = !target.testBit i := by
      rw [hi, Nat.and_two_pow]
      cases target.testBit i with
      | true => simp
      | false => simp
    rw [hz, Bool.not_not]
  have hvalue : ∀ k, x.testBit k = (packed.forced.toNat.testBit k ||
      packed.lanes.any fun lane =>
        decide (last.num vals lane.1 = 1) && lane.2.toNat.testBit k) := by
    intro k
    rw [hok.value, Nat.testBit_or, testBit_orAll, any_map]
    congr 1
    rw [Bool.eq_iff_iff, any_eq_true, any_eq_true]
    refine exists_congr fun lane => and_congr_right fun hl => ?_
    obtain ⟨h1, -, i, hi⟩ := hok.lanes lane hl
    simp only [Function.comp]
    rw [hi, testBit_lane (h.lt h1), Nat.testBit_two_pow,
      decide_eq_decide.mpr (eq_comm (a := i) (b := k))]
  have hused : ∀ lane ∈ packed.lanes, ∀ k, lane.2.toNat.testBit k = true →
      packed.used.toNat.testBit k = true := by
    intro lane hl k hk
    rw [hok.used, testBit_orAll]
    exact any_eq_true.mpr ⟨_, mem_map_of_mem hl, hk⟩
  have hfree : ∀ k, packed.used.toNat.testBit k = true → packed.forced.toNat.testBit k = false := by
    intro k hk
    have hz := congrArg (fun n => n.testBit k) hapart
    simpa [hk] using hz
  have hset : ∀ k, packed.forced.toNat.testBit k = true → target.testBit k = true := by
    intro k hk
    have hz := congrArg (fun n => n.testBit k) hforced
    simpa [hk] using hz
  have hself : ∀ i : Nat, (2 ^ i).testBit i = true := fun i => Nat.testBit_two_pow_self
  rw [Bool.eq_iff_iff, decide_eq_true_eq, all_eq_true]
  constructor
  · rintro rfl lane hl
    obtain ⟨-, -, i, hi⟩ := hok.lanes lane hl
    have hli : lane.2.toNat.testBit i = true := by rw [hi]; exact hself i
    rw [hbit lane hl i hi, decide_eq_true_eq, hvalue, hfree i (hused lane hl i hli), Bool.false_or,
      Bool.eq_iff_iff, decide_eq_true_eq, any_eq_true]
    constructor
    · intro hp
      exact ⟨lane, hl, by simp [hp, hli]⟩
    · rintro ⟨other, hother, hcond⟩
      rw [and_eq_true, decide_eq_true_eq] at hcond
      by_cases heq : other = lane
      · rw [← heq]
        exact hcond.1
      · -- two lanes share no bit
        have hsymm : Std.Symm fun a b : SymRef × APInt => a.2.toNat &&& b.2.toNat = 0 :=
          ⟨fun a b hab => by rw [Nat.and_comm]; exact hab⟩
        have hzero := hok.apart.forall hother hl heq
        have hz := congrArg (fun n => n.testBit i) hzero
        rw [Nat.testBit_and, hcond.2, hli] at hz
        simp at hz
  · intro hall
    apply Nat.eq_of_testBit_eq
    intro k
    rw [hvalue]
    cases hf : packed.forced.toNat.testBit k with
    | true => rw [hset k hf, Bool.true_or]
    | false =>
      rw [Bool.false_or, Bool.eq_iff_iff, any_eq_true]
      constructor
      · rintro ⟨lane, hl, hcond⟩
        rw [and_eq_true, decide_eq_true_eq] at hcond
        obtain ⟨-, -, i, hi⟩ := hok.lanes lane hl
        have hik : i = k := by
          have := hcond.2
          rw [hi, Nat.testBit_two_pow] at this
          simpa using this
        have := hall lane hl
        rw [hbit lane hl i hi, decide_eq_true_eq, decide_eq_true hcond.1, hik] at this
        exact this.symm
      · intro htk
        have huk := (hrest k htk).resolve_right (by simp [hf])
        rw [hok.used, testBit_orAll, any_eq_true] at huk
        obtain ⟨n, hn, hnk⟩ := huk
        obtain ⟨lane, hl, rfl⟩ := mem_map.mp hn
        obtain ⟨-, -, i, hi⟩ := hok.lanes lane hl
        have hik : i = k := by
          rw [hi, Nat.testBit_two_pow] at hnk
          simpa using hnk
        have := hall lane hl
        rw [hbit lane hl i hi, decide_eq_true_eq, hik, htk] at this
        exact ⟨lane, hl, by rw [this, hnk]; rfl⟩

lemma means_laneCondition (hB : B.Sound last vals) {target : APInt} (ht : target.width = w)
    {lane : SymRef × APInt} (hl : Has s lane.1 1) (hlw : lane.2.width = w) :
    Means last vals s (laneCondition B target lane) 1
      (bit (laneHolds (last.num vals) target.toNat lane)) := by
  apply means_of_at
  intro h
  have hlt := h.lt hl
  have hcase : last.num vals lane.1 = 0 ∨ last.num vals lane.1 = 1 := by omega
  unfold laneCondition laneHolds
  rw [← toNat_and (hlw.trans ht.symm)]
  refine means_ite (fun hz => (hB.mkNot hl).congr ?_) fun hz => means_pure fun _ => ⟨hl, ?_⟩
  · rw [toNat_of_isZero hz]
    rcases hcase with h0 | h1
    · rw [h0]
      rfl
    · rw [h1]
      rfl
  · have hne : decide ((target.and lane.2).toNat = 0) = false := by
      rw [APInt.isZero] at hz
      simpa using hz
    rw [hne]
    rcases hcase with h0 | h1
    · rw [h0]
      rfl
    · rw [h1]
      rfl

lemma meansIf_packedCondition (hB : B.Sound last vals) {packed : SymContext.PackedWord}
    (hok : PackedOk last vals s w packed x) {target : APInt} (ht : target.width = w)
    (hx : ∀ k, x.testBit k = true → packed.used.toNat.testBit k = true ∨
    packed.forced.toNat.testBit k = true) :
    MeansIf last vals s (packedCondition B packed target) 1 (bit (x = target.toNat)) := by
  apply triple_of_at
  intro h
  have hforced : ∀ k, packed.forced.toNat.testBit k = true → x.testBit k = true := by
    intro k hk
    rw [hok.value, Nat.testBit_or, hk, Bool.true_or]
  have hand : (target.and packed.forced).toNat = target.toNat &&& packed.forced.toNat :=
    toNat_and (hok.forcedWidth.trans ht.symm)
  have hor : (packed.used.or packed.forced).toNat = packed.used.toNat ||| packed.forced.toNat :=
    toNat_or (hok.forcedWidth.trans hok.usedWidth.symm)
  have hrestNat : (target.and (packed.used.or packed.forced).not).toNat =
      target.toNat &&& notOf w (packed.used.toNat ||| packed.forced.toNat) := by
    rw [toNat_and (show (packed.used.or packed.forced).not.width =
      target.width from hok.usedWidth.trans ht.symm), toNat_not, hor]
    congr 2
    exact hok.usedWidth
  have hbound : packed.used.toNat ||| packed.forced.toNat < 2 ^ w := by
    have h1 := packed.used.toNat_lt
    have h2 := packed.forced.toNat_lt
    rw [hok.usedWidth] at h1
    rw [hok.forcedWidth] at h2
    exact Nat.or_lt_two_pow h1 h2
  have htlt := target.toNat_lt
  rw [ht] at htlt
  refine meansIf_ite (fun _ => meansIf_none) fun hapart => ?_
  rw [not_eq_true, not_eq_false'] at hapart
  have hapart' : packed.used.toNat &&& packed.forced.toNat = 0 := by
    rw [← toNat_and (hok.forcedWidth.trans hok.usedWidth.symm)]
    exact toNat_of_isZero hapart
  refine meansIf_ite (fun hfail => meansIf_some (means_mkFalse.congr ?_)) fun hpass => ?_
  · -- a forced bit is clear in the target, or a bit of the target is in no lane
    have hne : x ≠ target.toNat := by
      rintro rfl
      rcases hfail with hfail | hfail
      · apply hfail
        refine APInt.ext (show target.width = _ from ht.trans hok.forcedWidth.symm) ?_
        rw [hand]
        apply Nat.eq_of_testBit_eq
        intro k
        rw [Nat.testBit_and]
        cases hk : packed.forced.toNat.testBit k with
        | true => rw [hforced k hk]; rfl
        | false => simp
      · rw [Bool.not_eq_true'] at hfail
        have hnz : (target.and (packed.used.or packed.forced).not).toNat ≠ 0 := by
          intro hz
          rw [APInt.isZero, hz] at hfail
          simp at hfail
        apply hnz
        rw [hrestNat]
        apply Nat.eq_of_testBit_eq
        intro k
        rw [Nat.testBit_and, testBit_notOf hbound, Nat.testBit_or, Nat.zero_testBit]
        cases hk : target.toNat.testBit k with
        | false => rfl
        | true =>
          rcases hx k hk with hu | hf
          · simp [hu]
          · simp [hf]
    rw [decide_eq_false hne]
    rfl
  · rw [not_or, not_not, not_eq_true, not_eq_false'] at hpass
    have hforcedEq : target.toNat &&& packed.forced.toNat = packed.forced.toNat := by
      rw [← hand, hpass.1]
    have hrest : ∀ k, target.toNat.testBit k = true → packed.used.toNat.testBit k = true ∨
        packed.forced.toNat.testBit k = true := by
      intro k hk
      have hz := congrArg (fun n => n.testBit k) (hrestNat.symm.trans (toNat_of_isZero hpass.2))
      simp only [Nat.testBit_and, testBit_notOf hbound, Nat.testBit_or, Nat.zero_testBit, hk,
        Bool.true_and, decide_eq_true (lt_of_testBit_true htlt hk)] at hz
      cases hu : packed.used.toNat.testBit k with
      | true => exact .inl rfl
      | false =>
        rw [hu] at hz
        exact .inr (by simpa using hz)
    have hiff := packed_eq_iff h hok hapart' hforcedEq hrest
    refine triple_bind (triple_each_map packed.lanes fun t _ het lane hl =>
      means_laneCondition hB ht ((hok.lanes lane hl).1.mono het) (hok.lanes lane hl).2.1) ?_
    intro conditions t _ _ hcs
    have hmap : conditions.map (last.num vals) =
        (packed.lanes.map (laneHolds (last.num vals) target.toNat)).map bit := by
      rw [hcs.2, map_map]
      rfl
    have hall : bit (x = target.toNat) = andAll 1 (conditions.map (last.num vals)) := by
      rw [hiff, hmap, andAll_bits, all_map]
      rfl
    apply meansIf_some
    rw [hall]
    refine means_ite (fun hnil => ?_) fun _ => hB.mkAnd hcs.1
    rw [hnil]
    exact means_mkTrue

lemma observedBits_spec (h : At last vals s) (hw : Has s word w) :
    Has s (s.ctx.observedBits word).2 w ∧ (s.ctx.observedBits word).1.width = w ∧
      last.num vals word = last.num vals (s.ctx.observedBits word).2 &&&
        (s.ctx.observedBits word).1.toNat := by
  unfold SymContext.observedBits
  split
  next hm =>
    rw [and_eq_true, decide_eq_true_eq] at hm
    obtain ⟨hops, h0, hc, hrest, hnum⟩ := h.masked hw hm.1
    have hlen : ((s.ctx.operands word).drop 1).length = 1 := by
      rw [length_drop]
      unfold SymContext.numOperands at hm
      omega
    obtain ⟨a, ha⟩ := length_eq_one_iff.mp hlen
    have h1 : s.ctx.operand word 1 = a := by
      unfold SymContext.operand
      rw [hops, ha]
      rfl
    have haw : Has s a w := hrest a (by rw [ha]; exact mem_cons_self ..)
    rw [h1]
    refine ⟨haw, h.const_width h0 hc, ?_⟩
    rw [hnum, ha, Nat.and_comm]
    congr 1
    exact and_ones (h.lt haw)
  · refine ⟨hw, hw.2, ?_⟩
    rw [toNat_allOnes, hw.2, and_ones (h.lt hw)]

lemma meansIf_recoverPackedEquality (hB : B.Sound last vals) {literal : SymRef} (hw : Has s word w)
    (hl : Has s literal w) : MeansIf last vals s (recoverPackedEquality B word literal) 1
      (bit (last.num vals word = last.num vals literal)) := by
  apply meansIf_context
  intro h
  refine meansIf_ite (fun _ => meansIf_none) fun hconst => ?_
  rw [not_eq_true, not_eq_false'] at hconst
  refine meansIf_ite (fun _ => meansIf_none) fun hop => ?_
  obtain ⟨ho, how, hnum⟩ := observedBits_spec h hw
  rw [not_not] at hop
  obtain ⟨-, hall⟩ := h.nary ho (by simp [hop])
  rw [hw.2]
  split
  · exact meansIf_none
  next packed hpacked =>
    have hempty : PackedOk last vals s w ⟨.zero w, .zero w, []⟩ 0 :=
      ⟨rfl, rfl, forall_mem_nil _, by simp [orAll], .nil, by simp [orAll]⟩
    have hok := packedLanes_spec h how hall hempty hpacked
    rw [Nat.zero_or, ← h.or_num ho hop, ← hnum] at hok
    rw [h.const_num hl hconst]
    refine meansIf_packedCondition hB hok (h.const_width hl hconst) ?_
    intro k hk
    rw [hok.value, Nat.testBit_or, testBit_orAll, Bool.or_eq_true, any_eq_true] at hk
    rcases hk with hf | ⟨n, hn, hnk⟩
    · exact .inr hf
    · obtain ⟨lane, hlm, rfl⟩ := mem_map.mp hn
      obtain ⟨h1, -, i, hi⟩ := hok.lanes lane hlm
      refine .inl ?_
      rw [hok.used, testBit_orAll]
      refine any_eq_true.mpr ⟨_, mem_map_of_mem hlm, ?_⟩
      rw [hi, testBit_lane (h.lt h1), and_eq_true, decide_eq_true_eq, decide_eq_true_eq] at hnk
      rw [hi, hnk.2]
      exact Nat.testBit_two_pow_self

end NeverD.Sym
