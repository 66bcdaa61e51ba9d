import NeverD.Sym.KnownSame

namespace NeverD.Sym
open Lib KnownBits KnownTransfer
open Words
open KnownM SymKnownBits List

variable [BlockHash] [KnownTransfer] {last : SymContext} {vals : List APInt} {s : SymBuilder}
variable {steps : KnownSteps}
variable {a b : SymRef} {k facts : KnownBits} {cs : List SymRef} {ks : List KnownBits}

variable {depth w : Nat} {r : SymRef} {right left : KnownBits}

omit [KnownTransfer] in
lemma learns_sumBounds (h : At last vals s) (hsteps : StepsSound last vals s steps) {x : Nat}
    {coarse : Nat × Nat} (hcoarse : coarse.1 ≤ x ∧ x ≤ coarse.2) (terms : List SymRef)
    (ht : ∀ t ∈ terms, Has s t w) {minimum maximum p : Nat} (hmin : minimum ≤ p)
    (hmax : p ≤ maximum) (hlt : maximum < 2 ^ w)
    (hx : x = (p + (terms.map (last.num vals)).sum) % 2 ^ w) :
    Learns last vals s (sumBounds steps w depth coarse terms minimum maximum) fun b => b.1 ≤ x ∧
      x ≤ b.2 := by
  induction terms generalizing minimum maximum p with
  | nil =>
    apply learns_pure
    rw [hx, map_nil, sum_nil, add_zero, Nat.mod_eq_of_lt (lt_of_le_of_lt hmax hlt)]
    exact ⟨hmin, hmax⟩
  | cons t rest ih =>
    have hr := ht t (mem_cons_self ..)
    refine learns_bind (learns_spend _) ?_
    intro _ _
    refine learns_bind (hsteps.infer t depth hr.1) ?_
    intro k hk
    rw [hr.2] at hk
    refine learns_ite (fun _ => learns_pure hcoarse) (fun hn => ?_)
    refine ih (fun t' ht' => ht t' (mem_cons_of_mem _ ht')) (p := p + last.num vals t)
      (Nat.add_le_add hmin hk.min_le) (Nat.add_le_add hmax (hk.le_max (h.lt hr))) (not_le.mp hn) ?_
    rw [hx, map_cons, sum_cons, add_assoc]

omit [KnownTransfer] in
lemma learns_bounds (h : At last vals s) (hsteps : StepsSound last vals s steps)
    (hr : Has s r w) (hk : k.Knows w (last.num vals r)) :
    Learns last vals s (bounds s.ctx steps r k depth) fun b => b.1 ≤ last.num vals r ∧
      last.num vals r ≤ b.2 := by
  have hcoarse : k.getMinValue ≤ last.num vals r ∧ last.num vals r ≤ k.getMaxValue :=
    ⟨hk.min_le, hk.le_max (h.lt hr)⟩
  refine learns_ite (fun _ => learns_pure hcoarse) (fun hop => ?_)
  rw [not_not] at hop
  rw [hr.2]
  refine learns_sumBounds h hsteps hcoarse _ (h.nary hr (by simp [hop])).2 (p := 0) (Nat.le_refl 0)
    (Nat.le_refl 0) (Nat.two_pow_pos w) ?_
  rw [h.add_num hr hop, addAll, zero_add]

omit [BlockHash] [KnownTransfer] in
lemma mask_bits {k low i : Nat} (h : k &&& notOf w (ones low) = notOf w (ones low)) (hl : low ≤ w)
    (h1 : low ≤ i) (h2 : i < w) : k.testBit i = true := by
  have := congrArg (fun z => Nat.testBit z i) h
  have hm : (notOf w (ones low)).testBit i = true := by
    rw [testBit_notOf ((ones_lt low).trans_le (Nat.pow_le_pow_right two_pos hl))]
    simp [h1, h2]
  simpa [hm] using this

variable (h : At last vals s)
include h

variable (hsteps : StepsSound last vals s steps)
include hsteps

omit [KnownTransfer] in
lemma learns_projectedWidened
    {back source : SymRef} (hb : Has s back w) (hs : Has s source w)
    (hf : facts.Knows w (last.num vals source)) :
    Learns last vals s (projectedWidened s.ctx steps back source facts depth) fun same =>
      same = true → last.num vals back = last.num vals source := by
  have hno : Learns last vals s (pure false) fun same => same = true →
      last.num vals back = last.num vals source := learns_pure (fun hn => (nomatch hn))
  refine learns_ite (fun _ => hno) (fun hop => ?_)
  refine learns_ite (fun hmask => ?_) (fun _ => hno)
  rw [hs.2] at hmask
  have hx := h.lt hs
  have hop' : s.ctx.op back = .zext ∨ s.ctx.op back = .sext := by
    by_cases hz : s.ctx.op back = .zext
    · exact Or.inl hz
    · exact Or.inr (by by_contra hn; exact hop ⟨hz, hn⟩)
  rcases hop' with hop' | hop'
  · obtain ⟨-, hi, hlt, hn⟩ := h.zext_num hb hop'
    rw [hop', if_neg (by simp), Nat.sub_zero] at hmask
    have hzero : facts.zero &&& notOf w (ones (s.ctx.width (s.ctx.operand back 0))) =
        notOf w (ones (s.ctx.width (s.ctx.operand back 0))) := by
      rcases hmask with hm | hm
      · exact hm
      · exact absurd hm.1 (by simp)
    refine learns_mono (hsteps.same _ source _ (depth + 1) hi.1 hs.1 (h.pos hi) le_rfl
      (by rw [hs.2]; exact hlt.le)) ?_
    intro same hsame ht
    rw [hn]
    have hlow := mod_two_pow_eq_iff.mp (hsame ht)
    apply eq_of_bits ((h.lt hi).trans_le (Nat.pow_le_pow_right two_pos hlt.le)) hx
    intro i hiw
    by_cases hil : i < s.ctx.width (s.ctx.operand back 0)
    · exact hlow i hil
    · rw [testBit_of_lt (h.lt hi) (not_lt.mp hil),
        hf.clear i (mask_bits hzero hlt.le (not_lt.mp hil) hiw)]
  · obtain ⟨-, hi, hlt, hn⟩ := h.sext_num hb hop'
    have hpos := h.pos hi
    rw [hop', if_pos rfl] at hmask
    refine learns_mono (hsteps.same _ source _ (depth + 1) hi.1 hs.1 hpos le_rfl
      (by rw [hs.2]; exact hlt.le)) ?_
    intro same hsame ht
    have hlow := mod_two_pow_eq_iff.mp (hsame ht)
    rw [hn]
    -- the bits from the sign on all have one value
    have hhigh : ∃ v, ∀ i, s.ctx.width (s.ctx.operand back 0) - 1 ≤ i → i < w →
        (last.num vals source).testBit i = v := by
      rcases hmask with hm | ⟨-, hm⟩
      · exact ⟨false, fun i h1 h2 => hf.clear i (mask_bits hm (by omega) h1 h2)⟩
      · exact ⟨true, fun i h1 h2 => hf.set i (mask_bits hm (by omega) h1 h2)⟩
    obtain ⟨v, hv⟩ := hhigh
    apply eq_of_bits (sextOf_lt (h.lt hi) hlt.le) hx
    intro i hiw
    rw [testBit_sextOf (h.lt hi) hlt.le]
    split
    next hil => exact hlow i hil
    next hil =>
      rw [msb, hlow _ (by omega), hv _ le_rfl (by omega), hv i (by omega) hiw, decide_eq_true hiw,
        Bool.true_and]

omit [KnownTransfer] in
lemma learns_projectedSide
    {back source : SymRef} (hb : Has s back w) (hs : Has s source w)
    (hf : facts.Knows w (last.num vals source)) :
    Learns last vals s (projectedSide s.ctx steps back source facts depth) fun same =>
      same.1 = true → last.num vals back = last.num vals source := by
  refine learns_bind (learns_losslessProjection h hb hs hf) ?_
  intro lossless hl
  refine learns_ite (fun ht => learns_pure (fun _ => hl ht)) (fun _ => ?_)
  refine learns_bind (learns_projectedWidened h hsteps hb hs hf) ?_
  intro same hsame
  exact learns_pure hsame

omit [KnownTransfer] in
lemma learns_projectedEither (ha : Has s a w) (hb : Has s b w)
    (hl : left.Knows w (last.num vals a)) (hr : right.Knows w (last.num vals b)) :
    Learns last vals s (projectedEither s.ctx steps a b left right depth) fun same => same = true →
      last.num vals a = last.num vals b := by
  refine learns_bind (learns_projectedSide h hsteps ha hb hr) ?_
  intro first hfirst
  refine learns_ite (fun _ => learns_pure hfirst) (fun _ => ?_)
  refine learns_bind (learns_projectedSide h hsteps hb ha hl) ?_
  intro second hsecond
  apply learns_pure
  intro ht
  rcases Bool.or_eq_true_iff.mp ht with ht | ht
  · exact hfirst ht
  · exact (hsecond ht).symm

omit hsteps

omit [KnownTransfer] in
lemma signedAgainstUnsigned_spec
    (ha : Has s a w) (hb : Has s b w) (hf : facts.Knows w (last.num vals a)) {answer : Bool}
    (hs : signedAgainstUnsigned s.ctx a b facts = some answer) :
    answer = decide (last.num vals a = last.num vals b) := by
  unfold signedAgainstUnsigned at hs
  split at hs
  · cases hs
  rename_i hc
  rw [not_or, not_or, not_not, not_not, not_not] at hc
  obtain ⟨hopa, hopb, hsame⟩ := hc
  obtain ⟨-, hi, hlt, hna⟩ := h.sext_num ha hopa
  obtain ⟨-, -, -, hnb⟩ := h.zext_num hb hopb
  have hx := h.lt hi
  have hpos := h.pos hi
  -- the sign of the extension is the sign of the word
  have hsign : (last.num vals a).testBit (w - 1) =
      msb (s.ctx.width (s.ctx.operand a 0)) (last.num vals (s.ctx.operand a 0)) := by
    rw [hna, testBit_sextOf hx hlt.le, if_neg (by omega), decide_eq_true (by omega), Bool.true_and]
  split at hs
  next hone =>
    cases hs
    rw [hf.width] at hone
    have hbit := hf.set _ hone
    symm
    apply decide_eq_false
    intro heq
    rw [heq, hnb, ← hsame, testBit_of_lt hx (by omega)] at hbit
    cases hbit
  · split at hs
    next hzero =>
      cases hs
      rw [hf.width] at hzero
      have hbit := hf.clear _ hzero
      rw [hsign] at hbit
      symm
      apply decide_eq_true
      rw [hna, hnb, ← hsame]
      unfold sextOf
      rw [hbit]
      rfl
    · cases hs

omit [KnownTransfer] in
lemma learns_compareEqual (hsteps : StepsSound last vals s steps) (ha : Has s a w) (hb : Has s b w)
    (hl : left.Knows w (last.num vals a)) (hr : right.Knows w (last.num vals b)) :
    Learns last vals s (compareEqual s.ctx steps a b left right depth) fun found => ∀ answer,
      found = some answer → answer = decide (last.num vals a = last.num vals b) := by
  refine learns_bind (learns_projectedEither h hsteps ha hb hl hr) ?_
  intro projected hp
  refine learns_ite (fun ht => ?_) (fun _ => ?_)
  · apply learns_pure
    intro answer he
    cases he
    exact (decide_eq_true (hp ht)).symm
  cases h1 : signedAgainstUnsigned s.ctx a b left with
  | some v =>
    apply learns_pure
    intro answer he
    cases he
    exact signedAgainstUnsigned_spec h ha hb hl h1
  | none =>
    cases h2 : signedAgainstUnsigned s.ctx b a right with
    | some v =>
      apply learns_pure
      intro answer he
      cases he
      rw [signedAgainstUnsigned_spec h hb ha hr h2]
      exact decide_eq_decide.mpr eq_comm
    | none =>
      refine learns_bind (hsteps.same a b _ (depth + 1) ha.1 hb.1 (by rw [ha.2]; exact h.pos ha)
        le_rfl (by rw [ha.2, hb.2])) ?_
      intro same hsame
      apply learns_pure
      intro answer he
      split at he
      next ht =>
        cases he
        have := hsame ht
        rw [ha.2, Nat.mod_eq_of_lt (h.lt ha), Nat.mod_eq_of_lt (h.lt hb)] at this
        exact (decide_eq_true this).symm
      · cases he

omit h

def unsignedHolds (op : SymOp) (x y : Nat) : Bool := if op = .ult then x < y else x ≤ y

variable {op : SymOp}

omit [BlockHash] [KnownTransfer] in
lemma orderOfBounds_spec {x y : Nat × Nat} {m n : Nat} (hx : x.1 ≤ m ∧ m ≤ x.2)
    (hy : y.1 ≤ n ∧ n ≤ y.2) {answer : Bool} (h : orderOfBounds op x y = some answer) :
    answer = unsignedHolds op m n := by
  unfold orderOfBounds at h
  unfold unsignedHolds
  split at h
  next hop =>
    rw [if_pos hop]
    split at h
    · cases h
      symm
      apply decide_eq_true
      omega
    · split at h
      · cases h
        symm
        apply decide_eq_false
        omega
      · cases h
  next hop =>
    rw [if_neg hop]
    split at h
    · cases h
      symm
      apply decide_eq_true
      omega
    · split at h
      · cases h
        symm
        apply decide_eq_false
        omega
      · cases h

omit [KnownTransfer] in
lemma learns_compareOrder (h : At last vals s) (hsteps : StepsSound last vals s steps)
    (hop : op = .ult ∨ op = .ule) (ha : Has s a w)
    (hb : Has s b w) (hl : left.Knows w (last.num vals a)) (hr : right.Knows w (last.num vals b)) :
    Learns last vals s (compareOrder s.ctx steps op a b left right depth) fun found => ∀ answer,
      found = some answer → answer = unsignedHolds op (last.num vals a) (last.num vals b) := by
  refine learns_bind (learns_attempt (learns_bounds h hsteps ha hl)) ?_
  intro x hx
  refine learns_bind (learns_attempt (learns_bounds h hsteps hb hr)) ?_
  intro y hy
  match x, y with
  | none, _ => exact learns_giveUp
  | some _, none => exact learns_giveUp
  | some x, some y =>
    dsimp only
    cases ho : orderOfBounds op x y with
    | some v =>
      apply learns_pure
      intro answer he
      cases he
      exact orderOfBounds_spec (hx x rfl) (hy y rfl) ho
    | none =>
      have hparts : Learns last vals s (orderOfParts s.ctx steps op a b (depth + 2)) fun c =>
          c = true → decide (op = .ule) = unsignedHolds op (last.num vals a) (last.num vals b) := by
        refine learns_ite (fun hu => ?_) (fun hu => ?_)
        · refine learns_mono (learns_nonwrappingAtLeast h hsteps ha hb) ?_
          intro c hc ht
          have := hc ht
          rw [unsignedHolds, if_pos hu, hu,
            decide_eq_false (show ¬ last.num vals a < last.num vals b by omega)]
          rfl
        · refine learns_mono (learns_nonwrappingAtLeast h hsteps hb ha) ?_
          intro c hc ht
          have := hc ht
          have hule : op = .ule := hop.resolve_left hu
          rw [unsignedHolds, if_neg hu, hule, decide_eq_true this]
          rfl
      refine learns_bind hparts ?_
      intro c hc
      apply learns_pure
      intro answer he
      split at he
      next ht =>
        cases he
        exact hc ht
      · cases he

def holds (op : SymOp) (w x y : Nat) : Bool :=
  match op with
  | .eq => x = y
  | .ult => x < y
  | .ule => x ≤ y
  | .slt => toInt w x < toInt w y
  | _ => toInt w x ≤ toInt w y

lemma learns_compareFurther (hT : Sound) (h : At last vals s)
    (hsteps : StepsSound last vals s steps) (ha : Has s a w) (hb : Has s b w)
    (hl : left.Knows w (last.num vals a)) (hr : right.Knows w (last.num vals b)) :
    Learns last vals s (compareFurther s.ctx steps op a b left right depth) fun found => ∀ answer,
      found = some answer → answer = holds op w (last.num vals a) (last.num vals b) := by
  have hx := h.lt ha
  have hy := h.lt hb
  have hnone : Learns last vals s (pure (none : Option Bool)) fun found => ∀ answer,
      found = some answer → answer = holds op w (last.num vals a) (last.num vals b) :=
    learns_pure (fun answer hn => (nomatch hn))
  unfold compareFurther
  cases hc : transferCompare op left right with
  | some v =>
    apply learns_pure
    intro answer he
    cases he
    unfold transferCompare at hc
    unfold holds
    split at hc
    · exact hT.eq hl hr hx hy hc
    · exact hT.ult hl hr hx hy hc
    · exact hT.ule hl hr hx hy hc
    · exact hT.slt hl hr hx hy hc
    next h1 h2 h3 h4 =>
      have := hT.sle hl hr hx hy hc
      cases op <;> first | exact this | contradiction
  | none =>
    refine learns_ite (fun hop => ?_) (fun _ => ?_)
    · rw [hop]
      exact learns_compareEqual h hsteps ha hb hl hr
    · refine learns_ite (fun hop => ?_) (fun _ => hnone)
      refine learns_mono (learns_compareOrder h hsteps hop ha hb hl hr) ?_
      intro found hfound answer he
      rw [hfound answer he]
      rcases hop with rfl | rfl
      · rfl
      · rfl

lemma learns_compare (hT : Sound) (h : At last vals s)
    (hsteps : StepsSound last vals s steps) {v : Nat} (hr : Has s r w)
    (hop : isPredicate (s.ctx.op r) = true)
    (ha : Has s (s.ctx.operand r 0) v) (hb : Has s (s.ctx.operand r 1) v)
    (hl : left.Knows v (last.num vals (s.ctx.operand r 0)))
    (hrr : right.Knows v (last.num vals (s.ctx.operand r 1))) :
    Learns last vals s (compare s.ctx steps r left right depth) fun k =>
      k.Knows w (last.num vals r) := by
  obtain ⟨hw, hops, hia, hib⟩ := h.compared hr hop
  subst hw
  have hn : last.num vals r = bit (holds (s.ctx.op r) v (last.num vals (s.ctx.operand r 0))
      (last.num vals (s.ctx.operand r 1))) := by
    have hne : s.ctx.op r ≠ .const ∧ s.ctx.op r ≠ .var := by
      constructor
      all_goals
        intro hn
        rw [hn] at hop
        cases hop
    rw [h.op_num hr hne.1 hne.2, hops, ← ha.2]
    simp only [isPredicate, decide_eq_true_eq] at hop
    rcases hop with hop | hop | hop | hop | hop
    all_goals
      rw [hop]
      rfl
  refine learns_bind (learns_compareFurther hT h hsteps ha hb hl hrr) ?_
  intro value hvalue
  apply learns_pure
  cases value with
  | none => exact knows_unknown ..
  | some answer =>
    have hk := knows_const (APInt.ofBool answer)
    rw [toNat_ofBool, hvalue answer rfl, ← hn] at hk
    exact hvalue answer rfl ▸ hk

omit [KnownTransfer] in
lemma learns_divisorNonzero (h : At last vals s) (hsteps : StepsSound last vals s steps)
    {divisor : SymRef} (hd : Has s divisor w) (hr : right.Knows w (last.num vals divisor)) :
    Learns last vals s (divisorNonzero s.ctx steps divisor right depth) fun nonzero =>
      nonzero = true → last.num vals divisor ≠ 0 := by
  refine learns_ite (fun hn => ?_) (fun _ => ?_)
  · apply learns_pure
    intro _ hz
    have hle := hr.min_le
    have hone : right.one ≠ 0 := of_decide_eq_true hn
    unfold getMinValue at hle
    omega
  refine learns_ite (fun hop => ?_) (fun _ => learns_pure (fun hn => (nomatch hn)))
  cases hfind : (s.ctx.operands divisor).find? fun t =>
      decide (s.ctx.isConst t = true ∧ ¬ (s.ctx.constValue t).isZero = true) with
  | none => exact learns_pure (fun hn => (nomatch hn))
  | some term =>
    have hmem := mem_of_find?_eq_some hfind
    have hc := find?_some hfind
    rw [decide_eq_true_eq] at hc
    have ht := (h.nary hd (by simp [hop])).2 term hmem
    refine learns_mono (learns_nonwrappingAtLeast h hsteps hd ht) ?_
    intro c hle hc'
    have hpos : last.num vals term ≠ 0 := by
      rw [h.const_num ht hc.1]
      intro hz
      exact hc.2 (decide_eq_true hz)
    have := hle hc'
    omega

lemma learns_computeURem (hT : Sound) (h : At last vals s)
    (hsteps : StepsSound last vals s steps) (hr : Has s r w) (hop : s.ctx.op r = .urem) :
    Learns last vals s (computeURem s.ctx steps r w depth) fun k =>
      k.Knows w (last.num vals r) := by
  have hs := h.shape hr
  rw [hop] at hs
  obtain ⟨hops, ha, hb⟩ := h.two hr hs
  have hn : last.num vals r = last.num vals (s.ctx.operand r 0) % last.num vals
      (s.ctx.operand r 1) := by
    rw [h.op_num hr (by simp [hop]) (by simp [hop]), hop, hops]
    rfl
  have hx := h.lt ha
  have hy := h.lt hb
  refine learns_bind (learns_spend _) ?_
  intro _ _
  refine learns_bind (hsteps.infer _ (depth + 1) hb.1) ?_
  intro right hright
  rw [hb.2] at hright
  refine learns_bind (learns_divisorNonzero h hsteps hb hright) ?_
  intro nonzero hnz
  refine learns_bind (learns_attempt (hsteps.infer _ (depth + 1) ha.1)) ?_
  intro left hleft
  rw [ha.2] at hleft
  have hdiv : (left.getD (unknown w)).Knows w (last.num vals (s.ctx.operand r 0)) := by
    cases left with
    | none => exact knows_unknown ..
    | some k => exact hleft k rfl
  generalize left.getD (unknown w) = dividend at hdiv
  refine learns_ite (fun hc => ?_) (fun _ => ?_)
  · apply learns_pure
    have hone := hright.constant hy hc.2.1
    have hle := hdiv.le_max hx
    rw [hn, Nat.mod_eq_of_lt (by omega)]
    exact hdiv
  have hres : (if nonzero then urem dividend right
      else (urem dividend right).intersectWith dividend).Knows w (last.num vals r) := by
    rw [hn]
    split
    next ht => exact hT.urem hdiv hright hx hy (hnz ht)
    · have hww : dividend.width = right.width := hdiv.width.trans hright.width.symm
      have hb' := hT.urem_bounded hww
      rw [hdiv.width] at hb'
      apply knows_intersect_left ((hT.urem_width hww).trans hdiv.width) hb'
      · intro i h1 h2
        by_cases hz : last.num vals (s.ctx.operand r 1) = 0
        · rw [hz, Nat.mod_zero]
          exact hdiv.clear i h2
        · exact (hT.urem hdiv hright hx hy hz).clear i h1
      · intro i h1 h2
        by_cases hz : last.num vals (s.ctx.operand r 1) = 0
        · rw [hz, Nat.mod_zero]
          exact hdiv.set i h2
        · exact (hT.urem hdiv hright hx hy hz).set i h1
  exact learns_ite (fun _ => learns_giveUp) (fun _ => learns_pure hres)

omit [BlockHash] [KnownTransfer] in
lemma shiftKnown_spec (hop : op = .shl ∨ op = .lshr ∨ op = .ashr) {v x n : Nat}
    {count : KnownBits} (hw : 0 < w) (hk : k.Knows w x) (hc : count.Knows v n) (hx : x < 2 ^ w)
    (hn : n < 2 ^ v) : (shiftKnown op w k count).Knows w (opNum op w 0 [(w, x), (v, n)]) := by
  unfold shiftKnown
  split
  · exact knows_unknown ..
  rename_i hconst
  rw [not_not] at hconst
  rw [hc.constant hn hconst]
  have h1 := hk.one_lt hx
  dsimp only
  split
  next hle =>
    split
    next hna =>
      have hzero : opNum op w 0 [(w, x), (v, n)] = 0 := by
        rcases hop with rfl | rfl | rfl
        · exact Nat.mod_eq_zero_of_dvd (Dvd.dvd.mul_left (pow_dvd_pow 2 hle) x)
        · show x / 2 ^ n = 0
          exact Nat.div_eq_of_lt (hx.trans_le (Nat.pow_le_pow_right two_pos hle))
        · exact absurd rfl hna
      rw [hzero]
      have := knows_const (APInt.zero w)
      rwa [toNat_zero] at this
    next hna =>
      rw [not_not] at hna
      subst hna
      have hs : slice (w - 1) 1 x < 2 ^ 1 := slice_lt ..
      have hext := (hk.extract (w - 1) 1).sext hs hw
      have heq : sextOf 1 w (slice (w - 1) 1 x) = ashrOf w x n := by
        apply eq_of_bits (sextOf_lt hs hw) (ashrOf_lt hx n)
        intro i hi
        have hm : msb 1 (slice (w - 1) 1 x) = msb w x := by
          unfold msb
          rw [testBit_slice]
          rfl
        rw [testBit_sextOf hs hw, testBit_ashrOf hx hi, if_neg (show ¬ i + n < w by omega), hm]
        split
        next hi0 =>
          rw [testBit_slice, decide_eq_true hi0, show w - 1 + i = w - 1 by omega]
          rfl
        · rw [decide_eq_true hi]
          rfl
      rwa [heq] at hext
  next hlt =>
    rcases hop with rfl | rfl | rfl
    · refine ⟨rfl, ?_, fun i hi => ?_, fun i hi => ?_⟩
      · exact Nat.or_lt_two_pow (Nat.mod_lt _ (Nat.two_pow_pos w))
          ((ones_lt n).trans_le (Nat.pow_le_pow_right two_pos (by omega)))
      · show (x * 2 ^ n % 2 ^ w).testBit i = false
        rw [Nat.testBit_or, Nat.testBit_mod_two_pow, mul_comm, Nat.testBit_two_pow_mul,
          testBit_ones] at hi
        rw [Nat.testBit_mod_two_pow, mul_comm, Nat.testBit_two_pow_mul]
        by_cases hin : n ≤ i
        · simp only [hin, decide_true, Bool.true_and,
            show ¬ i < n by omega, decide_false, Bool.or_false, Bool.and_eq_true] at hi
          rw [hk.clear _ hi.2]
          simp
        · simp [hin]
      · show (x * 2 ^ n % 2 ^ w).testBit i = true
        rw [Nat.testBit_mod_two_pow, mul_comm, Nat.testBit_two_pow_mul, Bool.and_eq_true,
          Bool.and_eq_true] at hi
        rw [Nat.testBit_mod_two_pow, mul_comm, Nat.testBit_two_pow_mul, hi.1, hi.2.1,
          hk.set _ hi.2.2]
        rfl
    · refine ⟨rfl, ?_, fun i hi => ?_, fun i hi => ?_⟩
      · exact Nat.or_lt_two_pow (lt_of_le_of_lt (Nat.div_le_self _ _) hk.bounded) (notOf_lt ..)
      · show (x / 2 ^ n).testBit i = false
        rw [Nat.testBit_or, Nat.testBit_div_two_pow,
          testBit_notOf ((ones_lt _).trans_le (Nat.pow_le_pow_right two_pos (Nat.sub_le w n))),
          testBit_ones, Bool.or_eq_true, Bool.and_eq_true] at hi
        rw [Nat.testBit_div_two_pow]
        rcases hi with hi | hi
        · exact hk.clear _ hi
        · apply testBit_of_lt hx
          have h2 := hi.2
          simp at h2
          omega
      · show (x / 2 ^ n).testBit i = true
        rw [Nat.testBit_div_two_pow] at hi ⊢
        exact hk.set _ hi
    · refine ⟨rfl, ashrOf_lt hk.bounded n, fun i hi => ?_, fun i hi => ?_⟩
      · show (ashrOf w x n).testBit i = false
        have hiw := lt_of_testBit_true (ashrOf_lt hk.bounded n) hi
        rw [testBit_ashrOf hk.bounded hiw] at hi
        rw [testBit_ashrOf hx hiw]
        split
        next hin =>
          rw [if_pos hin] at hi
          exact hk.clear _ hi
        next hin =>
          rw [if_neg hin] at hi
          exact hk.clear _ hi
      · show (ashrOf w x n).testBit i = true
        have hiw := lt_of_testBit_true (ashrOf_lt h1 n) hi
        rw [testBit_ashrOf h1 hiw] at hi
        rw [testBit_ashrOf hx hiw]
        split
        next hin =>
          rw [if_pos hin] at hi
          exact hk.set _ hi
        next hin =>
          rw [if_neg hin] at hi
          exact hk.set _ hi

omit [KnownTransfer] in
lemma learns_computeIte (h : At last vals s) (hsteps : StepsSound last vals s steps)
    (hr : Has s r w) (hop : s.ctx.op r = .ite) :
    Learns last vals s (computeIte s.ctx steps r depth) fun k => k.Knows w (last.num vals r) := by
  obtain ⟨hc, ha, hb, hn⟩ := h.ite_num hr hop
  refine learns_bind (hsteps.infer _ (depth + 1) ha.1) ?_
  intro taken ht
  rw [ha.2] at ht
  refine learns_bind (hsteps.infer _ (depth + 1) hb.1) ?_
  intro otherwise ho
  rw [hb.2] at ho
  have hcommon : (taken.intersectWith otherwise).Knows w (last.num vals r) := by
    rw [hn]
    apply knows_intersect_left ht.width ht.bounded
    · intro i h1 h2
      split
      · exact ho.clear i h2
      · exact ht.clear i h1
    · intro i h1 h2
      split
      · exact ho.set i h2
      · exact ht.set i h1
  refine learns_bind (learns_attempt (hsteps.infer _ (depth + 1) hc.1)) ?_
  intro condition hcond
  rw [hc.2] at hcond
  cases condition with
  | none => exact learns_ite (fun _ => learns_giveUp) (fun _ => learns_pure hcommon)
  | some k =>
    refine learns_ite (fun hk => ?_) (fun _ => learns_pure hcommon)
    apply learns_pure
    have hone := (hcond k rfl).constant (h.lt hc) hk
    rw [hn, ← hone]
    split
    · exact ho
    · exact ht

omit [KnownTransfer] in
lemma learns_inferOperands (h : At last vals s) (hsteps : StepsSound last vals s steps)
    (hr : Has s r w) : Learns last vals s (inferOperands s.ctx steps op depth (s.ctx.operands r))
      (List.Forall₂ (fun c k => k.Knows (s.ctx.width c) (last.num vals c)) (s.ctx.operands r)) := by
  apply learns_each
  intro c hc
  have hv := h.typed.operand_lt hr.1 hc
  refine learns_ite (fun _ => ?_) (fun _ => hsteps.infer c (depth + 1) hv)
  refine learns_bind (learns_attempt (hsteps.infer c (depth + 1) hv)) ?_
  intro k hk
  apply learns_pure
  cases k with
  | none => exact knows_unknown ..
  | some k => exact hk k rfl

/-- The operands one after another: the facts so far, about the word so far. -/
theorem foldl_combineKnown (hT : Sound) (h : At last vals s)
    (hop : op = .and ∨ op = .or ∨ op = .xor ∨ op = .add ∨ op = .mul)
    (hcs : ∀ c ∈ cs, Has s c w)
    (hf : List.Forall₂ (fun c k => k.Knows (s.ctx.width c) (last.num vals c)) cs ks)
    {acc : KnownBits} {x : Nat} (hx : x < 2 ^ w) (hacc : acc.Knows w x) :
    (ks.foldl (combineKnown op) acc).Knows w (match op with
      | .and => andAll w (x :: cs.map (last.num vals))
      | .or => orAll (x :: cs.map (last.num vals))
      | .xor => xorAll (x :: cs.map (last.num vals))
      | .add => addAll w (x :: cs.map (last.num vals))
      | _ => mulAll w (x :: cs.map (last.num vals))) := by
  induction hf generalizing acc x with
  | nil =>
    rcases hop with rfl | rfl | rfl | rfl | rfl
    · simpa [and_ones hx] using hacc
    · simpa using hacc
    · simpa using hacc
    · simpa [addAll, Nat.mod_eq_of_lt hx] using hacc
    · simpa [mulAll, Nat.mod_eq_of_lt hx] using hacc
  | @cons c k cs ks hk hf ih =>
    have hc := hcs c (mem_cons_self ..)
    have hrest := fun c' hc' => hcs c' (mem_cons_of_mem _ hc')
    have hy := h.lt hc
    rw [hc.2] at hk
    rw [foldl_cons, map_cons]
    rcases hop with rfl | rfl | rfl | rfl | rfl
    · have := ih hrest (Nat.and_lt_two_pow x hy) (hacc.and hk)
      simpa [combineKnown, Nat.and_assoc] using this
    · have := ih hrest (Nat.or_lt_two_pow hx hy) (hacc.or hk)
      simpa [combineKnown, Nat.or_assoc] using this
    · have := ih hrest (Nat.xor_lt_two_pow hx hy) (hacc.xor hk hx)
      simpa [combineKnown, Nat.xor_assoc] using this
    · have := ih hrest (Nat.mod_lt _ (Nat.two_pow_pos w)) (hT.add hacc hk hx hy)
      simpa [combineKnown, addAll, add_assoc] using this
    · have := ih hrest (Nat.mod_lt _ (Nat.two_pow_pos w)) (hT.mul hacc hk hx hy)
      simpa [combineKnown, mulAll, mul_assoc, Nat.mod_mul_mod] using this

omit [KnownTransfer] in
lemma foldl_concat (h : At last vals s) (hcs : ∀ c ∈ cs, c < s.ctx.nodes.length)
    (hf : List.Forall₂ (fun c k => k.Knows (s.ctx.width c) (last.num vals c)) cs ks)
    {acc : KnownBits}
    {v x : Nat} (hacc : acc.Knows v x) :
      (ks.foldl KnownBits.concat acc).Knows (v + (cs.map s.ctx.width).sum)
      ((cs.map fun c => (s.ctx.width c, last.num vals c)).foldl (fun a p => a * 2 ^ p.1 + p.2)
        x) := by
  induction hf generalizing acc v x with
  | nil => simpa using hacc
  | @cons c k cs ks hk hf ih =>
    have hc : Has s c (s.ctx.width c) := ⟨hcs c (mem_cons_self ..), rfl⟩
    have := ih (fun c' hc' => hcs c' (mem_cons_of_mem _ hc')) (hacc.concat hk (h.lt hc))
    rw [foldl_cons, map_cons, map_cons, foldl_cons, sum_cons, ← add_assoc]
    exact this

omit [BlockHash] [KnownTransfer] in
lemma learns_spendEach (amount n : Nat) :
    Learns last vals s (spendEach amount n) fun _ => True := by
  induction n with
  | zero => exact learns_pure trivial
  | succ n ih =>
    refine learns_bind (learns_spend _) ?_
    intro _ _
    exact ih

omit [BlockHash] [KnownTransfer] in
lemma forall₂_getD (hf : List.Forall₂ (fun c k => k.Knows (s.ctx.width c) (last.num vals c)) cs ks)
    {i : Nat} (hi : i < cs.length) (d : KnownBits) (e : SymRef) :
    (ks.getD i d).Knows (s.ctx.width (cs.getD i e)) (last.num vals (cs.getD i e)) := by
  induction hf generalizing i with
  | nil => cases hi
  | cons hk _ ih =>
    cases i with
    | zero => exact hk
    | succ i => exact ih (Nat.lt_of_succ_lt_succ hi)

lemma learns_computeNary (hT : Sound) (h : At last vals s)
    (hsteps : StepsSound last vals s steps) (depth : Nat) (hr : Has s r w)
    (hop : s.ctx.op r = .and ∨ s.ctx.op r = .or ∨ s.ctx.op r = .xor ∨ s.ctx.op r = .add ∨
    s.ctx.op r = .mul) : Learns last vals s (do
      spendEach (words w) ((s.ctx.operands r).length - 1)
      let children ← inferOperands s.ctx steps (s.ctx.op r) depth (s.ctx.operands r)
      pure (combine (s.ctx.op r) w children)) fun k => k.Knows w (last.num vals r) := by
  refine learns_bind (learns_spendEach _ _) ?_
  intro _ _
  refine learns_bind (learns_inferOperands h hsteps hr) ?_
  intro children hc
  apply learns_pure
  obtain ⟨hne, hmem⟩ := h.nary hr (by tauto)
  have hn : last.num vals r = (match s.ctx.op r with
      | .and => andAll w ((s.ctx.operands r).map (last.num vals))
      | .or => orAll ((s.ctx.operands r).map (last.num vals))
      | .xor => xorAll ((s.ctx.operands r).map (last.num vals))
      | .add => addAll w ((s.ctx.operands r).map (last.num vals))
      | _ => mulAll w ((s.ctx.operands r).map (last.num vals))) := by
    rcases hop with hop | hop | hop | hop | hop
    · rw [hop]; exact h.and_num hr hop
    · rw [hop]; exact h.or_num hr hop
    · rw [hop]; exact h.xor_num hr hop
    · rw [hop]; exact h.add_num hr hop
    · rw [hop]; exact h.mul_num hr hop
  rw [hn]
  generalize s.ctx.operands r = cs at hc hmem hne
  match cs, children, hc with
  | [], _, _ => exact absurd rfl hne
  | c :: cs, k :: ks, .cons hk hc =>
    have hcw := hmem c (mem_cons_self ..)
    rw [hcw.2] at hk
    exact foldl_combineKnown hT h hop (fun c' hc' => hmem c' (mem_cons_of_mem _ hc')) hc
      (h.lt hcw) hk

lemma learns_computeConcat (h : At last vals s) (hsteps : StepsSound last vals s steps)
    (hr : Has s r w) (hop : s.ctx.op r = .concat) :
    Learns last vals s (do
      spendEach (words w) ((s.ctx.operands r).length - 1)
      let children ← inferOperands s.ctx steps .concat depth (s.ctx.operands r)
      pure (combine .concat w children)) fun k => k.Knows w (last.num vals r) := by
  refine learns_bind (learns_spendEach _ _) ?_
  intro _ _
  refine learns_bind (learns_inferOperands h hsteps hr) ?_
  intro children hc
  apply learns_pure
  obtain ⟨hne, hsum, hn⟩ := h.concat_num hr hop
  have hmem : ∀ c ∈ s.ctx.operands r, c < s.ctx.nodes.length :=
    fun c hc => h.typed.operand_lt hr.1 hc
  rw [hn, ← hsum]
  generalize s.ctx.operands r = cs at hc hmem hne
  match cs, children, hc with
  | [], _, _ => exact absurd rfl hne
  | c :: cs, k :: ks, .cons hk hc =>
    have := foldl_concat h (fun c' hc' => hmem c' (mem_cons_of_mem _ hc')) hc hk
    show (ks.foldl KnownBits.concat k).Knows _ _
    simpa [joinAll] using this

lemma learns_compute (hT : Sound) (h : At last vals s)
    (hsteps : StepsSound last vals s steps) (hr : Has s r (s.ctx.width r)) :
    Learns last vals s (compute s.ctx steps r depth) fun k => k.Knows (s.ctx.width r)
      (last.num vals r) := by
  have hunknown : Learns last vals s (pure (unknown (s.ctx.width r)))
      fun k => k.Knows (s.ctx.width r) (last.num vals r) := learns_pure (knows_unknown ..)
  -- the facts about the operands of a node of known arity
  have hget : ∀ {children : List KnownBits} {i : Nat},
      List.Forall₂ (fun c k => k.Knows (s.ctx.width c) (last.num vals c)) (s.ctx.operands r)
      children →
      i < (s.ctx.operands r).length → (children.getD i (unknown (s.ctx.width r))).Knows
        (s.ctx.width (s.ctx.operand r i)) (last.num vals (s.ctx.operand r i)) :=
    fun hc hi => forall₂_getD hc hi _ _
  unfold compute
  cases hop : s.ctx.op r with
  | const =>
    apply learns_pure
    have hk : s.ctx.isConst r = true := decide_eq_true hop
    have := knows_const (s.ctx.constValue r)
    rwa [h.const_width hr hk, ← h.const_num hr hk] at this
  | var => exact hunknown
  | sdiv => exact hunknown
  | srem => exact hunknown
  | rol => exact hunknown
  | ror => exact hunknown
  | zext =>
    obtain ⟨-, hi, hlt, hn⟩ := h.zext_num hr hop
    refine learns_bind (learns_attempt (hsteps.infer _ (depth + 1) hi.1)) ?_
    intro input hinput
    apply learns_pure
    rw [hn]
    cases input with
    | none => exact (knows_unknown ..).zext (h.lt hi) hlt.le
    | some k => exact (hinput k rfl).zext (h.lt hi) hlt.le
  | ite => exact learns_computeIte h hsteps hr hop
  | urem => exact learns_computeURem hT h hsteps hr hop
  | not =>
    have hs := h.shape hr
    rw [hop] at hs
    obtain ⟨hops, hi⟩ := h.one hr hs
    refine learns_bind (learns_inferOperands h hsteps hr) ?_
    intro children hc
    apply learns_pure
    have hk := hget (i := 0) hc (by rw [hops]; exact one_pos)
    rw [hi.2] at hk
    rw [(h.not_num hr hop).2]
    exact hk.not (h.lt hi)
  | extract =>
    obtain ⟨hops, hi, hle, hn⟩ := h.extract_num hr hop
    refine learns_bind (learns_inferOperands h hsteps hr) ?_
    intro children hc
    apply learns_pure
    have hk := hget (i := 0) hc (by rw [hops]; exact one_pos)
    rw [hn]
    exact hk.extract ..
  | sext =>
    obtain ⟨hops, hi, hlt, hn⟩ := h.sext_num hr hop
    refine learns_bind (learns_inferOperands h hsteps hr) ?_
    intro children hc
    apply learns_pure
    have hk := hget (i := 0) hc (by rw [hops]; exact one_pos)
    rw [hn]
    exact hk.sext (h.lt hi) hlt.le
  | shl | lshr | ashr =>
    obtain ⟨hi, hj, hops, hn⟩ := h.shift_num hr (by simp [hop])
    refine learns_bind (learns_inferOperands h hsteps hr) ?_
    intro children hc
    apply learns_pure
    have hk := hget (i := 0) hc (by rw [hops]; exact two_pos)
    have hk' := hget (i := 1) hc (by rw [hops]; exact one_lt_two)
    rw [hi.2] at hk
    rw [hn, hop]
    exact shiftKnown_spec (by simp) (h.pos hr) hk hk' (h.lt hi) (h.lt hj)
  | udiv =>
    have hs := h.shape hr
    rw [hop] at hs
    obtain ⟨hops, hi, hj⟩ := h.two hr hs
    refine learns_bind (learns_inferOperands h hsteps hr) ?_
    intro children hc
    refine learns_ite (fun _ => hunknown) (fun hcond => ?_)
    apply learns_pure
    have hk := hget (i := 0) hc (by rw [hops]; exact two_pos)
    have hk' := hget (i := 1) hc (by rw [hops]; exact one_lt_two)
    rw [hi.2] at hk
    rw [hj.2] at hk'
    rw [not_or, not_or, not_or, not_not, not_not] at hcond
    have hone := hk'.constant (h.lt hj) hcond.2.1
    have hnz : last.num vals (s.ctx.operand r 1) ≠ 0 := by
      rw [← hone]
      exact hcond.2.2.1
    have hn : last.num vals r = last.num vals (s.ctx.operand r 0) / last.num vals
        (s.ctx.operand r 1) := by
      rw [h.op_num hr (by simp [hop]) (by simp [hop]), hop, hops]
      show udivOf (s.ctx.width r) (last.num vals (s.ctx.operand r 0))
        (last.num vals (s.ctx.operand r 1)) = _
      rw [udivOf, if_neg hnz]
    rw [hn]
    exact hT.udiv hk hk' (h.lt hi) (h.lt hj) hnz
  | concat => exact learns_computeConcat h hsteps hr hop
  | and | or | xor | add | mul =>
    have := learns_computeNary hT h hsteps depth hr (by simp [hop])
    rwa [hop] at this
  | _ =>
    have hp : isPredicate (s.ctx.op r) = true := by rw [hop]; rfl
    obtain ⟨-, hops, hi, hj⟩ := h.compared hr hp
    refine learns_bind (learns_inferOperands h hsteps hr) ?_
    intro children hc
    have hk := hget (i := 0) hc (by rw [hops]; exact two_pos)
    have hk' := hget (i := 1) hc (by rw [hops]; exact one_lt_two)
    rw [hj.2] at hk'
    exact learns_compare hT h hsteps hr hp hi hj hk hk'

omit [BlockHash] [KnownTransfer] in
lemma learns_record {offered : Nat} {complete : Bool} (hk : FactsOf last vals s r k) :
    Learns last vals s (record r k offered depth complete) fun _ => True := by
  intro st hst
  refine ⟨⟨?_, ?_⟩, fun _ _ => trivial⟩
  · unfold record
    split
    · intro p hp
      rcases mem_cons.mp hp with rfl | hp
      · exact hk
      · exact hst.cache p hp
    · exact hst.cache
  · intro p hp
    rcases mem_cons.mp hp with rfl | hp
    · exact hk
    · exact hst.facts p hp

lemma learns_inferFresh (hT : Sound) (h : At last vals s)
    (hsteps : StepsSound last vals s steps) {previous : Option KnownBits}
    (hr : r < s.ctx.nodes.length)
    (hp : ∀ k, previous = some k → k.Knows (s.ctx.width r) (last.num vals r)) :
    Learns last vals s (inferFresh s.ctx steps r depth previous)
      fun k => k.Knows (s.ctx.width r) (last.num vals r) := by
  refine learns_bind learns_read ?_
  intro before _
  refine learns_bind (learns_attempt (learns_compute hT h hsteps ⟨hr, rfl⟩)) ?_
  intro result hres
  have hspent : Learns last vals s truncateIfSpent fun _ => True :=
    fun _ hst => ⟨⟨hst.cache, hst.facts⟩, fun _ _ => trivial⟩
  refine learns_bind hspent ?_
  intro _ _
  refine learns_bind learns_read ?_
  intro after _
  cases hm : mergeFacts previous result with
  | none => exact learns_giveUp
  | some k =>
    have hk : k.Knows (s.ctx.width r) (last.num vals r) := by
      unfold mergeFacts at hm
      split at hm
      · exact hres k hm
      · cases hm
        exact hp _ rfl
      · cases hm
        exact (hres _ rfl).merge (hp _ rfl)
    refine learns_bind (learns_record ⟨hr, hk⟩) ?_
    intro _ _
    exact learns_pure hk

lemma learns_infer (hT : Sound) (h : At last vals s)
    (hsteps : StepsSound last vals s steps) (depth : Nat) (hr : r < s.ctx.nodes.length) :
    Learns last vals s (infer s.ctx steps r depth) fun k => k.Knows (s.ctx.width r)
      (last.num vals r) := by
  refine learns_bind (learns_charge 1) ?_
  intro _ _
  refine learns_ite (fun _ => learns_bind learns_truncate fun _ _ => learns_giveUp) (fun _ => ?_)
  refine learns_bind (learns_charge _) ?_
  intro _ _
  refine learns_ite (fun _ => learns_bind learns_truncate fun _ _ =>
    learns_pure (knows_unknown ..)) (fun _ => ?_)
  refine learns_bind learns_read ?_
  intro st hst
  cases hcache : st.cache.lookup r with
  | some k => exact learns_pure (hst.cache _ (mem_of_lookup hcache)).2
  | none =>
    cases hfacts : st.facts.lookup r with
    | none => exact learns_inferFresh hT h hsteps hr (fun k hk => (nomatch hk))
    | some e =>
      have he := (hst.facts _ (mem_of_lookup hfacts)).2
      refine learns_ite (fun _ => learns_pure he) (fun _ => ?_)
      refine learns_ite (fun _ => learns_bind learns_truncate fun _ _ => learns_pure he)
        (fun _ => ?_)
      refine learns_inferFresh hT h hsteps hr ?_
      intro k hk
      cases hk
      exact he

lemma stepsWithin_sound (hT : Sound) (h : At last vals s) (n : Nat) :
    StepsSound last vals s (stepsWithin s.ctx n) := by
  induction n with
  | zero => exact ⟨fun _ _ _ => learns_giveUp, fun _ _ _ _ _ _ _ _ _ => learns_giveUp⟩
  | succ n ih =>
    refine ⟨fun r depth hr => learns_infer hT h ih depth hr, ?_⟩
    intro a b w depth ha hb hw hwa hwb
    exact learns_sameLowBits h ih ha hb hw hwa hwb

lemma query_spec (hT : Sound) (h : At last vals s) {cache : List (SymRef × KnownBits)}
    (hc : ∀ p ∈ cache, FactsOf last vals s p.1 p.2) (r : SymRef) (budget : Nat) :
    (∀ p ∈ (query s.ctx cache r budget).2.1, FactsOf last vals s p.1 p.2) ∧
      ∀ k, (query s.ctx cache r budget).1 = some k → k.Knows (s.ctx.width r) (last.num vals r) := by
  unfold query
  split
  · exact ⟨hc, fun k hk => (nomatch hk)⟩
  next hr =>
    rw [not_or, not_le] at hr
    have hl := learns_infer hT h (stepsWithin_sound hT h (kSymKnownBitsMaxDepth + 2)) 0 hr.1
      { cache := cache, remaining := min budget kSymKnownBitsMaxQueryWork }
      ⟨hc, forall_mem_nil _⟩
    exact ⟨hl.1.cache, hl.2⟩

end NeverD.Sym
