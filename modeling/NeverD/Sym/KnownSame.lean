import Mathlib.Algebra.Order.BigOperators.Group.List
import Mathlib.Data.Nat.ModEq
import NeverD.Sym.KnownSound

namespace NeverD.Sym
open Lib
open Words
open KnownM SymKnownBits List
open Nat (testBit_mod_two_pow testBit testBit_and testBit_or mod_eq_of_lt mod_modEq)

variable [BlockHash] {last : SymContext} {vals : List APInt} {s : SymBuilder}
variable {back source : SymRef} {facts : KnownBits} {xs ys : List Nat}

/-- The recursive steps answer truly. -/
structure StepsSound (last : SymContext) (vals : List APInt) (s : SymBuilder) (steps : KnownSteps) :
    Prop where
  infer : ∀ r depth, r < s.ctx.nodes.length →
    Learns last vals s (steps.infer r depth) fun k => k.Knows (s.ctx.width r) (last.num vals r)
  same : ∀ a b w depth, a < s.ctx.nodes.length → b < s.ctx.nodes.length → 0 < w →
    w ≤ s.ctx.width a → w ≤ s.ctx.width b → Learns last vals s (steps.sameLowBits a b w depth)
      fun same => same = true → last.num vals a % 2 ^ w = last.num vals b % 2 ^ w

variable {w depth : Nat} {a : SymRef}

omit [BlockHash] in
lemma sextOf_mod {u v x : Nat} (hx : x < 2 ^ v) (hw : v ≤ w) (hu : u ≤ v) :
    sextOf v w x % 2 ^ u = x % 2 ^ u := by
  apply Nat.eq_of_testBit_eq
  intro i
  rw [testBit_mod_two_pow, testBit_mod_two_pow, testBit_sextOf hx hw]
  by_cases hi : i < u
  · rw [if_pos (hi.trans_le hu)]
  · simp [hi]

omit [BlockHash] in
lemma mod_two_pow_eq_iff {x y : Nat} : x % 2 ^ w = y % 2 ^ w ↔
    ∀ i < w, x.testBit i = y.testBit i := by
  constructor
  · intro h i hi
    have := congrArg (fun z => testBit z i) h
    simpa [testBit_mod_two_pow, hi] using this
  · intro h
    apply Nat.eq_of_testBit_eq
    intro i
    rw [testBit_mod_two_pow, testBit_mod_two_pow]
    by_cases hi : i < w
    · rw [h i hi]
    · simp [hi]

variable (h : At last vals s)
include h

lemma lowBitSource_spec (ha : a < s.ctx.nodes.length)
    (hw : w ≤ s.ctx.width a) : lowBitSource s.ctx a w < s.ctx.nodes.length ∧
      w ≤ s.ctx.width (lowBitSource s.ctx a w) ∧
      last.num vals (lowBitSource s.ctx a w) % 2 ^ w = last.num vals a % 2 ^ w := by
  have hr : Has s a (s.ctx.width a) := ⟨ha, rfl⟩
  unfold lowBitSource
  split
  next hc =>
    rcases hc.1 with hop | hop
    · obtain ⟨-, hi, -, hn⟩ := h.zext_num hr hop
      exact ⟨hi.1, hc.2, by rw [hn]⟩
    · obtain ⟨-, hi, hlt, hn⟩ := h.sext_num hr hop
      exact ⟨hi.1, hc.2, by rw [hn, sextOf_mod (h.lt hi) hlt.le hc.2]⟩
  · split
    next hc =>
      obtain ⟨-, hi, hle, hn⟩ := h.extract_num hr hc.1
      refine ⟨hi.1, by omega, ?_⟩
      rw [hn, hc.2, pow_zero, Nat.div_one, Nat.mod_mod_of_dvd _ (pow_dvd_pow 2 hw)]
    · exact ⟨ha, hw, rfl⟩

lemma splitMask_spec (terms : List SymRef) (ht : ∀ t ∈ terms, Has s t w) :
      andAll w (terms.map (last.num vals)) =
      (splitMask s.ctx w terms).1.toNat &&&
      andAll w ((splitMask s.ctx w terms).2.map (last.num vals)) := by
  unfold splitMask
  match terms with
  | [] =>
    rw [toNat_allOnes]
    exact (Nat.and_self _).symm
  | t :: rest =>
    dsimp only
    split
    next hk =>
      rw [← h.const_num (ht t (mem_cons_self ..)) hk]
      rfl
    · rw [toNat_allOnes, Nat.and_comm, and_ones (andAll_lt ..)]

lemma learns_losslessMask (hb : Has s back w) (hs : Has s source w)
    (hf : facts.Knows w (last.num vals source)) :
    Learns last vals s (losslessMask s.ctx back source facts) fun same => same = true →
      last.num vals back = last.num vals source := by
  apply learns_ite
  · intro hop
    refine learns_bind (learns_spend _) ?_
    intro _ _
    apply learns_pure
    intro heq
    rw [hs.2] at heq
    have hback := h.and_num hb hop
    rw [splitMask_spec h _ (h.nary hb (by simp [hop])).2] at hback
    have hsource : last.num vals source = andAll w
        ((if s.ctx.op source = .and then s.ctx.operands source else [source]).map
          (last.num vals)) := by
      split
      next hop' => exact h.and_num hs hop'
      · simp [and_ones (h.lt hs)]
    have hterms : ∀ t ∈ (if s.ctx.op source = .and then s.ctx.operands source else [source]),
        Has s t w := by
      split
      next hop' => exact (h.nary hs (by simp [hop'])).2
      · intro t ht
        rw [mem_singleton.mp ht]
        exact hs
    rw [splitMask_spec h _ hterms] at hsource
    generalize splitMask s.ctx w (s.ctx.operands back) = bm at hback heq
    generalize splitMask s.ctx w (if s.ctx.op source = .and then s.ctx.operands source
      else [source]) = sm at hsource heq
    obtain ⟨hrest, hsub, hcover⟩ := of_decide_eq_true heq
    have hx := h.lt hs
    have hy := h.lt hb
    apply eq_of_bits hy hx
    intro i hi
    have hb1 := congrArg (fun z => testBit z i) hsub
    have hb2 := congrArg (fun z => testBit z i) hcover
    simp only [testBit_and, testBit_or, testBit_ones, hi, decide_true] at hb1 hb2
    have hclear := hf.clear i
    rw [hsource] at hclear
    rw [hback, hsource, hrest, testBit_and]
    cases hbm : bm.1.toNat.testBit i with
    | true =>
      rw [hbm, Bool.true_and] at hb1
      rw [testBit_and, hb1]
    | false =>
      rw [hbm, Bool.or_false] at hb2
      rw [hclear hb2]
      rfl
  · intro _
    exact learns_pure (fun hn => (nomatch hn))

omit h

omit [BlockHash] in
theorem ashrOf_scaled {x count shift : Nat} (hx : x < 2 ^ w) (hw : 0 < w)
    (hs : shift = min count (w - 1))
    (hsign : ∀ i j, w - (shift + 1) ≤ i → i < w → w - (shift + 1) ≤ j → j < w →
      x.testBit i = x.testBit j) : ashrOf w (2 ^ shift * x % 2 ^ w) count = x := by
  have hp : 2 ^ shift * x % 2 ^ w < 2 ^ w := Nat.mod_lt _ (Nat.two_pow_pos w)
  have hbit : ∀ i, i < w →
      (2 ^ shift * x % 2 ^ w).testBit i = (decide (shift ≤ i) && x.testBit (i - shift)) := by
    intro i hi
    rw [testBit_mod_two_pow, Nat.testBit_two_pow_mul]
    simp [hi]
  apply eq_of_bits (ashrOf_lt hp count) hx
  intro i hi
  rw [testBit_ashrOf hp hi]
  split
  next hlt =>
    have hsc : shift = count := by omega
    rw [hbit _ hlt, ← hsc]
    simp
  next hge =>
    rw [msb, hbit _ (by omega)]
    have hle : shift ≤ w - 1 := by omega
    rw [decide_eq_true hle, Bool.true_and]
    apply hsign
    all_goals omega

lemma learns_losslessShift (h : At last vals s)
    (hb : Has s back w) (hs : Has s source w) (hf : facts.Knows w (last.num vals source)) :
    Learns last vals s (losslessShift s.ctx back source facts) fun same => same = true →
      last.num vals back = last.num vals source := by
  apply learns_ite
  · intro _
    exact learns_pure (fun hn => (nomatch hn))
  · intro hc
    rw [not_or, not_not, not_not] at hc
    obtain ⟨hop, hk⟩ := hc
    refine learns_bind (learns_spend _) ?_
    intro _ _
    apply learns_ite
    · intro _
      exact learns_pure (fun hn => (nomatch hn))
    · intro hc
      rw [not_or, not_or, not_not, not_not] at hc
      obtain ⟨-, hmul, htwo⟩ := hc
      apply learns_ite
      · intro hrestores
        apply learns_pure
        intro hhigh
        have hw := h.pos hs
        rw [hs.2] at hrestores hhigh
        obtain ⟨hp, hcount, -, hn⟩ := h.shift_num hb (by simp [hop])
        rw [hop] at hn
        rw [hn]
        rw [h.const_num hcount hk]
        generalize hsh : min (s.ctx.constValue (s.ctx.operand back 1)).toNat (w - 1) =
          shift at hrestores hhigh
        have hprod : last.num vals (s.ctx.operand back 0) = 2 ^ shift *
            last.num vals source % 2 ^ w := by
          have hops : s.ctx.operands (s.ctx.operand back 0) =
              [s.ctx.operand (s.ctx.operand back 0) 0, s.ctx.operand (s.ctx.operand back 0) 1] := by
            unfold SymContext.numOperands at htwo
            unfold SymContext.operand
            match hl : s.ctx.operands ((s.ctx.operands back).getD 0 0), htwo with
            | [x, y], _ => rfl
          have hmem := (h.nary hp (by simp [hmul])).2
          have hlt : 2 ^ shift < 2 ^ w := Nat.pow_lt_pow_right one_lt_two (by omega)
          rw [h.mul_num hp hmul, hops]
          have h0 := hmem _ (by rw [hops]; exact mem_cons_self ..)
          have h1 := hmem (s.ctx.operand (s.ctx.operand back 0) 1) (by rw [hops]; simp)
          rcases hrestores with ⟨e1, e2, e3⟩ | ⟨e1, e2, e3⟩
          · have hc := h.const_num h0 e2
            rw [e3, APInt.ofNat_toNat, mod_eq_of_lt hlt] at hc
            simp only [Nat.sub_zero] at e1
            rw [mulAll, e1]
            simp [hc]
          · have hc := h.const_num h1 e2
            rw [e3, APInt.ofNat_toNat, mod_eq_of_lt hlt] at hc
            simp only [Nat.sub_self] at e1
            rw [mulAll, e1]
            simp [hc, mul_comm]
        rw [hprod]
        apply ashrOf_scaled (h.lt hs) hw hsh.symm
        have hbits : ∀ i, w - (shift + 1) ≤ i → i < w →
            (notOf w (ones (w - (shift + 1)))).testBit i = true := by
          intro i h1 h2
          rw [testBit_notOf ((ones_lt _).trans_le (Nat.pow_le_pow_right two_pos (by omega)))]
          simp [h2]
          omega
        intro i j hi1 hi2 hj1 hj2
        rcases of_decide_eq_true hhigh with hz | ho
        · have hz' : ∀ i, w - (shift + 1) ≤ i → i < w →
              (last.num vals source).testBit i = false := by
            intro i h1 h2
            apply hf.clear
            have := congrArg (fun z => testBit z i) hz
            simpa [hbits i h1 h2] using this
          rw [hz' i hi1 hi2, hz' j hj1 hj2]
        · have ho' : ∀ i, w - (shift + 1) ≤ i → i < w →
              (last.num vals source).testBit i = true := by
            intro i h1 h2
            apply hf.set
            have := congrArg (fun z => testBit z i) ho
            simpa [hbits i h1 h2] using this
          rw [ho' i hi1 hi2, ho' j hj1 hj2]
      · intro _
        exact learns_pure (fun hn => (nomatch hn))

lemma learns_losslessProjection (h : At last vals s)
    (hb : Has s back w) (hs : Has s source w) (hf : facts.Knows w (last.num vals source)) :
    Learns last vals s (losslessProjection s.ctx back source facts) fun same => same = true →
      last.num vals back = last.num vals source := by
  refine learns_bind (learns_losslessMask h hb hs hf) ?_
  intro masked hm
  apply learns_ite
  · intro ht
    exact learns_pure (fun _ => hm ht)
  · intro _
    exact learns_losslessShift h hb hs hf

variable {steps : KnownSteps}

variable (h : At last vals s)
include h

lemma learns_maximumOf (hsteps : StepsSound last vals s steps)
    (terms : List SymRef) (ht : ∀ t ∈ terms, Has s t w) {maximum : Nat} (hm : maximum < 2 ^ w) :
    Learns last vals s (maximumOf steps w depth terms maximum) fun found => ∀ m, found = some m →
      maximum + (terms.map (last.num vals)).sum < 2 ^ w := by
  induction terms generalizing maximum with
  | nil =>
    apply learns_pure
    intro m _
    simpa using hm
  | cons t rest ih =>
    have hr := ht t (mem_cons_self ..)
    refine learns_bind (hsteps.infer t depth hr.1) ?_
    intro k hk
    rw [hr.2] at hk
    apply learns_ite
    · intro _
      exact learns_pure (fun m hn => (nomatch hn))
    · intro hlt
      refine learns_mono (ih (fun t' ht' => ht t' (mem_cons_of_mem _ ht')) (not_le.mp hlt)) ?_
      intro found hf m hfm
      have h1 := hf m hfm
      have h2 := hk.le_max (h.lt hr)
      rw [map_cons, sum_cons]
      omega

lemma knownScale_spec {r : SymRef} (hr : Has s r w) : Has s (s.ctx.knownScale w r).1 w ∧
      last.num vals r =
      (s.ctx.knownScale w r).2.toNat * last.num vals (s.ctx.knownScale w r).1 % 2 ^ w := by
  have hone : Has s r w ∧ last.num vals r = (APInt.ofNat w 1).toNat * last.num vals r % 2 ^ w := by
    refine ⟨hr, ?_⟩
    rw [APInt.ofNat_toNat, mod_eq_of_lt (Nat.one_lt_two_pow (h.pos hr).ne'), one_mul,
      mod_eq_of_lt (h.lt hr)]
  unfold SymContext.knownScale
  split
  next hc =>
    obtain ⟨hop, htwo⟩ := hc
    have hmem := (h.nary hr (by simp [hop])).2
    have hn := h.mul_num hr hop
    have hops : s.ctx.operands r = [s.ctx.operand r 0, s.ctx.operand r 1] := by
      unfold SymContext.numOperands at htwo
      unfold SymContext.operand
      match s.ctx.operands r, htwo with
      | [x, y], _ => rfl
    have h0 := hmem (s.ctx.operand r 0) (by rw [hops]; exact mem_cons_self ..)
    have h1 := hmem (s.ctx.operand r 1) (by rw [hops]; simp)
    rw [hops] at hn
    have hprod : last.num vals r = last.num vals (s.ctx.operand r 0) *
        last.num vals (s.ctx.operand r 1) % 2 ^ w := by
      rw [hn, mulAll]
      simp
    split
    next hk =>
      refine ⟨h1, ?_⟩
      rw [hprod, h.const_num h0 hk]
    · split
      next hk =>
        refine ⟨h0, ?_⟩
        rw [hprod, h.const_num h1 hk, mul_comm]
      · exact hone
  · exact hone

lemma learns_scaledAtLeast (hsteps : StepsSound last vals s steps)
    {sum term : SymRef} (hs : Has s sum w) (ht : Has s term w) :
    Learns last vals s (scaledAtLeast s.ctx steps sum term depth) fun found =>
      found = some true → last.num vals term ≤ last.num vals sum := by
  apply learns_ite
  · intro _
    refine learns_bind (learns_spend _) ?_
    intro _ _
    rw [hs.2]
    obtain ⟨ha, hsum⟩ := knownScale_spec h hs
    obtain ⟨-, hterm⟩ := knownScale_spec h ht
    generalize s.ctx.knownScale w sum = a at ha hsum
    generalize s.ctx.knownScale w term = b at hterm
    apply learns_ite
    · intro hc
      obtain ⟨hab, hle⟩ := hc
      refine learns_bind (hsteps.infer a.1 depth ha.1) ?_
      intro k hk
      rw [ha.2] at hk
      apply learns_pure
      intro heq
      rw [Option.some.injEq, decide_eq_true_eq] at heq
      have hmax : a.2.toNat * last.num vals a.1 < 2 ^ w :=
        lt_of_le_of_lt (Nat.mul_le_mul_left _ (hk.le_max (h.lt ha))) heq
      have hle' : b.2.toNat * last.num vals b.1 ≤ a.2.toNat * last.num vals a.1 := by
        rw [← hab]
        exact Nat.mul_le_mul_right _ hle
      rw [hsum, hterm, mod_eq_of_lt hmax, mod_eq_of_lt (lt_of_le_of_lt hle' hmax)]
      exact hle'
    · intro _
      exact learns_pure (fun hn => (nomatch hn))
  · intro _
    exact learns_pure (fun hn => (nomatch hn))

omit h

omit [BlockHash] in
lemma unused_of_false {β : Type} (bs : List β) : unused (bs.map fun b => (false, b)) = bs := by
  induction bs with
  | nil => rfl
  | cons b bs ih => simpa [unused] using ih

lemma learns_nonwrappingAtLeast (h : At last vals s) (hsteps : StepsSound last vals s steps)
    {sum term : SymRef} (hs : Has s sum w) (ht : Has s term w) :
    Learns last vals s (nonwrappingAtLeast s.ctx steps sum term depth) fun found =>
      found = true → last.num vals term ≤ last.num vals sum := by
  refine learns_bind (learns_scaledAtLeast h hsteps hs ht) ?_
  intro found hfound
  cases found with
  | some answer =>
    apply learns_pure
    intro ha
    exact hfound (by rw [ha])
  | none =>
    apply learns_ite
    · intro _
      exact learns_pure (fun hn => (nomatch hn))
    · intro hop
      rw [not_not] at hop
      have hmem := (h.nary hs (by simp [hop])).2
      rw [hs.2]
      refine learns_bind (learns_maximumOf h hsteps _ hmem (Nat.two_pow_pos w)) ?_
      intro m hm
      cases m with
      | none => exact learns_pure (fun hn => (nomatch hn))
      | some m =>
        have hlt := hm m rfl
        rw [zero_add] at hlt
        have hsum : last.num vals sum = ((s.ctx.operands sum).map (last.num vals)).sum := by
          rw [h.add_num hs hop, addAll, mod_eq_of_lt hlt]
        apply learns_ite
        · intro hin
          apply learns_pure
          intro _
          rw [hsum]
          exact single_le_sum (fun _ _ => Nat.zero_le _) _ (mem_map_of_mem hin)
        · intro _
          apply learns_ite
          · intro _
            exact learns_pure (fun hn => (nomatch hn))
          · intro hop'
            rw [not_not] at hop'
            refine learns_bind (learns_spend _) ?_
            intro _ _
            refine learns_mono (learns_matchAll (R := fun t o => o = t) _ _ ?_) ?_
            · intro a _ b _
              apply learns_pure
              intro he
              exact of_decide_eq_true he
            · intro all hall heq
              obtain ⟨cs, rest, hperm, hf⟩ := hall heq
              rw [unused_of_false] at hperm
              have hcs : s.ctx.operands term = cs := by
                clear hperm hall
                generalize s.ctx.operands term = ts at hf
                induction hf with
                | nil => rfl
                | cons hb _ ih => rw [hb, ih]
              rw [hsum, h.add_num ht hop', addAll, hcs, (hperm.map (last.num vals)).sum_eq,
                map_append, sum_append]
              exact (Nat.mod_le _ _).trans (Nat.le_add_right _ _)

def factorProd (last : SymContext) (vals : List APInt) (fs : List (SymRef × Nat)) : Nat :=
  (fs.map fun f => last.num vals f.1).prod

lemma learns_collectFactors (h : At last vals s) {fuel : Nat} {pending leaves : List (SymRef × Nat)}
    {coefficient : APInt} (hp : ∀ f ∈ pending, f.1 < s.ctx.nodes.length ∧ w ≤ s.ctx.width f.1)
    (hl : ∀ f ∈ leaves, f.1 < s.ctx.nodes.length ∧ w ≤ s.ctx.width f.1)
    (hc : coefficient.width = w) :
    Learns last vals s (collectFactors s.ctx w fuel pending coefficient leaves) fun found =>
      ∀ c fs, found = some (c, fs) → c.width = w ∧
        (∀ f ∈ fs, f.1 < s.ctx.nodes.length ∧ w ≤ s.ctx.width f.1) ∧
        c.toNat * factorProd last vals fs ≡
          coefficient.toNat * factorProd last vals leaves * factorProd last vals pending
            [MOD 2 ^ w] := by
  induction fuel generalizing pending leaves coefficient with
  | zero =>
    cases pending with
    | nil =>
      apply learns_pure
      intro c fs hf
      cases hf
      refine ⟨hc, hl, ?_⟩
      simp [factorProd, Nat.ModEq]
    | cons f pending => exact learns_giveUp
  | succ fuel ih =>
    cases pending with
    | nil =>
      apply learns_pure
      intro c fs hf
      cases hf
      refine ⟨hc, hl, ?_⟩
      simp [factorProd, Nat.ModEq]
    | cons f pending =>
      obtain ⟨r, d⟩ := f
      obtain ⟨hr, hw⟩ := hp (r, d) (mem_cons_self ..)
      have hrest := fun g hg => hp g (mem_cons_of_mem _ hg)
      have hhas : Has s r (s.ctx.width r) := ⟨hr, rfl⟩
      refine learns_bind (learns_spend _) ?_
      intro _ _
      apply learns_ite
      · intro _
        refine learns_bind learns_truncate ?_
        intro _ _
        exact learns_pure (fun c fs hn => (nomatch hn))
      · intro _
        obtain ⟨hq, hqw, hqn⟩ := lowBitSource_spec h hr hw
        apply learns_ite
        · intro _
          refine learns_mono (ih ?_ hl hc) ?_
          · intro g hg
            rcases mem_cons.mp hg with rfl | hg
            · exact ⟨hq, hqw⟩
            · exact hrest g hg
          · intro found hfound c fs hf
            obtain ⟨h1, h2, h3⟩ := hfound c fs hf
            refine ⟨h1, h2, h3.trans ?_⟩
            apply Nat.ModEq.mul_left
            simp only [factorProd, map_cons, prod_cons]
            exact .mul_right _ hqn
        · intro _
          apply learns_ite
          · intro hk
            refine learns_mono (ih hrest hl hc) ?_
            intro found hfound c fs hf
            obtain ⟨h1, h2, h3⟩ := hfound c fs hf
            refine ⟨h1, h2, h3.trans ?_⟩
            have hmul : (coefficient.mul ((s.ctx.constValue r).zextOrTrunc w)).toNat ≡
                coefficient.toNat * last.num vals r [MOD 2 ^ w] := by
              have hz : ((s.ctx.constValue r).zextOrTrunc w).toNat = last.num vals r % 2 ^ w := by
                rw [h.const_num hhas hk]
                exact BitVec.toNat_setWidth ..
              rw [toNat_mul hc.symm, hc, hz]
              exact (mod_modEq _ _).trans (.mul_left _ (mod_modEq _ _))
            simp only [factorProd, map_cons, prod_cons]
            refine (Nat.ModEq.mul_right _ (Nat.ModEq.mul_right _ hmul)).trans ?_
            exact congrArg (· % 2 ^ w) (by ring)
          · intro _
            apply learns_ite
            · intro hop
              refine learns_bind (learns_spend _) ?_
              intro _ _
              have hmem := (h.nary hhas (by simp [hop])).2
              refine learns_mono (ih ?_ hl hc) ?_
              · intro g hg
                rcases mem_append.mp hg with hg | hg
                · rw [mem_reverse, mem_map] at hg
                  obtain ⟨o, ho, rfl⟩ := hg
                  exact ⟨(hmem o ho).1, by rw [(hmem o ho).2]; exact hw⟩
                · exact hrest g hg
              · intro found hfound c fs hf
                obtain ⟨h1, h2, h3⟩ := hfound c fs hf
                refine ⟨h1, h2, h3.trans ?_⟩
                apply Nat.ModEq.mul_left
                have hn := h.mul_num hhas hop
                have hdvd : (2 ^ w) ∣ 2 ^ s.ctx.width r := pow_dvd_pow 2 hw
                have hprod : ((s.ctx.operands r).map (last.num vals)).prod ≡
                    last.num vals r [MOD 2 ^ w] := by
                  rw [hn, mulAll]
                  exact (Nat.ModEq.symm (mod_modEq _ _)).of_dvd hdvd
                simp only [factorProd, map_append, prod_append, map_reverse, map_map, map_cons,
                  prod_cons]
                rw [prod_reverse]
                exact .mul_right _ hprod
            · intro _
              refine learns_mono (ih hrest ?_ hc) ?_
              · intro g hg
                rcases mem_append.mp hg with hg | hg
                · exact hl g hg
                · rw [mem_singleton.mp hg]
                  exact ⟨hr, hw⟩
              · intro found hfound c fs hf
                obtain ⟨h1, h2, h3⟩ := hfound c fs hf
                refine ⟨h1, h2, h3.trans ?_⟩
                simp only [factorProd, map_append, prod_append, map_cons, prod_cons, map_nil,
                  prod_nil]
                exact congrArg (· % 2 ^ w) (by ring)

omit [BlockHash] in
theorem perm_of_matched {α β : Type} {R : α → β → Prop} {as : List α} {bs cs rest : List β}
    (hlen : as.length = bs.length) (hp : bs.Perm (cs ++ rest)) (hf : List.Forall₂ R as cs) :
    bs.Perm cs := by
  have h1 := hf.length_eq
  have h2 := hp.length_eq
  rw [length_append] at h2
  have hnil : rest = [] := eq_nil_of_length_eq_zero (by omega)
  rwa [hnil, append_nil] at hp

omit [BlockHash] in
lemma factorProd_congr {fs gs : List (SymRef × Nat)}
    (h : List.Forall₂ (fun x y => last.num vals x.1 ≡ last.num vals y.1 [MOD 2 ^ w]) fs gs) :
    factorProd last vals fs ≡ factorProd last vals gs [MOD 2 ^ w] := by
  unfold factorProd
  induction h with
  | nil => exact .refl _
  | cons hxy _ ih =>
    rw [map_cons, map_cons, prod_cons, prod_cons]
    exact hxy.mul ih

variable {b : SymRef}

lemma learns_sameLowProduct (h : At last vals s) (hsteps : StepsSound last vals s steps)
    (ha : a < s.ctx.nodes.length) (hb : b < s.ctx.nodes.length)
    (hwa : w ≤ s.ctx.width a) (hwb : w ≤ s.ctx.width b) (hw : 0 < w) :
    Learns last vals s (sameLowProduct s.ctx steps a b w depth) fun same =>
      same = true → last.num vals a % 2 ^ w = last.num vals b % 2 ^ w := by
  have hcollect : ∀ r, r < s.ctx.nodes.length → w ≤ s.ctx.width r →
      Learns last vals s (collectFactors s.ctx w (kSymKnownBitsMaxQueryWork + 1) [(r, depth)]
        (.ofNat w 1) []) fun found => ∀ c fs, found = some (c, fs) → c.width = w ∧
          (∀ f ∈ fs, f.1 < s.ctx.nodes.length ∧ w ≤ s.ctx.width f.1) ∧
          c.toNat * factorProd last vals fs ≡ last.num vals r [MOD 2 ^ w] := by
    intro r hr hwr
    refine learns_mono (learns_collectFactors h ?_ (forall_mem_nil _) rfl) ?_
    · intro f hf
      rw [mem_singleton.mp hf]
      exact ⟨hr, hwr⟩
    · intro found hfound c fs hf
      obtain ⟨h1, h2, h3⟩ := hfound c fs hf
      refine ⟨h1, h2, h3.trans ?_⟩
      rw [APInt.ofNat_toNat, mod_eq_of_lt (Nat.one_lt_two_pow hw.ne')]
      exact congrArg (· % 2 ^ w) (by simp [factorProd])
  refine learns_bind (hcollect a ha hwa) ?_
  intro gotA hA
  match gotA with
  | none => exact learns_pure (fun hn => (nomatch hn))
  | some (ca, la) =>
    refine learns_bind (hcollect b hb hwb) ?_
    intro gotB hB
    match gotB with
    | none => exact learns_pure (fun hn => (nomatch hn))
    | some (cb, lb) =>
      obtain ⟨-, hla, hca⟩ := hA ca la rfl
      obtain ⟨-, hlb, hcb⟩ := hB cb lb rfl
      apply learns_ite
      · intro _
        exact learns_pure (fun hn => (nomatch hn))
      · intro hcc
        rw [not_not] at hcc
        subst hcc
        apply learns_ite
        · intro hz
          apply learns_pure
          intro _
          have hz' : ca.toNat = 0 := of_decide_eq_true hz
          rw [hz', zero_mul] at hca hcb
          exact hca.symm.trans hcb
        · intro _
          apply learns_ite
          · intro _
            exact learns_pure (fun hn => (nomatch hn))
          · intro hlen
            rw [not_not] at hlen
            refine learns_bind (learns_spend _) ?_
            intro _ _
            refine learns_mono (learns_matchAll
              (R := fun x y => last.num vals x.1 ≡ last.num vals y.1 [MOD 2 ^ w]) _ _ ?_) ?_
            · intro x hx y hy
              have hy' : y ∈ lb := by simpa using hy
              exact hsteps.same _ _ _ _ (hla x hx).1 (hlb y hy').1 hw (hla x hx).2 (hlb y hy').2
            · intro all hall heq
              obtain ⟨cs, rest, hperm, hf⟩ := hall heq
              rw [unused_of_false] at hperm
              have hp := perm_of_matched hlen hperm hf
              have hprod : factorProd last vals la ≡ factorProd last vals lb [MOD 2 ^ w] := by
                have hlb' : factorProd last vals lb = factorProd last vals cs :=
                  (hp.map fun f : SymRef × Nat => last.num vals f.1).prod_eq
                rw [hlb']
                exact factorProd_congr hf
              exact (hca.symm.trans (.mul_left _ hprod)).trans hcb

omit [BlockHash] in
lemma sum_congr {as bs : List SymRef}
    (h : List.Forall₂ (fun x y => last.num vals x % 2 ^ w = last.num vals y % 2 ^ w) as bs) :
    (as.map (last.num vals)).sum % 2 ^ w = (bs.map (last.num vals)).sum % 2 ^ w := by
  induction h with
  | nil => rfl
  | cons hxy _ ih =>
    rw [map_cons, map_cons, sum_cons, sum_cons]
    exact Nat.ModEq.add hxy ih

omit [BlockHash] in
theorem bits_congr {i : Nat} (hi : i < w) {as bs : List SymRef}
    (h : List.Forall₂ (fun x y => last.num vals x % 2 ^ w = last.num vals y % 2 ^ w) as bs) :
    List.Forall₂ (fun x y => x.testBit i = y.testBit i) (as.map (last.num vals))
      (bs.map (last.num vals)) := by
  induction h with
  | nil => exact List.Forall₂.nil
  | cons hxy _ ih => exact List.Forall₂.cons (mod_two_pow_eq_iff.mp hxy i hi) ih

omit [BlockHash] in
lemma andAll_bit_congr {u v i : Nat} (hu : i < u) (hv : i < v)
    (h : List.Forall₂ (fun x y => x.testBit i = y.testBit i) xs ys) :
    (andAll u xs).testBit i = (andAll v ys).testBit i := by
  induction h with
  | nil => simp [hu, hv]
  | cons hxy _ ih => rw [andAll_cons, andAll_cons, testBit_and, testBit_and, hxy, ih]

omit [BlockHash] in
lemma orAll_bit_congr {i : Nat} (h : List.Forall₂ (fun x y => x.testBit i = y.testBit i) xs ys) :
    (orAll xs).testBit i = (orAll ys).testBit i := by
  induction h with
  | nil => rfl
  | cons hxy _ ih => rw [orAll_cons, orAll_cons, testBit_or, testBit_or, hxy, ih]

omit [BlockHash] in
lemma xorAll_bit_congr {i : Nat} (h : List.Forall₂ (fun x y => x.testBit i = y.testBit i) xs ys) :
    (xorAll xs).testBit i = (xorAll ys).testBit i := by
  induction h with
  | nil => rfl
  | cons hxy _ ih => rw [xorAll_cons, xorAll_cons, Nat.testBit_xor, Nat.testBit_xor, hxy, ih]

variable (h : At last vals s)
include h

theorem sameLow_of_operands (ha : a < s.ctx.nodes.length)
    (hb : b < s.ctx.nodes.length) (hwa : w ≤ s.ctx.width a) (hwb : w ≤ s.ctx.width b)
    (hop : s.ctx.op a = s.ctx.op b) (hcase : s.ctx.op a = .add ∨ isBitwise (s.ctx.op a) = true)
    {cs : List SymRef} (hp : (s.ctx.operands b).Perm cs)
    (hf : List.Forall₂ (fun x y => last.num vals x % 2 ^ w = last.num vals y % 2 ^ w)
    (s.ctx.operands a) cs) : last.num vals a % 2 ^ w = last.num vals b % 2 ^ w := by
  have hra : Has s a (s.ctx.width a) := ⟨ha, rfl⟩
  have hrb : Has s b (s.ctx.width b) := ⟨hb, rfl⟩
  have hp' := hp.map (last.num vals)
  simp only [isBitwise, decide_eq_true_eq] at hcase
  rcases hcase with hop' | hop' | hop' | hop' | hop'
  · rw [h.add_num hra hop', h.add_num hrb (hop ▸ hop'), addAll_perm hp', addAll, addAll,
      Nat.mod_mod_of_dvd _ (pow_dvd_pow 2 hwa), Nat.mod_mod_of_dvd _ (pow_dvd_pow 2 hwb)]
    exact sum_congr hf
  · rw [h.and_num hra hop', h.and_num hrb (hop ▸ hop'), andAll_perm hp', mod_two_pow_eq_iff]
    intro i hi
    exact andAll_bit_congr (by omega) (by omega) (bits_congr hi hf)
  · rw [h.or_num hra hop', h.or_num hrb (hop ▸ hop'), orAll_perm hp', mod_two_pow_eq_iff]
    intro i hi
    exact orAll_bit_congr (bits_congr hi hf)
  · rw [h.xor_num hra hop', h.xor_num hrb (hop ▸ hop'), xorAll_perm hp', mod_two_pow_eq_iff]
    intro i hi
    exact xorAll_bit_congr (bits_congr hi hf)
  · have hsa := h.shape hra
    have hsb := h.shape hrb
    rw [hop'] at hsa
    rw [← hop, hop'] at hsb
    obtain ⟨hoa, hia⟩ := h.one hra hsa
    obtain ⟨hob, hib⟩ := h.one hrb hsb
    rw [hob] at hp
    rw [hoa, ← singleton_perm.mp hp] at hf
    have hxy : last.num vals (s.ctx.operand a 0) % 2 ^ w = last.num vals (s.ctx.operand b 0)
        % 2 ^ w := by
      cases hf with
      | cons hxy _ => exact hxy
    rw [(h.not_num hra hop').2, (h.not_num hrb (hop ▸ hop')).2, mod_two_pow_eq_iff]
    intro i hi
    rw [testBit_notOf (h.lt hia), testBit_notOf (h.lt hib), mod_two_pow_eq_iff.mp hxy i hi,
      decide_eq_true (show i < s.ctx.width a by omega),
      decide_eq_true (show i < s.ctx.width b by omega)]

lemma sameLow_of_extensions
    (hra : Has s a (s.ctx.width a)) (hrb : Has s b (s.ctx.width b)) (hwa : w ≤ s.ctx.width a)
    (hwb : w ≤ s.ctx.width b) (hop : s.ctx.op a = .zext ∨ s.ctx.op a = .sext)
    (hop' : s.ctx.op b = .zext ∨ s.ctx.op b = .sext)
    (hw : s.ctx.width (s.ctx.operand a 0) = s.ctx.width (s.ctx.operand b 0))
    (heq : last.num vals (s.ctx.operand a 0) = last.num vals (s.ctx.operand b 0))
      (hsign : s.ctx.op a = s.ctx.op b ∨
      msb (s.ctx.width (s.ctx.operand a 0)) (last.num vals (s.ctx.operand a 0)) = false) :
    last.num vals a % 2 ^ w = last.num vals b % 2 ^ w := by
  have hzs : ∀ u v x : Nat, msb v x = false → sextOf v u x = x := by
    intro u v x hm
    unfold sextOf
    rw [hm]
    rfl
  rcases hop with ho | ho
  · have hna := (h.zext_num hra ho).2.2.2
    rcases hop' with ho' | ho'
    · rw [hna, (h.zext_num hrb ho').2.2.2, heq]
    · have hm : msb (s.ctx.width (s.ctx.operand a 0)) (last.num vals (s.ctx.operand a 0)) =
          false := by
        rcases hsign with hs | hs
        · rw [ho, ho'] at hs
          cases hs
        · exact hs
      rw [hna, (h.sext_num hrb ho').2.2.2, ← hw, ← heq, hzs _ _ _ hm]
  · obtain ⟨-, hia, hlta, hna⟩ := h.sext_num hra ho
    rcases hop' with ho' | ho'
    · have hm : msb (s.ctx.width (s.ctx.operand a 0)) (last.num vals (s.ctx.operand a 0)) =
          false := by
        rcases hsign with hs | hs
        · rw [ho, ho'] at hs
          cases hs
        · exact hs
      rw [hna, (h.zext_num hrb ho').2.2.2, ← heq, hzs _ _ _ hm]
    · -- above the word the copies of its sign agree up to the shorter extension
      obtain ⟨-, -, hltb, hnb⟩ := h.sext_num hrb ho'
      rw [hna, hnb, ← hw, ← heq, mod_two_pow_eq_iff]
      intro i hi
      rw [testBit_sextOf (h.lt hia) hlta.le, testBit_sextOf (h.lt hia) (hw ▸ hltb.le),
        decide_eq_true (show i < s.ctx.width a by omega),
        decide_eq_true (show i < s.ctx.width b by omega)]

lemma learns_sameExtended (hsteps : StepsSound last vals s steps)
    (hra : Has s a (s.ctx.width a)) (hrb : Has s b (s.ctx.width b))
    (hwa : w ≤ s.ctx.width a) (hwb : w ≤ s.ctx.width b)
    (hop : s.ctx.op a = .zext ∨ s.ctx.op a = .sext) (hop' : s.ctx.op b = .zext ∨ s.ctx.op b = .sext)
    (hw : s.ctx.width (s.ctx.operand a 0) = s.ctx.width (s.ctx.operand b 0)) :
    Learns last vals s (do
      let same ← steps.sameLowBits (s.ctx.operand a 0) (s.ctx.operand b 0)
        (s.ctx.width (s.ctx.operand a 0)) (depth + 1)
      if ¬ same ∨ s.ctx.op a = s.ctx.op b then pure same
      else do
        let k ← steps.infer (s.ctx.operand a 0) (depth + 1)
        pure (msb k.width k.zero)) fun same =>
      same = true → last.num vals a % 2 ^ w = last.num vals b % 2 ^ w := by
  have hview : ∀ r, Has s r (s.ctx.width r) → (s.ctx.op r = .zext ∨ s.ctx.op r = .sext) →
      Has s (s.ctx.operand r 0) (s.ctx.width (s.ctx.operand r 0)) := by
    intro r hr hop
    rcases hop with hop | hop
    · exact (h.zext_num hr hop).2.1
    · exact (h.sext_num hr hop).2.1
  have hia := hview a hra hop
  have hib := hview b hrb hop'
  refine learns_bind (hsteps.same _ _ _ (depth + 1) hia.1 hib.1 (h.pos hia) le_rfl hw.le) ?_
  intro same hsame
  have hexact : same = true →
      last.num vals (s.ctx.operand a 0) = last.num vals (s.ctx.operand b 0) := by
    intro ht
    have hxb := h.lt hib
    rw [← hw] at hxb
    have := hsame ht
    rwa [mod_eq_of_lt (h.lt hia), mod_eq_of_lt hxb] at this
  apply learns_ite
  · intro hc
    apply learns_pure
    intro ht
    rcases hc with hc | hc
    · exact absurd ht hc
    · exact sameLow_of_extensions h hra hrb hwa hwb hop hop' hw (hexact ht) (.inl hc)
  · intro hc
    rw [not_or, not_not] at hc
    refine learns_bind (hsteps.infer _ (depth + 1) hia.1) ?_
    intro k hk
    apply learns_pure
    intro hm
    rw [hk.width] at hm
    exact sameLow_of_extensions h hra hrb hwa hwb hop hop' hw (hexact hc.1) (.inr (hk.clear _ hm))

lemma At.bitwise_operands {r o : SymRef} (hr : Has s r (s.ctx.width r))
    (hc : s.ctx.op r = .add ∨ isBitwise (s.ctx.op r) = true) (ho : o ∈ s.ctx.operands r) :
    Has s o (s.ctx.width r) := by
  by_cases hnot : s.ctx.op r = .not
  · have hsr := h.shape hr
    rw [hnot] at hsr
    obtain ⟨hops, hi⟩ := h.one hr hsr
    rw [hops] at ho
    rw [mem_singleton.mp ho]
    exact hi
  · simp only [isBitwise, decide_eq_true_eq] at hc
    refine (h.nary hr ?_).2 o ho
    rcases hc with hc | hc | hc | hc | hc
    · exact .inl hc
    · exact .inr (.inr (.inl hc))
    · exact .inr (.inr (.inr (.inl hc)))
    · exact .inr (.inr (.inr (.inr hc)))
    · exact absurd hc hnot

lemma learns_sameOperands (hsteps : StepsSound last vals s steps)
    (hra : Has s a (s.ctx.width a)) (hrb : Has s b (s.ctx.width b))
    (hw : 0 < w) (hwa : w ≤ s.ctx.width a) (hwb : w ≤ s.ctx.width b) (hop : s.ctx.op a = s.ctx.op b)
    (hcase : s.ctx.op a = .add ∨ isBitwise (s.ctx.op a) = true)
    (hlen : (s.ctx.operands a).length = (s.ctx.operands b).length) :
    Learns last vals s (matchAll (fun x y => steps.sameLowBits x y w (depth + 1)) (s.ctx.operands a)
      ((s.ctx.operands b).map fun y => (false, y))) fun same =>
      same = true → last.num vals a % 2 ^ w = last.num vals b % 2 ^ w := by
  have hcase' : s.ctx.op b = .add ∨ isBitwise (s.ctx.op b) = true := by
    rw [← hop]
    exact hcase
  refine learns_mono (learns_matchAll (R := fun x y => last.num vals x % 2 ^ w =
    last.num vals y % 2 ^ w) _ _ ?_) ?_
  · intro x hx y hy
    have hy' : y ∈ s.ctx.operands b := by simpa using hy
    have hox := h.bitwise_operands hra hcase hx
    have hoy := h.bitwise_operands hrb hcase' hy'
    exact hsteps.same x y w (depth + 1) hox.1 hoy.1 hw (by rw [hox.2]; exact hwa)
      (by rw [hoy.2]; exact hwb)
  · intro all hall heq
    obtain ⟨cs, rest, hperm, hf⟩ := hall heq
    rw [unused_of_false] at hperm
    exact sameLow_of_operands h hra.1 hrb.1 hwa hwb hop hcase (perm_of_matched hlen hperm hf) hf

lemma learns_sameLowBits (hsteps : StepsSound last vals s steps)
    (ha : a < s.ctx.nodes.length) (hb : b < s.ctx.nodes.length)
    (hw : 0 < w) (hwa : w ≤ s.ctx.width a) (hwb : w ≤ s.ctx.width b) :
    Learns last vals s (SymKnownBits.sameLowBits s.ctx steps a b w depth) fun same =>
      same = true → last.num vals a % 2 ^ w = last.num vals b % 2 ^ w := by
  have hra : Has s a (s.ctx.width a) := ⟨ha, rfl⟩
  have hrb : Has s b (s.ctx.width b) := ⟨hb, rfl⟩
  have hno : ∀ {P : Prop}, Learns last vals s (pure false) fun same => same = true → P :=
    learns_pure (fun hn => (nomatch hn))
  refine learns_bind (learns_spend _) ?_
  intro _ _
  refine learns_ite (fun hab => learns_pure (fun _ => by rw [hab])) (fun _ => ?_)
  refine learns_ite (fun _ => learns_bind learns_truncate fun _ _ => hno) (fun _ => ?_)
  obtain ⟨hla, hlwa, hlna⟩ := lowBitSource_spec h ha hwa
  obtain ⟨hlb, hlwb, hlnb⟩ := lowBitSource_spec h hb hwb
  refine learns_ite (fun _ => ?_) (fun _ => ?_)
  · refine learns_mono (hsteps.same _ _ w (depth + 1) hla hlb hw hlwa hlwb) ?_
    intro same hs ht
    rw [← hlna, ← hlnb]
    exact hs ht
  refine learns_ite (fun hext => ?_) (fun _ => ?_)
  · refine learns_ite (fun _ => hno) (fun hinner => ?_)
    exact learns_sameExtended h hsteps hra hrb hwa hwb hext.1 hext.2 (not_not.mp hinner)
  refine learns_ite (fun hk => ?_) (fun _ => ?_)
  · apply learns_pure
    intro heq
    rw [h.const_num hra hk.1, h.const_num hrb hk.2]
    exact of_decide_eq_true heq
  refine learns_ite (fun _ => learns_sameLowProduct h hsteps ha hb hwa hwb hw) (fun _ => ?_)
  refine learns_ite (fun _ => hno) (fun hop => ?_)
  refine learns_ite (fun _ => hno) (fun hcase => ?_)
  have hcase' : s.ctx.op a = .add ∨ isBitwise (s.ctx.op a) = true := by
    rw [not_and, not_not] at hcase
    by_cases hadd : s.ctx.op a = .add
    · exact .inl hadd
    · exact .inr (hcase hadd)
  refine learns_ite (fun _ => hno) (fun hlen => ?_)
  refine learns_bind (learns_spend _) ?_
  intro _ _
  exact learns_sameOperands h hsteps hra hrb hw hwa hwb (not_not.mp hop) hcase' (not_not.mp hlen)

end NeverD.Sym
