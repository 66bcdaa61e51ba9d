import NeverD.Mba.Residue
import NeverD.Sym.Meaning

namespace NeverD.Mba
open Lib NeverD.Sym APInt
open Words Spends List

def kMaxResidueBaseTerms : Nat := 16

section

variable (ctx : SymContext)

def isShifted (r : SymRef) : Bool := ctx.op r = .add ∧ ctx.isConst (ctx.operand r 0)

def baseOf (r : SymRef) : List SymRef :=
  if ctx.op r ≠ .add then [r]
  else if ctx.isConst (ctx.operand r 0) then (ctx.operands r).drop 1
  else ctx.operands r

def offsetOf (w : Nat) (r : SymRef) : BitVec w :=
  if isShifted ctx r then (ctx.constValue (ctx.operand r 0)).read w else 0#w

def factorsOf (root : SymRef) : List SymRef :=
  if ctx.isConst (ctx.operand root 0) then (ctx.operands root).drop 1 else ctx.operands root

/-- The zeros that the other factors still have to give. -/
def neededZeros (root : SymRef) : Nat :=
  if ctx.isConst (ctx.operand root 0) then
    ctx.width root - (ctx.constValue (ctx.operand root 0)).countrZero
  else ctx.width root

end

structure Spent where
  budget : WorkBudget
  storage : Nat
  completeBase : Bool := false

section

variable (ctx : SymContext) (root : SymRef) (budget : WorkBudget) (storage : Nat)

def commonBytes : Nat := 16 + 2 * wordsOf (ctx.width root) * 8

def commonWork : Nat :=
  (factorsOf ctx root).length * (1 + (baseOf ctx ((factorsOf ctx root).headD 0)).length +
    wordsOf (ctx.width root)) + wordsOf (ctx.width root)

def commonOffsetsVanish : Bool × Spent :=
  let factors := factorsOf ctx root
  let base := baseOf ctx (factors.headD 0)
  if base.length > kMaxResidueBaseTerms then (false, ⟨budget, storage, false⟩)
  else if ¬ ∀ f ∈ factors, baseOf ctx f = base then (false, ⟨budget, storage, false⟩)
  else if factors.length + 2 > storage / commonBytes ctx root ∨
    ¬ budget.canConsume (commonWork ctx root) then
    (false, ⟨budget, storage, true⟩)
  else
    let budget := (budget.consume (commonWork ctx root)).2
    let storage := storage - (factors.length + 2) * commonBytes ctx root
    let offsets := factors.map (offsetOf ctx (ctx.width root))
    match (minimumProductResidueZeros offsets (neededZeros ctx root)).run budget with
    | (some zeros, budget) =>
      if zeros = neededZeros ctx root then
        ((budget.consume 1).1, ⟨(budget.consume 1).2, storage, true⟩)
      else (false, ⟨budget, storage, true⟩)
    | (none, budget) => (false, ⟨budget, storage, true⟩)

end

def foldCommonOffsetProduct [BlockHash] (root : SymRef) (budget : WorkBudget) (storage : Nat) :
    Build (SymRef × Spent) := do
  let ctx ← Build.context
  let p := commonOffsetsVanish ctx root budget storage
  if p.1 then
    let nothing ← Build.mkZero (ctx.width root)
    pure (nothing, p.2)
  else pure (root, p.2)

abbrev Families (w : Nat) : Type := List (List SymRef × List (BitVec w))

def addToFamily {w : Nat} (base : List SymRef) (offset : BitVec w) : Families w → Families w
  | [] => [(base, [offset])]
  | (b, offsets) :: rest =>
    if b = base then (b, offsets ++ [offset]) :: rest
    else if base < b then (base, [offset]) :: (b, offsets) :: rest
    else (b, offsets) :: addToFamily base offset rest

section

variable (ctx : SymContext) (w : Nat)

def collectFamilies : List SymRef → Families w → Spends (Families w)
  | [], families => pure families
  | factor :: rest, families =>
    if ctx.op factor = .add ∧ ctx.numOperands factor ≤ kMaxResidueBaseTerms then do
      consume (baseOf ctx factor).length
      collectFamilies rest (addToFamily (baseOf ctx factor) (offsetOf ctx w factor) families)
    else collectFamilies rest (addToFamily [factor] 0#w families)

/-- Subtract the zeros of one family after the other until none is needed. -/
def familiesVanish : Families w → Nat → Spends Bool
  | [], _ => pure false
  | (_, offsets) :: rest, needed =>
    if offsets.length < 2 then familiesVanish rest needed
    else do
      let zeros ← minimumProductResidueZeros offsets needed
      if needed - zeros = 0 then do
        consume 1
        pure true
      else familiesVanish rest (needed - zeros)

end

section

variable (ctx : SymContext) (root : SymRef)

def bytesPerFactor : Nat :=
  2 * 48 + 4 * 16 + 8 * 8 + 12 * 8 + 2 * kMaxResidueBaseTerms * 4 + 4 * wordsOf (ctx.width root) * 8

def groupWork (n : Nat) : Nat := n * (1 + n.size) * kMaxResidueBaseTerms

def offsetFamiliesVanish : Spends Bool := do
  let n := ctx.numOperands root
  consume (n * (wordsOf (ctx.width root) + 1) + groupWork n)
  let families ← collectFamilies ctx (ctx.width root) (factorsOf ctx root) []
  familiesVanish (ctx.width root) families (neededZeros ctx root)

def afterFamilies (budget : WorkBudget) (storage : Nat) : Bool × Spent :=
  let n := ctx.numOperands root
  let words := wordsOf (ctx.width root)
  if words > storage / (4 * 8) ∨ n > storage / bytesPerFactor ctx root then
    (false, ⟨budget, storage, false⟩)
  else
    let paid := (budget.consume (n * (words + 1) + groupWork n)).1
    let left := if paid then storage - n * bytesPerFactor ctx root else storage
    match (offsetFamiliesVanish ctx root).run budget with
    | (some vanishes, budget) => (vanishes, ⟨budget, left, false⟩)
    | (none, budget) => (false, ⟨budget, left, false⟩)

end

def foldOffsetFamilies [BlockHash] (root : SymRef) (budget : WorkBudget) (storage : Nat) :
    Build (SymRef × Spent) := do
  let ctx ← Build.context
  let p := afterFamilies ctx root budget storage
  if p.1 then
    let nothing ← Build.mkZero (ctx.width root)
    pure (nothing, p.2)
  else pure (root, p.2)

def shiftedNum {w : Nat} (num : SymRef → Nat) (base : List SymRef) (c : BitVec w) : Nat :=
  (BitVec.ofNat w (addAll w (base.map num)) + c).toNat

section

variable [BlockHash] {last : SymContext} {vals : List APInt} {s : SymBuilder} {r root : SymRef}
    {w : Nat}

variable (h : At last vals s)
include h

lemma shiftedNum_zero (hr : Has s r w) : shiftedNum (last.num vals) [r] 0#w = last.num vals r := by
  have hlt := h.lt hr
  rw [shiftedNum, BitVec.add_zero, BitVec.toNat_ofNat, addAll, map_singleton, sum_singleton,
    Nat.mod_mod, Nat.mod_eq_of_lt hlt]

lemma shiftedNum_offsetOf (hr : Has s r w) :
    shiftedNum (last.num vals) (baseOf s.ctx r) (offsetOf s.ctx w r) = last.num vals r := by
  unfold baseOf offsetOf isShifted
  by_cases hop : s.ctx.op r = .add
  · rw [if_neg (not_not_intro hop)]
    obtain ⟨hne, hall⟩ := h.nary hr (.inl hop)
    have hnum := h.add_num hr hop
    by_cases hc : s.ctx.isConst (s.ctx.operand r 0) = true
    · have hops := SymContext.operands_cons hne
      have hmem : s.ctx.operand r 0 ∈ s.ctx.operands r := by rw [hops]; exact mem_cons_self
      have hcw := hall _ hmem
      rw [if_pos hc, if_pos (decide_eq_true ⟨hop, hc⟩), hnum, hops, drop_one, tail_cons, shiftedNum,
        map_cons, addAll_cons, h.const_num hcw hc, BitVec.toNat_add, BitVec.toNat_ofNat, addAll,
        Nat.mod_mod,
        add_comm, APInt.read, BitVec.toNat_setWidth, ← h.const_width hcw hc]
      congr 2
      exact Nat.mod_eq_of_lt (APInt.toNat_lt _)
    · rw [if_neg hc, if_neg (by simp [hc]), hnum, shiftedNum, BitVec.add_zero, BitVec.toNat_ofNat]
      exact Nat.mod_mod _ _
  · rw [if_pos hop, if_neg (by simp [hop])]
    exact shiftedNum_zero h hr

theorem num_eq_zero (hr : Has s root w) (hop : s.ctx.op root = .mul)
    (hdvd : 2 ^ neededZeros s.ctx root ∣ ((factorsOf s.ctx root).map (last.num vals)).prod) :
    last.num vals root = 0 := by
  obtain ⟨hne, hall⟩ := h.nary hr (.inr (.inl hop))
  rw [h.mul_num hr hop, mulAll]
  apply Nat.mod_eq_zero_of_dvd
  unfold neededZeros factorsOf at hdvd
  by_cases hc : s.ctx.isConst (s.ctx.operand root 0) = true
  · have hops := SymContext.operands_cons hne
    have hmem : s.ctx.operand root 0 ∈ s.ctx.operands root := by rw [hops]; exact mem_cons_self
    have hcw := hall _ hmem
    have hle := countrZero_le (s.ctx.constValue (s.ctx.operand root 0))
    have hzeros := two_pow_countrZero_dvd (s.ctx.constValue (s.ctx.operand root 0))
    rw [h.const_width hcw hc] at hle
    rw [if_pos hc, if_pos hc, hr.2] at hdvd
    rw [hops, map_cons, prod_cons, h.const_num hcw hc]
    have hsplit : 2 ^ w = 2 ^ (s.ctx.constValue (s.ctx.operand root 0)).countrZero *
        2 ^ (w - (s.ctx.constValue (s.ctx.operand root 0)).countrZero) := by
      rw [← pow_add, Nat.add_sub_cancel' hle]
    rw [hsplit]
    exact Nat.mul_dvd_mul hzeros hdvd
  · rw [if_neg hc, if_neg hc, hr.2] at hdvd
    exact hdvd

lemma factorsOf_has (hr : Has s root w) (hop : s.ctx.op root = .mul) :
    ∀ f ∈ factorsOf s.ctx root, Has s f w := by
  obtain ⟨-, hall⟩ := h.nary hr (.inr (.inl hop))
  intro f hf
  unfold factorsOf at hf
  split at hf
  · exact hall f (mem_of_mem_drop hf)
  · exact hall f hf

lemma commonOffsetsVanish_sound (hr : Has s root w) (hop : s.ctx.op root = .mul)
    {budget : WorkBudget} {storage : Nat}
    (hv : (commonOffsetsVanish s.ctx root budget storage).1 = true) : last.num vals root = 0 := by
  have hhas := factorsOf_has h hr hop
  unfold commonOffsetsVanish at hv
  dsimp only at hv
  split at hv
  · cases hv
  split at hv
  · cases hv
  rename_i _ hbase
  have hbase := Decidable.not_not.mp hbase
  split at hv
  · cases hv
  split at hv
  next zeros left hrun =>
    split at hv
    next hzeros =>
      obtain ⟨-, hdvd⟩ := ends_minimum_dvd _ _ _ hrun
      apply num_eq_zero h hr hop
      rw [hzeros] at hdvd
      have hword :=
        hdvd (BitVec.ofNat _ (addAll w ((baseOf s.ctx ((factorsOf s.ctx root).headD 0)).map
          (last.num vals))))
      rw [map_map] at hword
      rw [hr.2] at hword
      have hmap : (factorsOf s.ctx root).map (last.num vals) = (factorsOf s.ctx root).map
          (fun f => shiftedNum (last.num vals) (baseOf s.ctx ((factorsOf s.ctx root).headD 0))
            (offsetOf s.ctx w f)) := by
        apply map_congr_left
        intro f hf
        rw [← hbase f hf]
        exact (shiftedNum_offsetOf h (hhas f hf)).symm
      rw [hmap]
      exact hword
    · cases hv
  · cases hv

omit h

def familiesNum {w : Nat} (num : SymRef → Nat) (families : Families w) : Nat :=
  (families.map fun f => (f.2.map (shiftedNum num f.1)).prod).prod

omit [BlockHash] in
lemma familiesNum_cons (num : SymRef → Nat) (f : List SymRef × List (BitVec w))
    (families : Families w) :
    familiesNum num (f :: families) = (f.2.map (shiftedNum num f.1)).prod *
      familiesNum num families := by
  rw [familiesNum, map_cons, prod_cons]
  rfl

omit [BlockHash] in
lemma familiesNum_add (num : SymRef → Nat) (base : List SymRef) (c : BitVec w)
    (families : Families w) :
    familiesNum num (addToFamily base c families) = shiftedNum num base c *
      familiesNum num families := by
  have hone : (([c] : List (BitVec w)).map (shiftedNum num base)).prod = shiftedNum num base c :=
    prod_singleton
  induction families with
  | nil => rw [addToFamily, familiesNum_cons, hone]
  | cons f families ih =>
    rw [addToFamily]
    split
    next heq =>
      rw [familiesNum_cons, familiesNum_cons, map_append, prod_append, heq, map_singleton,
        prod_singleton]
      ring
    · split
      · rw [familiesNum_cons, hone]
      · rw [familiesNum_cons, ih, familiesNum_cons]
        ring

lemma ends_collectFamilies (h : At last vals s) {factors : List SymRef}
    (hf : ∀ f ∈ factors, Has s f w)
    {families : Families w} : Ends (collectFamilies s.ctx w factors families) fun out =>
      familiesNum (last.num vals) out = (factors.map (last.num vals)).prod *
        familiesNum (last.num vals) families := by
  induction factors generalizing families with
  | nil =>
    apply ends_pure
    rw [map_nil, prod_nil, one_mul]
  | cons f factors ih =>
    have hnum : ∀ base (c : BitVec w), shiftedNum (last.num vals) base c = last.num vals f →
        (factors.map (last.num vals)).prod * familiesNum (last.num vals)
          (addToFamily base c families) =
          ((f :: factors).map (last.num vals)).prod * familiesNum (last.num vals) families := by
      intro base c hb
      rw [familiesNum_add, hb, map_cons, prod_cons]
      ring
    have hrest : ∀ families, Ends (collectFamilies s.ctx w factors families) _ :=
      fun _ => ih fun g hg => hf g (mem_cons_of_mem _ hg)
    have hhas := hf f mem_cons_self
    apply ends_ite
    · intro _
      refine ends_bind ends_any ?_
      intro _ _
      rw [← hnum _ _ (shiftedNum_offsetOf h hhas)]
      exact hrest _
    · intro _
      rw [← hnum _ _ (shiftedNum_zero h hhas)]
      exact hrest _

omit [BlockHash] in
lemma ends_familiesVanish (num : SymRef → Nat) (families : Families w) (needed : Nat) :
    Ends (familiesVanish w families needed) fun v => v = true →
      2 ^ needed ∣ familiesNum num families := by
  induction families generalizing needed with
  | nil =>
    apply ends_pure
    intro hv
    cases hv
  | cons f families ih =>
    obtain ⟨base, offsets⟩ := f
    rw [familiesVanish, familiesNum_cons]
    apply ends_ite
    · intro _ b v c hrun hv
      exact (ih needed b v c hrun hv).mul_left _
    · intro _
      refine ends_bind ends_minimum_dvd ?_
      intro zeros hzeros
      obtain ⟨hle, hdvd⟩ := hzeros
      have hfamily : 2 ^ zeros ∣ (offsets.map (shiftedNum num base)).prod := hdvd _
      apply ends_ite
      · intro hdone
        refine ends_bind ends_any fun _ _ => ends_pure fun _ => ?_
        have heq : needed = zeros := by omega
        rw [heq]
        exact hfamily.mul_right _
      · intro _ b v c hrun hv
        have hsplit : 2 ^ needed = 2 ^ zeros * 2 ^ (needed - zeros) := by
          rw [← pow_add, Nat.add_sub_cancel' hle]
        rw [hsplit]
        exact Nat.mul_dvd_mul hfamily (ih _ b v c hrun hv)

lemma ends_offsetFamiliesVanish (h : At last vals s) (hr : Has s root w)
    (hop : s.ctx.op root = .mul) :
    Ends (offsetFamiliesVanish s.ctx root) fun v => v = true → last.num vals root = 0 := by
  have hhas := factorsOf_has h hr hop
  rw [← hr.2] at hhas
  refine ends_bind ends_any ?_
  intro _ _
  refine ends_bind (ends_collectFamilies h hhas) ?_
  intro families hfamilies
  have hnil : familiesNum (w := s.ctx.width root) (last.num vals) [] = 1 := rfl
  rw [hnil, mul_one] at hfamilies
  intro b v c hrun hv
  have hdvd := ends_familiesVanish (last.num vals) families _ b v c hrun hv
  rw [hfamilies] at hdvd
  exact num_eq_zero h hr hop hdvd

lemma afterFamilies_sound (h : At last vals s) (hr : Has s root w) (hop : s.ctx.op root = .mul)
    {budget : WorkBudget} {storage : Nat}
    (hv : (afterFamilies s.ctx root budget storage).1 = true) : last.num vals root = 0 := by
  unfold afterFamilies at hv
  dsimp only at hv
  split at hv
  · cases hv
  split at hv
  next v left hrun => exact ends_offsetFamiliesVanish h hr hop _ _ _ hrun hv
  · cases hv

end

section

variable [BlockHash] {s t : SymBuilder} {r root : SymRef} {w : Nat} {spent : Spent}

theorem replaced_zero {test : SymContext → Bool × Spent} {m : Build (SymRef × Spent)} (hm : m = do
      let ctx ← Build.context
      let p := test ctx
      if p.1 then
        let nothing ← Build.mkZero (ctx.width root)
        pure (nothing, p.2)
      else pure (root, p.2))
    (hs : s.Valid) (hr : Has s root w) (hrun : m.run s = some ((r, spent), t))
    (htest : ∀ last vals, At last vals s → (test s.ctx).1 = true → last.num vals root = 0) :
    r = root ∨ ∀ vals, s.ctx.eval root vals = zero w ∧ t.ctx.eval r vals = zero w := by
  have he := m.grows hrun
  have hpost : ∀ vals, t.Ok t.ctx vals ∧
      (r = root ∨ Den t.ctx vals t r w 0 ∧ t.ctx.num vals root = 0) := by
    intro vals
    have htriple : Triple t.ctx vals s m fun p u =>
        p.1 = root ∨ Den t.ctx vals u p.1 w 0 ∧ t.ctx.num vals root = 0 := by
      rw [hm]
      apply triple_context
      intro h
      apply triple_ite
      · intro hv
        refine triple_bind (means_mkZero (hr.2 ▸ h.pos hr)) ?_
        intro q u _ _ hq
        apply triple_pure
        intro _
        right
        rw [hr.2] at hq
        exact ⟨hq, htest _ _ h hv⟩
      · intro _
        exact triple_pure fun _ => .inl rfl
    exact htriple (hs.ok he vals) _ t hrun (.refl _)
  by_cases heq : r = root
  · exact .inl heq
  · right
    intro vals
    obtain ⟨hok, hfold⟩ := hpost vals
    obtain ⟨⟨hhas, hnum⟩, hzero⟩ := hfold.resolve_left heq
    obtain ⟨hw, hv⟩ := hs.eval_toNat he vals hr
    refine ⟨APInt.ext hw (by rw [hv, hzero, toNat_zero]), ?_⟩
    rw [hok.typed.toAcyclic.eval_eq vals hhas.1]
    exact APInt.ext ((hok.typed.value_width vals hhas.1).trans hhas.2)
      (hnum.trans (toNat_zero w).symm)

/-- Whatever the search for zeros returns is a bound for every word, and the exact one without a
limit; so the products that the folds replace by zero are zero. -/
theorem product_residue_bound [ProjectionHash] [KnownTransfer] (hT : KnownTransfer.Sound) :
    (∀ (w : Nat) (offsets : List (BitVec w)) (ceiling : Nat) (budget : WorkBudget),
      (∀ n left, (minimumProductResidueZeros offsets ceiling).run budget = (some n, left) →
        n ≤ ceiling ∧ ∀ b : BitVec w, 2 ^ n ∣ (offsets.map fun c => (b + c).toNat).prod) ∧
      (budget.unlimited = true → ∃ n left, (minimumProductResidueZeros offsets ceiling).run budget =
        (some n, left) ∧
        IsLeast (Set.range fun p => min ceiling (Residues.matched p w (offsets.map BitVec.toNat)))
        n)) ∧
    ∀ (s t : SymBuilder) (root r : SymRef) (w : Nat) (budget : WorkBudget) (storage : Nat)
      (spent : Spent), s.Built → Has s root w → s.ctx.op root = .mul →
      (foldCommonOffsetProduct root budget storage).run s = some ((r, spent), t) ∨
        (foldOffsetFamilies root budget storage).run s = some ((r, spent), t) →
      r = root ∨ ∀ vals, s.ctx.eval root vals = APInt.zero w ∧
        t.ctx.eval r vals = APInt.zero w := by
  refine ⟨?_, ?_⟩
  · intro w offsets ceiling budget
    refine ⟨fun n left hrun => ends_minimum_dvd budget n left hrun, ?_⟩
    intro hunlimited
    obtain ⟨n, left, hrun, -⟩ := pays_zerosBound budget hunlimited
    refine ⟨n, left, hrun, ?_⟩
    rw [ends_minimum budget n left hrun]
    exact Residues.least_isLeast w ceiling _
  · intro s t root r w budget storage spent hs hr hop hrun
    rcases hrun with hrun | hrun
    · exact replaced_zero rfl (hs.valid hT) hr hrun fun _ _ h hv =>
        commonOffsetsVanish_sound h hr hop hv
    · exact replaced_zero rfl (hs.valid hT) hr hrun fun _ _ h hv => afterFamilies_sound h hr hop hv

end

attribute [local instance] KnownTransfer.silent BlockHash.flat ProjectionHash.sum

/-- A variable of three bits, and the literals from one to three. -/
def threeSteps : SymBuilder where
  ctx := ((((SymContext.mkVar {} "x" 3).2.mkConst (APInt.ofNat 3 1)).2.mkConst
    (APInt.ofNat 3 2)).2.mkConst (APInt.ofNat 3 3)).2

/-- `x * (x + 1) * (x + 2) * (x + 3)`. -/
def risingProduct : Build SymRef := do
  let a ← (ArithCall.mkAdd [1, 0]).run 3
  let b ← (ArithCall.mkAdd [2, 0]).run 3
  let c ← (ArithCall.mkAdd [3, 0]).run 3
  (ArithCall.mkMul [0, a, b, c]).run 3

lemma threeSteps_built : threeSteps.Built :=
  .leaf (.leaf (.leaf (.leaf .empty (.mkVar {} "x" 3 (by decide)))
    (.mkConst _ (ofNat 3 1) (by decide)))
    (.mkConst _ (ofNat 3 2) (by decide))) (.mkConst _ (ofNat 3 3) (by decide))

lemma built_arith {s t : SymBuilder} {r : SymRef} {n w : Nat} (hs : s.Built) {c : ArithCall}
    (hc : c.Legal s w)
    (hrun : (c.run n).run s = some (r, t)) : t.Built ∧ s.ctx.Extends t.ctx ∧ Has t r w := by
  have he := (c.run n).grows hrun
  have hmeans : Means t.ctx [] s (c.run n) w _ := c.means KnownTransfer.silent_sound hc
  obtain ⟨-, hden⟩ := hmeans ((hs.valid KnownTransfer.silent_sound).ok he []) r t hrun (.refl _)
  exact ⟨.arith hs n w c hc hrun, he, hden.1⟩

lemma run_bind_some {α β : Type} {m : Build α} {f : α → Build β} {s : SymBuilder}
    {p : β × SymBuilder}
    (h : (m >>= f).run s = some p) : ∃ q, m.run s = some q ∧ (f q.1).run q.2 = some p :=
  Option.bind_eq_some_iff.mp h

lemma risingProduct_built {s : SymBuilder} {r : SymRef}
    (hrun : risingProduct.run threeSteps = some (r, s)) : s.Built ∧ Has s r 3 := by
  obtain ⟨⟨a, s₁⟩, ha, hrun⟩ := run_bind_some hrun
  obtain ⟨⟨b, s₂⟩, hb, hrun⟩ := run_bind_some hrun
  obtain ⟨⟨c, s₃⟩, hc, hrun⟩ := run_bind_some hrun
  have hleaf : ∀ q < 4, Has threeSteps q 3 := fun q hq => ⟨hq, by revert q; decide⟩
  have hsmall : ∀ {q k : SymRef}, k < 4 → q ∈ [k, 0] → q < 4 := by
    intro q k hk hq
    simp only [mem_cons, not_mem_nil, or_false] at hq
    rcases hq with rfl | rfl
    · exact hk
    · decide
  obtain ⟨hs₁, he₁, hra⟩ := built_arith (w := 3) threeSteps_built (by
    intro q hq
    exact hleaf q (hsmall (by decide) hq)) ha
  obtain ⟨hs₂, he₂, hrb⟩ := built_arith (w := 3) hs₁ (by
    intro q hq
    exact (hleaf q (hsmall (by decide) hq)).mono he₁) hb
  obtain ⟨hs₃, he₃, hrc⟩ := built_arith (w := 3) hs₂ (by
    intro q hq
    exact (hleaf q (hsmall (by decide) hq)).mono (he₁.trans he₂)) hc
  obtain ⟨hs, -, hr⟩ := built_arith (w := 3) hs₃ (c := .mkMul [0, a, b, c]) (by
    intro q hq
    simp only [mem_cons, not_mem_nil, or_false] at hq
    rcases hq with rfl | rfl | rfl | rfl
    · exact (hleaf 0 (by decide)).mono (he₁.trans (he₂.trans he₃))
    · exact hra.mono (he₂.trans he₃)
    · exact hrb.mono he₃
    · exact hrc) hrun
  exact ⟨hs, hr⟩

/-- In words of three bits it vanishes. -/
theorem product_residue_bound_rising :
    ∃ s t root r spent, risingProduct.run threeSteps = some (root, s) ∧
    (foldOffsetFamilies root (.ofLimit 10000) 100000).run s = some ((r, spent), t) ∧ r ≠ root ∧
    ∀ vals, s.ctx.eval root vals = APInt.zero 3 := by
  have hfold : ((risingProduct.run threeSteps).bind fun p =>
      ((foldOffsetFamilies p.1 (.ofLimit 10000) 100000).run p.2).map fun q =>
        (decide (p.2.ctx.op p.1 = .mul), decide (q.1.1 = p.1))) =
          some (true, false) := by decide +kernel
  obtain ⟨⟨root, s⟩, hroot, hfold⟩ := Option.bind_eq_some_iff.mp hfold
  obtain ⟨⟨⟨r, spent⟩, t⟩, hrun, hfacts⟩ := Option.map_eq_some_iff.mp hfold
  simp only [Prod.mk.injEq, decide_eq_true_eq, decide_eq_false_iff_not] at hfacts
  obtain ⟨hs, hhas⟩ := risingProduct_built hroot
  refine ⟨s, t, root, r, spent, hroot, hrun, hfacts.2, ?_⟩
  have hbound :=
    (product_residue_bound KnownTransfer.silent_sound).2 s t root r 3 _ _ spent hs hhas hfacts.1
    (Or.inr hrun)
  exact fun vals => (hbound.resolve_left hfacts.2 vals).1

end NeverD.Mba
