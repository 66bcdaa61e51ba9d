import NeverD.Mba.PolyFormValue

namespace NeverD.Mba
open Lib NeverD.Sym
open Lib.Minterms Lib.Monomials Spends List

variable {t : PolyTerm}

section

def choicesOf (n : Nat) (bits : SymRef → Nat → Bool) (t : PolyTerm) : List (List Nat) :=
  t.factors.map fun f => (List.range (2 ^ n)).filter (bits f)

/-- The coefficient of a scaled product of sums of minterms at a monomial. -/
def productMap {w : Nat} (c : BitVec w) (choices : List (List Nat)) (k : List Nat) : BitVec w :=
  c * BitVec.ofNat w ((monomials choices).count k)

def coefficientMap (w n : Nat) (bits : SymRef → Nat → Bool) (terms : List PolyTerm) (k : List Nat) :
    BitVec w :=
  (terms.map fun t => productMap (t.coeff.read w) (choicesOf n bits t) k).sum

/-- The number of monomials in the products of the terms. -/
def expansionSize (n : Nat) (bits : SymRef → Nat → Bool) (terms : List PolyTerm) : Nat :=
  (terms.map fun t => if t.factors.length < 2 then 0
    else ((choicesOf n bits t).map List.length).prod).sum

variable {w n : Nat} {bits : SymRef → Nat → Bool}

lemma coefficientMap_append (seen : List PolyTerm) (t : PolyTerm) (k : List Nat) :
    coefficientMap w n bits (seen ++ [t]) k =
      coefficientMap w n bits seen k + productMap (t.coeff.read w) (choicesOf n bits t) k := by
  simp [coefficientMap]

lemma expansionSize_append (seen rest : List PolyTerm) :
    expansionSize n bits (seen ++ rest) = expansionSize n bits seen +
      expansionSize n bits rest := by
  simp [expansionSize]

variable {choices : List (List Nat)}

lemma productMap_of_notMem {c : BitVec w} {k : List Nat} (h : k ∉ monomials choices) :
    productMap c choices k = 0 := by
  rw [productMap, count_eq_zero_of_not_mem h]
  exact mul_zero c

lemma productMap_of_once {c : BitVec w} {k : List Nat}
    (h : (monomials choices).count k = 1) : productMap c choices k = c := by
  rw [productMap, h]
  exact mul_one c

lemma coefficientMap_of_notMem {terms : List PolyTerm} {k : List Nat}
    (h : ∀ t ∈ terms, k ∉ monomials (choicesOf n bits t)) :
    coefficientMap w n bits terms k = 0 := by
  apply sum_eq_zero
  intro x hx
  obtain ⟨t, ht, rfl⟩ := mem_map.mp hx
  exact productMap_of_notMem (h t ht)

lemma filter_range_lt (g : Nat → Bool) (N : Nat) : ((List.range N).filter g).Pairwise (· < ·) :=
  pairwise_lt_range.filter g

lemma choicesOf_lt : ∀ s ∈ choicesOf n bits t, s.Pairwise (· < ·) := by
  intro s hs
  obtain ⟨f, _, rfl⟩ := mem_map.mp hs
  exact filter_range_lt _ _

lemma monomials_eq_nil (h : [] ∈ choices) : monomials choices = [] := by
  apply eq_nil_iff_forall_not_mem.mpr
  intro k hk
  obtain ⟨f, hf, rfl⟩ := mem_map.mp hk
  rw [mem_sections] at hf
  clear hk
  induction hf with
  | nil => cases h
  | cons hx _ ih =>
    rcases mem_cons.mp h with rfl | h
    · cases hx
    · exact ih h

end

section

structure Strict (lt : List Nat → List Nat → Bool) : Prop where
  trans : ∀ a b c, lt a b = true → lt b c = true → lt a c = true
  total : ∀ a b, lt a b = true ∨ a = b ∨ lt b a = true

lemma strict_lt : Strict fun a b => decide (a < b) where
  trans a b c hab hbc := decide_eq_true (lt_trans (of_decide_eq_true hab) (of_decide_eq_true hbc))
  total a b := by
    rw [decide_eq_true_eq, decide_eq_true_eq]
    exact lt_trichotomy a b

lemma strict_gt : Strict fun a b => decide (b < a) where
  trans a b c hab hbc := decide_eq_true (lt_trans (of_decide_eq_true hbc) (of_decide_eq_true hab))
  total a b := by
    rw [decide_eq_true_eq, decide_eq_true_eq]
    exact (lt_trichotomy b a).imp_right fun h => h.imp_left Eq.symm

variable {w n : Nat} {bits : SymRef → Nat → Bool} {lt : List Nat → List Nat → Bool}

/-- The monomial is the extreme one of the terms, with its coefficient. -/
structure ExtremeOf (lt : List Nat → List Nat → Bool) (n : Nat) (bits : SymRef → Nat → Bool)
    (seen : List PolyTerm) (best : List Nat × BitVec w) : Prop where
  none : best.1 = [] → best.2 = 0 ∧ ∀ t ∈ seen, monomials (choicesOf n bits t) = []
  some : best.1 ≠ [] → best.2 = coefficientMap w n bits seen best.1
  bound : best.1 ≠ [] → ∀ t ∈ seen, ∀ k ∈ monomials (choicesOf n bits t), ¬ lt k best.1 = true

lemma extremeOf_start : ExtremeOf lt n bits [] (([], 0) : List Nat × BitVec w) where
  none _ := ⟨rfl, fun _ h => nomatch h⟩
  some h := absurd rfl h
  bound h := absurd rfl h

lemma ExtremeOf.skip {seen : List PolyTerm} {best : List Nat × BitVec w}
    (h : ExtremeOf lt n bits seen best)
    {t : PolyTerm} (ht : monomials (choicesOf n bits t) = []) :
    ExtremeOf lt n bits (seen ++ [t]) best where
  none hnil := by
    refine ⟨(h.none hnil).1, ?_⟩
    intro u hu
    rcases mem_append.mp hu with hu | hu
    · exact (h.none hnil).2 u hu
    · rw [mem_singleton.mp hu]
      exact ht
  some hne := by
    rw [h.some hne, coefficientMap_append, productMap_of_notMem (by rw [ht]; exact not_mem_nil),
      add_zero]
  bound hne := by
    intro u hu k hk
    rcases mem_append.mp hu with hu | hu
    · exact h.bound hne u hu k hk
    · rw [mem_singleton.mp hu, ht] at hk
      cases hk

lemma ExtremeOf.note (hlt : Strict lt) {seen : List PolyTerm} {best : List Nat × BitVec w}
    (h : ExtremeOf lt n bits seen best) {key : List Nat} (hkey : key ≠ [])
    (ht : Extreme (fun a b => lt a b = true) (choicesOf n bits t) key) :
    ExtremeOf lt n bits (seen ++ [t]) (noteExtreme lt key (t.coeff.read w) best) := by
  have hbound : ∀ {k₀ : List Nat}, (∀ u ∈ seen, ∀ k ∈ monomials (choicesOf n bits u),
      ¬ lt k k₀ = true) → (∀ k ∈ monomials (choicesOf n bits t), ¬ lt k k₀ = true) →
      ∀ u ∈ seen ++ [t], ∀ k ∈ monomials (choicesOf n bits u), ¬ lt k k₀ = true := by
    intro k₀ hseen hlast u hu
    rcases mem_append.mp hu with hu | hu
    · exact hseen u hu
    · rw [mem_singleton.mp hu]
      exact hlast
  unfold noteExtreme
  by_cases hnew : best.1 = [] ∨ lt key best.1 = true
  · rw [if_pos hnew]
    have hout : ∀ u ∈ seen, key ∉ monomials (choicesOf n bits u) := by
      intro u hu hmem
      by_cases hnil : best.1 = []
      · rw [(h.none hnil).2 u hu] at hmem
        cases hmem
      · exact h.bound hnil u hu key hmem (hnew.resolve_left hnil)
    refine ⟨fun hnil => absurd hnil hkey, fun _ => ?_, fun _ => hbound ?_ ht.bound⟩
    · dsimp only
      rw [coefficientMap_append, coefficientMap_of_notMem hout, productMap_of_once ht.once,
        zero_add]
    · intro u hu k hk hlow
      by_cases hnil : best.1 = []
      · rw [(h.none hnil).2 u hu] at hk
        cases hk
      · exact h.bound hnil u hu k hk (hlt.trans _ _ _ hlow (hnew.resolve_left hnil))
  · rw [if_neg hnew]
    rw [not_or] at hnew
    by_cases hsame : key = best.1
    · rw [if_pos hsame]
      refine ⟨fun hnil => absurd hnil hnew.1, fun _ => ?_, fun _ => hbound (h.bound hnew.1) ?_⟩
      · rw [coefficientMap_append, h.some hnew.1, ← hsame, productMap_of_once ht.once]
      · rw [← hsame]
        exact ht.bound
    · rw [if_neg hsame]
      have hbeyond : lt best.1 key = true := (hlt.total best.1 key).resolve_right fun hor =>
        hor.elim (fun heq => hsame heq.symm) hnew.2
      refine ⟨fun hnil => absurd hnil hnew.1, fun _ => ?_, fun _ => hbound (h.bound hnew.1) ?_⟩
      · rw [coefficientMap_append, h.some hnew.1,
          productMap_of_notMem fun hmem => ht.bound best.1 hmem hbeyond, add_zero]
      · intro k hk hlow
        exact ht.bound k hk (hlt.trans _ _ _ hlow hbeyond)

theorem ExtremeOf.eq_scale (hlt : Strict lt) {terms : List PolyTerm} {best : List Nat × BitVec w}
    (h : ExtremeOf lt n bits terms best) (hne : best.2 ≠ 0) {c : BitVec w}
    {choices : List (List Nat)}
    (hall : ∀ k, coefficientMap w n bits terms k = productMap c choices k)
    (hextreme : (∀ s ∈ choices, s ≠ []) → ∃ p, Extreme (fun a b => lt a b = true) choices p) :
    best.2 = c := by
  have hkey : best.1 ≠ [] := fun hnil => hne (h.none hnil).1
  have hvalue := h.some hkey
  rw [hall] at hvalue
  have hmem : best.1 ∈ monomials choices := by
    by_contra hnot
    rw [productMap_of_notMem hnot] at hvalue
    exact hne hvalue
  have hfull : ∀ s ∈ choices, s ≠ [] := by
    rintro s hs rfl
    rw [monomials_eq_nil hs] at hmem
    cases hmem
  obtain ⟨p, hp⟩ := hextreme hfull
  have hc : c ≠ 0 := by
    rintro rfl
    exact hne (hvalue.trans (zero_mul _))
  have hcoeff : coefficientMap w n bits terms p = c := (hall p).trans (productMap_of_once hp.once)
  -- The extreme monomial of the product is in some term.
  have hin : ¬ lt p best.1 = true := by
    by_contra hlow
    apply hc
    rw [← hcoeff]
    exact coefficientMap_of_notMem fun t ht hmem => h.bound hkey t ht p hmem hlow
  have heq : best.1 = p :=
    ((hlt.total best.1 p).resolve_left (hp.bound best.1 hmem)).resolve_right hin
  rw [hvalue, heq, productMap_of_once hp.once]

end

variable {ctx : SymContext} {atomIds : List Nat} {w : Nat} {bits : SymRef → Nat → Bool}
    {terms : List PolyTerm}

variable {f : SymRef}

lemma Bitwise.table (h : Bitwise ctx atomIds w bits terms)
    (hn : atomIds.length ≤ kMaxTruthTableAtoms)
    (ht : t ∈ terms) (hf : f ∈ t.factors) : ∃ table, bitwiseTable ctx f atomIds = some table := by
  unfold bitwiseTable
  rw [if_neg (by omega)]
  split
  · exact ⟨_, rfl⟩
  split
  · exact ⟨_, rfl⟩
  · refine ⟨_, if_pos ?_⟩
    intro k _
    rw [cornerValue_eq (h.bitwise t ht f hf) (h.width t ht f hf), isAllOnes_constant h.pos]
    cases bits f (patternOf (atomIds.map (bitAt (lastPosition atomIds) k))) with
    | true => exact Or.inl rfl
    | false =>
      refine Or.inr (decide_eq_true ?_)
      have hzero : (tabulate w fun _ => false) = 0#w := by
        apply BitVec.eq_of_getLsbD_eq
        intro i hi
        rw [getLsbD_tabulate, Bool.and_false, BitVec.getLsbD_zero]
      rw [APInt.toNat, hzero]
      exact BitVec.toNat_zero

def mintermsOf (n : Nat) (bits : SymRef → Nat → Bool) (f : SymRef) : List Nat :=
  (List.range (2 ^ n)).filter (bits f)

lemma Bitwise.patterns_eq (h : Bitwise ctx atomIds w bits terms) (hids : atomIds.Nodup)
    (ht : t ∈ terms) (hf : f ∈ t.factors) {table : TruthTable atomIds.length}
    (htable : bitwiseTable ctx f atomIds = some table) :
    table.patterns = mintermsOf atomIds.length bits f := by
  apply filter_congr
  intro k hk
  exact entry_eq h.acyclic hids h.pos (h.below t ht f hf) (h.bitwise t ht f hf)
    (h.width t ht f hf) htable (mem_range.mp hk)

structure ScanReads (n : Nat) (bits : SymRef → Nat → Bool) (check : Bool) (seen : List SymRef)
    (scan : FactorScan) : Prop where
  empty : scan.zeroProduct = true → ∃ f ∈ seen, mintermsOf n bits f = []
  full : scan.zeroProduct = false → ∀ f ∈ seen, mintermsOf n bits f ≠ []
  size : scan.zeroProduct = false → 0 < scan.productSize ∧
    scan.productSize ≤ (seen.map fun f => (mintermsOf n bits f).length).prod
  low : check = true → scan.zeroProduct = false →
    scan.low = seen.map fun f => (mintermsOf n bits f).headD 0
  high : check = true → scan.zeroProduct = false →
    scan.high = seen.map fun f => (mintermsOf n bits f).getLastD 0
  diagonal : check = true → scan.zeroProduct = false → ∀ m < 2 ^ n,
    scan.diagonalBits m = true ↔ ∀ f ∈ seen, m ∈ mintermsOf n bits f

lemma scanReads_start {n : Nat} {check : Bool} : ScanReads n bits check [] {} where
  empty h := nomatch h
  full _ _ hf := nomatch hf
  size _ := ⟨one_pos, le_rfl⟩
  low _ _ := rfl
  high _ _ := rfl
  diagonal _ _ _ _ := iff_of_true rfl fun _ hf => nomatch hf

lemma saturatingMul_le {a b c : Nat} (ha : 0 < a) (hac : a ≤ c) : saturatingMul a b ≤ c * b := by
  have hmul : a * b ≤ c * b := Nat.mul_le_mul_right b hac
  unfold saturatingMul
  split
  next h =>
    rw [gt_iff_lt, Nat.div_lt_iff_lt_mul ha] at h
    rw [mul_comm b a] at h
    omega
  · exact hmul

lemma saturatingMul_pos {a b : Nat} (ha : 0 < a) (hb : 0 < b) : 0 < saturatingMul a b := by
  unfold saturatingMul
  split
  · decide
  · exact Nat.mul_pos ha hb

lemma fails_noteExtremes {n : Nat} {check : Bool} {table : TruthTable n} {scan : FactorScan} :
    Fails (noteExtremes check table scan) fun c => c.exhausted = true := by
  apply fails_ite
  · exact fun _ => fails_bind (fails_consume 2) ends_any fun _ _ =>
      fails_bind (fails_consume 1) ends_any fun _ _ => fails_pure
  · exact fun _ => fails_pure

lemma ends_noteExtremes {n : Nat} {check : Bool} {table : TruthTable n} {scan : FactorScan} :
    Ends (noteExtremes check table scan) fun scan' => scan'.zeroProduct = scan.zeroProduct ∧
      scan'.productSize = scan.productSize ∧ (check = true →
        scan'.low = scan.low ++ [table.patterns.headD 0] ∧
        scan'.high = scan.high ++ [table.patterns.getLastD 0] ∧
        ∀ m, scan'.diagonalBits m = (scan.diagonalBits m && table.entry m)) := by
  apply ends_ite
  · intro _
    refine ends_bind ends_any fun _ _ => ends_bind ends_any fun _ _ => ends_pure ?_
    exact ⟨rfl, rfl, fun _ => ⟨rfl, rfl, fun _ => rfl⟩⟩
  · intro hcheck
    exact ends_pure ⟨rfl, rfl, fun h => absurd h hcheck⟩

variable {n : Nat} {check : Bool} {seen : List SymRef} {scan : FactorScan}

lemma scanReads_empty (hf : mintermsOf n bits f = []) :
    ScanReads n bits check (seen ++ [f]) { scan with zeroProduct := true } where
  empty _ := ⟨f, mem_append_right _ mem_cons_self, hf⟩
  full h := nomatch h
  size h := nomatch h
  low _ h := nomatch h
  high _ h := nomatch h
  diagonal _ h := nomatch h

lemma ScanReads.full_append (h : ScanReads n bits check seen scan) (hf : mintermsOf n bits f ≠ [])
    {scan' : FactorScan} (hzero : scan'.zeroProduct = scan.zeroProduct)
    (hsize : scan'.productSize = saturatingMul scan.productSize (mintermsOf n bits f).length)
    (hlow : check = true → scan'.low = scan.low ++ [(mintermsOf n bits f).headD 0])
    (hhigh : check = true → scan'.high = scan.high ++ [(mintermsOf n bits f).getLastD 0])
    (hdiag : check = true → ∀ m < 2 ^ n,
      scan'.diagonalBits m = true ↔ scan.diagonalBits m = true ∧ m ∈ mintermsOf n bits f) :
    ScanReads n bits check (seen ++ [f]) scan' where
  empty hz := by
    obtain ⟨g, hg, hnil⟩ := h.empty (hzero.symm.trans hz)
    exact ⟨g, mem_append_left _ hg, hnil⟩
  full hz g hg := by
    rcases mem_append.mp hg with hg | hg
    · exact h.full (hzero.symm.trans hz) g hg
    · rw [mem_singleton.mp hg]
      exact hf
  size hz := by
    obtain ⟨hpos, hle⟩ := h.size (hzero.symm.trans hz)
    rw [hsize, map_append, prod_append, map_singleton, prod_singleton]
    exact ⟨saturatingMul_pos hpos (length_pos_iff.mpr hf), saturatingMul_le hpos hle⟩
  low hc hz := by
    rw [hlow hc, h.low hc (hzero.symm.trans hz), map_append]
    rfl
  high hc hz := by
    rw [hhigh hc, h.high hc (hzero.symm.trans hz), map_append]
    rfl
  diagonal hc hz m hm := by
    rw [hdiag hc m hm, h.diagonal hc (hzero.symm.trans hz) m hm, forall_mem_append,
      forall_mem_singleton]

lemma mem_mintermsOf {table : TruthTable atomIds.length}
    (h : table.patterns = mintermsOf atomIds.length bits f) {m : Nat}
    (hm : m < 2 ^ atomIds.length) :
    table.entry m = true ↔ m ∈ mintermsOf atomIds.length bits f := by
  rw [← h, TruthTable.mem_patterns]
  exact (and_iff_right hm).symm

lemma Bitwise.fails_scanFactor (h : Bitwise ctx atomIds w bits terms)
    (hn : atomIds.length ≤ kMaxTruthTableAtoms)
    (ht : t ∈ terms) (hf : f ∈ t.factors) (pending : Nat) (scan : FactorScan) :
    Fails (scanFactor ctx atomIds check pending t scan f) fun c => c.exhausted = true := by
  obtain ⟨table, htable⟩ := h.table hn ht hf
  unfold scanFactor
  rw [htable]
  refine fails_ite (fun _ => fails_pure) fun _ => fails_ite (fun _ => fails_pure) fun _ => ?_
  exact fails_bind fails_noteExtremes ends_any fun _ _ => fails_pure

lemma Bitwise.ends_scanFactor (h : Bitwise ctx atomIds w bits terms) (hids : atomIds.Nodup)
    (hn : atomIds.length ≤ kMaxTruthTableAtoms) (ht : t ∈ terms) (hmany : ¬ t.factors.length < 2)
    (hf : f ∈ t.factors) (pending : Nat) (hscan : ScanReads atomIds.length bits check seen scan) :
    Ends (scanFactor ctx atomIds check pending t scan f)
      (ScanReads atomIds.length bits check (seen ++ [f])) := by
  obtain ⟨table, htable⟩ := h.table hn ht hf
  have hpatterns := h.patterns_eq hids ht hf htable
  unfold scanFactor
  rw [htable]
  dsimp only
  rw [if_neg hmany, hpatterns]
  apply ends_ite
  · intro hnil
    exact ends_pure (scanReads_empty (length_eq_zero_iff.mp hnil))
  · intro hfull
    refine ends_bind ends_noteExtremes ?_
    intro scan' ⟨hzero, hsize, hextremes⟩
    apply ends_pure
    rw [hpatterns] at hextremes
    refine hscan.full_append (fun hnil => hfull (by rw [hnil]; rfl)) hzero ?_ ?_ ?_ ?_
    · rw [hsize]
    · exact fun hc => (hextremes hc).1
    · exact fun hc => (hextremes hc).2.1
    · intro hc m hm
      rw [(hextremes hc).2.2, Bool.and_eq_true, mem_mintermsOf hpatterns hm]

end NeverD.Mba
