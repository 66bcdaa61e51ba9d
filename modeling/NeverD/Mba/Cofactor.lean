import NeverD.Mba.PolyFormFailure

namespace NeverD.Mba
open Lib NeverD.Sym
open Lib.Minterms Lib.Monomials Spends List

def kMaxPolynomialCofactorTerms : Nat := 128

def kMaxPolynomialCofactorEdges : Nat := 4096

section

def setIntersection : List Nat → List Nat → List Nat
  | [], _ => []
  | a :: as, bs =>
    match bs.dropWhile (· < a) with
    | [] => []
    | b :: rest => if b = a then a :: setIntersection as rest else setIntersection as (b :: rest)

def setDifference : List Nat → List Nat → List Nat
  | [], _ => []
  | a :: as, bs =>
    match bs.dropWhile (· < a) with
    | [] => a :: as
    | b :: rest => if b = a then setDifference as rest else a :: setDifference as (b :: rest)

lemma setIntersection_sublist (as bs : List Nat) :
    (setIntersection as bs).Sublist as ∧ (setIntersection as bs).Sublist bs := by
  induction as generalizing bs with
  | nil => exact ⟨.refl _, nil_sublist _⟩
  | cons a as ih =>
    have hdrop := dropWhile_sublist (l := bs) fun b => decide (b < a)
    unfold setIntersection
    revert hdrop
    cases bs.dropWhile fun b => decide (b < a) with
    | nil => exact fun _ => ⟨nil_sublist _, nil_sublist _⟩
    | cons b rest =>
      intro hdrop
      dsimp only
      by_cases h : b = a
      · rw [if_pos h]
        rw [h] at hdrop
        exact ⟨(ih rest).1.cons_cons a, ((ih rest).2.cons_cons a).trans hdrop⟩
      · rw [if_neg h]
        exact ⟨(ih _).1.cons a, (ih _).2.trans hdrop⟩

lemma setDifference_perm {as bs : List Nat} (has : as.Pairwise (· ≤ ·)) (hbs : bs.Sublist as) :
    (setDifference as bs ++ bs).Perm as := by
  induction as generalizing bs with
  | nil =>
    rw [sublist_nil.mp hbs]
    exact .refl _
  | cons a as ih =>
    obtain ⟨ha, htail⟩ := pairwise_cons.mp has
    unfold setDifference
    cases bs with
    | nil =>
      rw [append_nil]
      exact .refl _
    | cons b bs =>
      have hle : a ≤ b := by
        rcases mem_cons.mp (hbs.subset mem_cons_self) with rfl | hb
        · exact le_rfl
        · exact ha b hb
      rw [dropWhile_cons_of_neg (by simpa using hle)]
      dsimp only
      by_cases h : b = a
      · subst h
        rw [if_pos rfl]
        exact perm_middle.trans ((ih htail (cons_sublist_cons.mp hbs)).cons b)
      · rw [if_neg h, cons_append]
        apply List.Perm.cons
        apply ih htail
        rcases sublist_cons_iff.mp hbs with hrest | ⟨r, heq, _⟩
        · exact hrest
        · exact absurd (List.cons.inj heq).1 h

end

section

variable (terms : List PolyTerm) (maxBytes : Nat)

def isSorted (xs : List Nat) : Bool := decide (xs.Pairwise (· ≤ ·))

def sortWork (degree : Nat) : Nat := degree * (degree.size + 1)

def sortPaid (degree : Nat) (factors : List SymRef) : Spends (List SymRef) :=
  if isSorted factors then pure factors
  else do
    consume (sortWork degree)
    pure (sorted factors)

def intersectAll (degree : Nat) : List PolyTerm → List SymRef → Spends (List SymRef)
  | [], common => pure common
  | t :: ts, common => do
    consume (degree + common.length + t.factors.length)
    let factors ← sortPaid degree t.factors
    if setIntersection common factors = [] then pure []
    else intersectAll degree ts (setIntersection common factors)

def mutationWork (degree : Nat) : Nat :=
  3 * (degree * terms.length) + (terms.map fun t => if isSorted t.factors then 0
    else sortWork degree).sum

def commonFactors : Spends (List SymRef) :=
  match terms with
  | [] => pure []
  | t :: ts =>
    let degree := t.factors.length
    if terms.length < 2 ∨ terms.length > kMaxPolynomialCofactorTerms then pure []
    else if degree < 3 ∨ degree > kMaxPolynomialCofactorEdges / terms.length then pure []
    else if degree * terms.length > maxBytes / (8 * 4) ∨
      terms.any fun u => u.factors.length ≠ degree then pure []
    else do
      consume degree
      let common ← sortPaid degree t.factors
      let common ← intersectAll degree ts common
      if common = [] then pure []
      else do
        consume (mutationWork terms degree)
        pure common

def divideTerm (common : List SymRef) (t : PolyTerm) : PolyTerm :=
  { t with factors := setDifference (sorted t.factors) common }

def extractPolynomialCofactor (budget : WorkBudget) : (List SymRef × List PolyTerm) × WorkBudget :=
  match (commonFactors terms maxBytes).run budget with
  | (none, left) => (([], terms), left)
  | (some common, left) => ((common, if common = [] then terms else terms.map (divideTerm common)),
      left)

variable {terms maxBytes}

lemma ends_sortPaid (degree : Nat) (factors : List SymRef) :
    Ends (sortPaid degree factors) fun xs => xs = sorted factors := by
  apply ends_ite
  · intro h
    exact ends_pure (List.Pairwise.insertionSort_eq (of_decide_eq_true h)).symm
  · exact fun _ => ends_bind ends_any fun _ _ => ends_pure rfl

lemma ends_intersectAll (degree : Nat) (ts : List PolyTerm) (common : List SymRef) :
    Ends (intersectAll degree ts common) fun result => result.Sublist common ∧
      ∀ t ∈ ts, result.Sublist (sorted t.factors) := by
  induction ts generalizing common with
  | nil => exact ends_pure ⟨.refl _, fun t ht => nomatch ht⟩
  | cons t ts ih =>
    refine ends_bind ends_any fun _ _ => ends_bind (ends_sortPaid degree t.factors) ?_
    intro factors hfactors
    subst hfactors
    apply ends_ite
    · exact fun _ => ends_pure ⟨nil_sublist _, fun _ _ => nil_sublist _⟩
    · intro _ b result left hrun
      obtain ⟨hresult, hall⟩ := ih _ b result left hrun
      obtain ⟨hcommon, hfactors⟩ := setIntersection_sublist common (sorted t.factors)
      exact ⟨hresult.trans hcommon, forall_mem_cons.mpr ⟨hresult.trans hfactors, hall⟩⟩

lemma ends_commonFactors : Ends (commonFactors terms maxBytes) fun common =>
    ∀ t ∈ terms, common.Sublist (sorted t.factors) := by
  have hnone : Ends (pure [] : Spends (List SymRef)) fun common => ∀ t ∈ terms,
      common.Sublist (sorted t.factors) :=
    ends_pure fun _ _ => nil_sublist _
  cases terms with
  | nil => exact hnone
  | cons t ts =>
    refine ends_ite (fun _ => hnone) fun _ => ends_ite (fun _ => hnone) fun _ =>
      ends_ite (fun _ => hnone) fun _ => ?_
    refine ends_bind ends_any fun _ _ => ends_bind (ends_sortPaid _ t.factors) ?_
    intro common hcommon
    subst hcommon
    refine ends_bind (ends_intersectAll _ ts _) ?_
    intro common ⟨hfirst, hrest⟩
    refine ends_ite (fun _ => hnone) fun _ => ends_bind ends_any fun _ _ => ends_pure ?_
    exact forall_mem_cons.mpr ⟨hfirst, hrest⟩

def DividedBy (common : List SymRef) (terms terms' : List PolyTerm) : Prop :=
  List.Forall₂ (fun t t' => t'.coeff = t.coeff ∧ (t'.factors ++ common).Perm t.factors) terms terms'

lemma extract_divides (terms : List PolyTerm) (maxBytes : Nat) (budget : WorkBudget) :
    let r := (extractPolynomialCofactor terms maxBytes budget).1
    (r.1 = [] ∧ r.2 = terms) ∨ DividedBy r.1 terms r.2 := by
  unfold extractPolynomialCofactor
  cases hrun : (commonFactors terms maxBytes).run budget with
  | mk o left =>
    cases o with
    | none => exact .inl ⟨rfl, rfl⟩
    | some common =>
      dsimp only
      by_cases hnil : common = []
      · rw [if_pos hnil]
        exact .inl ⟨hnil, rfl⟩
      · rw [if_neg hnil]
        have hsub := ends_commonFactors budget common left hrun
        right
        apply List.forall₂_map_right_iff.mpr
        apply List.forall₂_same.mpr
        intro t ht
        refine ⟨rfl, ?_⟩
        exact (setDifference_perm (pairwise_insertionSort _ _) (hsub t ht)).trans (sorted_perm _)

end

section

variable {ctx : SymContext} {atomIds : List Nat} {w : Nat} {bits : SymRef → Nat → Bool}
    {terms : List PolyTerm}

/-- A form has the value of the terms. Up to thirty atoms there is no form only where the work did
not fit, or where a single product is asked for and the terms are none. Taking out a cofactor
divides every term by it. -/
theorem minterm_expansion_exact (h : Bitwise ctx atomIds w bits terms)
    (optional singleProduct : Bool) :
    Ends (expandOverMinterms ctx terms atomIds w optional singleProduct) (fun form => ∀ vals,
      form.value (atomWords atomIds vals w) = (terms.map fun t => t.value ctx w vals).sum) ∧
    (atomIds.Nodup → atomIds.length ≤ kMaxTruthTableAtoms →
      Fails (expandOverMinterms ctx terms atomIds w optional singleProduct)
        (Refused w atomIds.length bits terms singleProduct)) ∧
    ∀ (ts : List PolyTerm) (maxBytes : Nat) (budget : WorkBudget),
      let r := (extractPolynomialCofactor ts maxBytes budget).1
      (r.1 = [] ∧ r.2 = ts) ∨ DividedBy r.1 ts r.2 :=
  ⟨h.ends_expandOverMinterms optional singleProduct,
    fun hids hn => h.fails_expandOverMinterms hids hn optional singleProduct, extract_divides⟩

end

def twoVariables : SymContext where
  nodes := (List.range 2).map fun i => ⟨.var, 3, 0, 0, i⟩

def oneProduct : List PolyTerm := [⟨⟨3, 1⟩, [0, 1]⟩]

def squareAndProduct : List PolyTerm := [⟨⟨3, 1⟩, [0, 0]⟩, ⟨⟨3, 1⟩, [0, 1]⟩]

lemma twoVariables_acyclic : twoVariables.Acyclic where
  pool := by decide
  below := by decide

lemma twoVariables_bitwise {n : Nat} (hn : 2 ≤ n) {terms : List PolyTerm}
    (hterms : ∀ t ∈ terms, ∀ f ∈ t.factors, f < 2) :
    Bitwise twoVariables (List.range n) 3 (fun f k => k.testBit f) terms where
  acyclic := twoVariables_acyclic
  pos := by decide
  below := hterms
  width t ht f hf := by
    have hwidth : ∀ f < 2, twoVariables.width f = 3 := by decide
    exact hwidth f (hterms t ht f hf)
  bitwise t ht f hf := by
    have hvar : ∀ f < 2, twoVariables.isVar f = true ∧ twoVariables.width f = 3 ∧
        twoVariables.aux f = f := by decide
    obtain ⟨hvar, hwidth, haux⟩ := hvar f (hterms t ht f hf)
    apply bitwiseIn_var twoVariables_acyclic (hterms t ht f hf) hvar hwidth
    rw [haux]
    exact getElem?_range ((hterms t ht f hf).trans_le hn)

/-- A product is expanded, and a sum that is none is rejected as a single product. -/
theorem minterm_expansion_exact_two :
    (∃ form left, (expandOverMinterms twoVariables oneProduct (List.range 2) 3 true true).run
      (.ofLimit 1000) = (some form, left) ∧ ∀ vals, form.value (atomWords (List.range 2) vals 3) =
        (oneProduct.map fun t => t.value twoVariables 3 vals).sum) ∧
    ¬ IsProduct 3 2 (fun f k => k.testBit f) squareAndProduct := by
  have hfirst : ((expandOverMinterms twoVariables oneProduct (List.range 2) 3 true true).run
      (.ofLimit 1000)).1.isSome = true := by decide +kernel
  have hsecond : (fun r : Option (PolyForm 3) × WorkBudget =>
        r.1.isNone && !r.2.exhausted &&
          decide (expansionSize 2 (fun f k => k.testBit f) squareAndProduct ≤ r.2.remaining))
      ((expandOverMinterms twoVariables squareAndProduct (List.range 2) 3 true true).run
        (.ofLimit 1000)) = true := by
    decide +kernel
  have hone : Bitwise twoVariables (List.range 2) 3 (fun f k => k.testBit f) oneProduct :=
    twoVariables_bitwise le_rfl (by decide)
  have htwo : Bitwise twoVariables (List.range 2) 3 (fun f k => k.testBit f) squareAndProduct :=
    twoVariables_bitwise le_rfl (by decide)
  constructor
  · obtain ⟨form, hform⟩ := Option.isSome_iff_exists.mp hfirst
    exact ⟨form, _, Prod.ext hform rfl,
      (minterm_expansion_exact hone true true).1 _ _ _ (Prod.ext hform rfl)⟩
  · cases hrun : (expandOverMinterms twoVariables squareAndProduct (List.range 2) 3 true true).run
      (.ofLimit 1000) with
    | mk o left =>
      rw [hrun] at hsecond
      simp only [Bool.and_eq_true, Bool.not_eq_true', decide_eq_true_eq,
        Option.isNone_iff_eq_none] at hsecond
      obtain ⟨⟨rfl, hleft⟩, hfits⟩ := hsecond
      have hrefused := (minterm_expansion_exact htwo true true).2.1 nodup_range (by decide) _ _ hrun
      refine (hrefused.resolve_left ?_).2
      rintro (hout | hover | ⟨_, hover⟩)
      · rw [hleft] at hout
        cases hout
      · exact absurd hover (by decide +kernel)
      · exact absurd hfits (Nat.not_le_of_lt hover)

lemma oneProduct_size (n : Nat) :
    expansionSize n (fun f k => k.testBit f) oneProduct ≤ 2 ^ n * 2 ^ n := by
  have hlength : ∀ f : Nat, ((List.range (2 ^ n)).filter fun k => k.testBit f).length ≤ 2 ^ n := by
    intro f
    refine (length_filter_le _ _).trans ?_
    rw [length_range]
  have hprod : expansionSize n (fun f k => k.testBit f) oneProduct =
      ((List.range (2 ^ n)).filter fun k => k.testBit 0).length *
        ((List.range (2 ^ n)).filter fun k => k.testBit 1).length := by
    simp [expansionSize, oneProduct, choicesOf]
  rw [hprod]
  exact Nat.mul_le_mul (hlength 0) (hlength 1)

lemma oneProduct_isProduct (n : Nat) : IsProduct 3 n (fun f k => k.testBit f) oneProduct := by
  refine ⟨1, [fun k => k.testBit 0, fun k => k.testBit 1], fun k => ?_⟩
  simp [coefficientMap, oneProduct, choicesOf, functionChoices, APInt.read]

lemma expand_many (n : Nat) (hn : kMaxTruthTableAtoms < n) (budget : WorkBudget) :
    (expandOverMinterms twoVariables oneProduct (List.range n) 3 true true).run budget =
    (none, budget) := by
  unfold expandOverMinterms
  rw [if_pos (by rw [length_range]; exact hn)]
  rfl

/-- With thirty-one atoms there is no form for a product, whatever the budget. -/
theorem minterm_expansion_thirty_one :
    ¬ ∀ (ctx : SymContext) (atomIds : List Nat) (w : Nat) (bits : SymRef → Nat → Bool)
      (terms : List PolyTerm) (optional : Bool), Bitwise ctx atomIds w bits terms → atomIds.Nodup →
      Fails (expandOverMinterms ctx terms atomIds w optional true)
      (Refused w atomIds.length bits terms true) := by
  intro hall
  generalize hn : (31 : Nat) = n
  have hrefused := hall twoVariables (List.range n) 3 (fun f k => k.testBit f) oneProduct true
    (twoVariables_bitwise (by omega) (by decide)) nodup_range _ _
    (expand_many n (by rw [← hn]; decide) (.ofLimit sizeMax))
  rw [length_range] at hrefused
  -- The budget has no limit, and the product has at most 2 ^ 62 monomials.
  have hsize := oneProduct_size n
  rcases hrefused with (hout | hover | ⟨hlimit, _⟩) | ⟨_, hnot⟩
  · cases hout
  · have hover := hover.trans_le hsize
    rw [← hn] at hover
    exact absurd hover (by decide)
  · cases hlimit
  · exact hnot (oneProduct_isProduct n)

end NeverD.Mba
