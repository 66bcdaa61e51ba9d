import NeverD.Mba.PolyForm
import NeverD.Sym.Signs

namespace NeverD.Mba
open Lib NeverD.Sym PolyForm
open Lib.Minterms Lib.Monomials Spends List

section

variable {α : Type}

lemma ends_forEachFrom {choices : List (List Nat)} {visit : α → List Nat → α} {picks : List Nat}
    {rest : List (List Nat)} (h : Steps (advance choices) (picks :: rest) none) (fuel : Nat)
    (a : α) : Ends (forEachFrom choices visit fuel picks a) fun a' =>
      a' = ((picks :: rest).map fun p => sorted (takeAt choices p)).foldl visit a := by
  induction rest generalizing picks fuel a with
  | nil =>
    cases fuel with
    | zero => exact ends_refuse
    | succ fuel =>
      refine ends_bind ends_any ?_
      intro _ _
      rw [h.1]
      exact ends_pure rfl
  | cons next rest ih =>
    cases fuel with
    | zero => exact ends_refuse
    | succ fuel =>
      refine ends_bind ends_any ?_
      intro _ _
      rw [h.1]
      exact ih h.2 fuel _

lemma allPicks_start {choices : List (List Nat)} (h : ∀ s ∈ choices, s ≠ []) :
    (allPicks choices).head? = some (choices.map fun _ => 0) := by
  induction choices with
  | nil => rfl
  | cons s choices ih =>
    have hs : 0 < s.length := length_pos_iff.mpr (h s mem_cons_self)
    have hcons : allPicks (s :: choices) = (allPicks choices).flatMap fun p =>
        (List.range s.length).map (· :: p) := rfl
    rw [hcons, head?_flatMap hs, ih fun t ht => h t (mem_cons_of_mem s ht)]
    rfl

lemma allPicks_cons {selected : List (List Nat)} (h : ∀ s ∈ selected, s ≠ []) :
    allPicks selected.reverse = (selected.map fun _ => 0) :: (allPicks selected.reverse).tail := by
  apply eq_cons_of_mem_head?
  rw [allPicks_start fun s hs => h s (mem_reverse.mp hs), Option.mem_some_iff, map_const',
    map_const', length_reverse]

lemma ends_forEachMonomial {selected : List (List Nat)} (h : ∀ s ∈ selected, s ≠ [])
    (hne : selected ≠ [])
    (visit : α → List Nat → α) (a : α) : Ends (forEachMonomial selected visit a) fun a' =>
      a' = (monomials selected.reverse).foldl visit a := by
  have hrev : ∀ s ∈ selected.reverse, s ≠ [] := fun s hs => h s (mem_reverse.mp hs)
  have hall := allPicks_cons h
  have hsteps := steps_allPicks hrev
  rw [hall] at hsteps
  unfold forEachMonomial
  rw [if_neg hne]
  intro b a' c hrun
  rw [ends_forEachFrom hsteps _ a b a' c hrun, ← hall, monomials, ← takeAt_allPicks, map_map]
  rfl

end

section

variable {w : Nat} (xs : List (BitVec w))

def monomialWord (k : List Nat) : BitVec w := (k.map (mintermWord xs)).prod

def higherValue (higher : List (List Nat × BitVec w)) : BitVec w :=
  (higher.map fun e => e.2 * monomialWord xs e.1).sum

def PolyForm.value (form : PolyForm w) : BitVec w :=
  ∑ m ∈ Finset.range (2 ^ xs.length), form.linear m * mintermWord xs m + higherValue xs form.higher

lemma higherValue_add (coeff : BitVec w) (key : List Nat) (higher : List (List Nat × BitVec w)) :
    higherValue xs (addCoefficient coeff key higher) = higherValue xs higher + coeff *
      monomialWord xs key := by
  induction higher with
  | nil => simp [addCoefficient, higherValue]
  | cons e higher ih =>
    obtain ⟨k, c⟩ := e
    unfold addCoefficient
    have hcons : ∀ (c : BitVec w) rest, higherValue xs ((k, c) :: rest) = c * monomialWord xs k +
        higherValue xs rest :=
      fun _ _ => rfl
    by_cases hk : k = key
    · rw [if_pos hk, hcons, hcons, hk]
      ring
    · rw [if_neg hk, hcons, hcons, ih]
      ring

lemma higherValue_foldl (coeff : BitVec w) (keys : List (List Nat))
    (higher : List (List Nat × BitVec w)) :
    higherValue xs (keys.foldl (fun h k => addCoefficient coeff k h) higher) =
      higherValue xs higher + coeff * (keys.map (monomialWord xs)).sum := by
  induction keys generalizing higher with
  | nil => simp
  | cons k keys ih =>
    rw [foldl_cons, ih, higherValue_add, map_cons, sum_cons]
    ring

lemma higherValue_filter (higher : List (List Nat × BitVec w)) :
    higherValue xs (higher.filter fun e => e.2 ≠ 0) = higherValue xs higher := by
  induction higher with
  | nil => rfl
  | cons e higher ih =>
    rw [filter_cons]
    by_cases h : e.2 = 0
    · rw [if_neg (by simpa using h), ih]
      simp [higherValue, h]
    · rw [if_pos (by simpa using h)]
      exact congrArg (e.2 * monomialWord xs e.1 + ·) ih

lemma sum_update (linear : Row w) {n m : Nat} (hm : m < n) (c : BitVec w) (x : Nat → BitVec w) :
    ∑ k ∈ Finset.range n, Function.update linear m (linear m + c) k * x k =
      ∑ k ∈ Finset.range n, linear k * x k + c * x m := by
  have hterm : ∀ k ∈ Finset.range n, Function.update linear m (linear m + c) k * x k =
      linear k * x k + if k = m then c * x m else 0 := by
    intro k _
    by_cases h : k = m
    · rw [h, Function.update_self, if_pos rfl, add_mul]
    · rw [Function.update_of_ne h, if_neg h, add_zero]
  rw [Finset.sum_congr rfl hterm, Finset.sum_add_distrib, Finset.sum_ite_eq',
    if_pos (Finset.mem_range.mpr hm)]

lemma sum_addLinear {n : Nat} (c : BitVec w) (ms : List Nat) (hms : ∀ m ∈ ms, m < n)
    (linear : Row w) (x : Nat → BitVec w) : ∑ k ∈ Finset.range n, addLinear c ms linear k * x k =
      ∑ k ∈ Finset.range n, linear k * x k + c * (ms.map x).sum := by
  induction ms generalizing linear with
  | nil => simp [addLinear]
  | cons m ms ih =>
    have hcons : addLinear c (m :: ms) linear =
        addLinear c ms (Function.update linear m (linear m + c)) := rfl
    rw [hcons, ih (fun k hk => hms k (mem_cons_of_mem m hk)),
      sum_update linear (hms m mem_cons_self), map_cons, sum_cons]
    ring

lemma tableWord_patterns {n : Nat} (hn : xs.length = n) (t : TruthTable n) :
    tableWord xs t.entry = (t.patterns.map (mintermWord xs)).sum := by
  subst hn
  rw [tableWord_eq_sum, TruthTable.patterns]
  induction 2 ^ xs.length with
  | zero => rfl
  | succ n ih =>
    rw [Finset.sum_range_succ, ih, range_succ, filter_append, map_append, sum_append]
    congr 1
    cases h : t.entry n with
    | true => simp [h, ind]
    | false => simp [h, ind]

lemma sum_mintermWord : ∑ m ∈ Finset.range (2 ^ xs.length), mintermWord xs m = -1 := by
  have hsum := tableWord_eq_sum xs fun _ => true
  have hones : tableWord xs (fun _ => true) = -1 := by
    show _ = -(1#w)
    rw [BitVec.neg_one_eq_allOnes]
    apply BitVec.eq_of_getLsbD_eq
    intro i hi
    rw [getLsbD_tableWord _ _ hi, BitVec.getLsbD_allOnes, decide_eq_true hi]
  rw [← hones, hsum]
  apply Finset.sum_congr rfl
  intro m _
  rw [ind, if_pos rfl, one_mul]

end

variable {ctx : SymContext} {atomIds : List Nat} {w : Nat}

/-- The factors are bitwise functions of the atoms. -/
structure Bitwise (ctx : SymContext) (atomIds : List Nat) (w : Nat) (bits : SymRef → Nat → Bool)
    (terms : List PolyTerm) : Prop where
  acyclic : ctx.Acyclic
  pos : 0 < w
  below : ∀ t ∈ terms, ∀ f ∈ t.factors, f < ctx.nodes.length
  width : ∀ t ∈ terms, ∀ f ∈ t.factors, ctx.width f = w
  bitwise : ∀ t ∈ terms, ∀ f ∈ t.factors, BitwiseIn ctx atomIds w f (bits f)

variable {bits : SymRef → Nat → Bool} {terms : List PolyTerm}

lemma length_atomWords (vals : List APInt) : (atomWords atomIds vals w).length = atomIds.length :=
  length_map ..

lemma Bitwise.factor_eq (h : Bitwise ctx atomIds w bits terms) {t : PolyTerm} (ht : t ∈ terms)
    {f : SymRef}
    (hf : f ∈ t.factors) {table : TruthTable atomIds.length}
    (htable : bitwiseTable ctx f atomIds = some table) (vals : List APInt) :
    (ctx.eval f vals).read w =
    (table.patterns.map (mintermWord (atomWords atomIds vals w))).sum := by
  rw [bitwiseTable_sound h.acyclic (h.below t ht f hf) (h.width t ht f hf) h.pos
    (h.bitwise t ht f hf) htable vals,
    APInt.read, BitVec.setWidth_eq, tableWord_patterns _ (length_atomWords vals)]

def Selects (ctx : SymContext) (atomIds : List Nat) (f : SymRef) (s : List Nat) : Prop :=
  ∃ table : TruthTable atomIds.length, bitwiseTable ctx f atomIds = some table ∧ s = table.patterns

variable {selected : List (List Nat)}

lemma selects_of_mapM {fs : List SymRef}
    (h : (fs.mapM fun f => (bitwiseTable ctx f atomIds).map TruthTable.patterns) = some selected) :
    List.Forall₂ (Selects ctx atomIds) fs selected := by
  apply (mapM_forall₂ h).imp
  intro f s hs
  obtain ⟨table, htable, rfl⟩ := Option.map_eq_some_iff.mp hs
  exact ⟨table, htable, rfl⟩

lemma Selects.lt {f : SymRef} {s : List Nat} (h : Selects ctx atomIds f s) :
    ∀ m ∈ s, m < 2 ^ atomIds.length := by
  obtain ⟨table, _, rfl⟩ := h
  exact fun m hm => (TruthTable.mem_patterns.mp hm).1

lemma Bitwise.product_eq (h : Bitwise ctx atomIds w bits terms) {t : PolyTerm} (ht : t ∈ terms)
    (hsel : List.Forall₂ (Selects ctx atomIds) t.factors selected) (vals : List APInt) :
    t.value ctx w vals = t.coeff.read w *
      (selected.map fun s => (s.map (mintermWord (atomWords atomIds vals w))).sum).prod := by
  have hall : ∀ {fs : List SymRef} {selected : List (List Nat)},
      List.Forall₂ (Selects ctx atomIds) fs selected →
      (∀ f ∈ fs, f ∈ t.factors) → (fs.map fun f => (ctx.eval f vals).read w).prod =
        (selected.map fun s => (s.map (mintermWord (atomWords atomIds vals w))).sum).prod := by
    intro fs selected hsel
    induction hsel with
    | nil => exact fun _ => rfl
    | cons hs _ ih =>
      intro hmem
      obtain ⟨table, htable, rfl⟩ := hs
      rw [map_cons, prod_cons, map_cons, prod_cons,
        ih fun g hg => hmem g (mem_cons_of_mem _ hg),
        h.factor_eq ht (hmem _ mem_cons_self) htable vals]
  rw [PolyTerm.value, hall hsel fun f hf => hf]

lemma ends_expandProduct {optional : Bool} {coeff : BitVec w} (hne : selected ≠ [])
    (form : PolyForm w) (xs : List (BitVec w)) :
    Ends (expandProduct optional coeff selected form) fun form' =>
      form'.value xs = form.value xs + coeff *
        (selected.map fun s => (s.map (mintermWord xs)).sum).prod := by
  apply ends_ite
  · intro hempty
    apply ends_pure
    -- An empty factor makes the product vanish.
    obtain ⟨s, hs, hnil⟩ := any_eq_true.mp hempty
    have hzero : (0 : BitVec w) ∈ selected.map fun s => (s.map (mintermWord xs)).sum := by
      rw [mem_map]
      refine ⟨s, hs, ?_⟩
      rw [List.isEmpty_iff.mp hnil]
      rfl
    rw [prod_eq_zero hzero, mul_zero, add_zero]
  · intro hfull
    have hfull : ∀ s ∈ selected, s ≠ [] := by
      intro s hs hnil
      exact hfull (any_eq_true.mpr ⟨s, hs, by rw [hnil]; rfl⟩)
    refine ends_bind ends_any ?_
    intro b _
    apply ends_ite
    · intro _
      exact ends_ite (fun _ => ends_refuse) fun _ => ends_bind ends_any fun _ _ => ends_refuse
    · intro _
      refine ends_bind (ends_forEachMonomial hfull hne _ _) ?_
      intro higher hhigher
      refine ends_bind ends_any ?_
      intro b _
      refine ends_ite (fun _ => ends_refuse) ?_
      intro _
      apply ends_pure
      show _ + higherValue xs higher = _
      have hprod := (prod_sums_monomials (mintermWord xs) selected.reverse).symm
      rw [map_reverse, prod_reverse] at hprod
      rw [hhigher, higherValue_foldl, ← hprod, value, add_assoc]
      rfl

/-- The form after a term is worth the term more; the constants are in the form from the start. -/
theorem Bitwise.ends_expandTerm (h : Bitwise ctx atomIds w bits terms) {t : PolyTerm}
    (ht : t ∈ terms) (optional : Bool)
    (form : PolyForm w) : Ends (expandTerm ctx atomIds w optional form t) fun form' => ∀ vals,
      form'.value (atomWords atomIds vals w) = form.value (atomWords atomIds vals w) +
        if t.factors = [] then 0 else t.value ctx w vals := by
  apply ends_ite
  · intro hnil
    apply ends_pure
    intro vals
    rw [if_pos hnil, add_zero]
  · intro hnil
    cases hselected : t.factors.mapM fun f =>
      (bitwiseTable ctx f atomIds).map TruthTable.patterns with
    | none => exact ends_refuse
    | some selected =>
      have hsel := selects_of_mapM hselected
      apply ends_ite
      · intro hone
        apply ends_pure
        intro vals
        obtain ⟨f, hf⟩ := length_eq_one_iff.mp hone
        rw [hf] at hsel
        obtain ⟨s, rest, hs, hrest, rfl⟩ := List.forall₂_cons_left_iff.mp hsel
        rw [List.forall₂_nil_left_iff.mp hrest] at hsel ⊢
        rw [if_neg hnil, h.product_eq ht (hf ▸ hsel) vals]
        unfold value
        rw [headD_cons, length_atomWords, sum_addLinear _ _ hs.lt]
        simp only [map_cons, map_nil, prod_cons, prod_nil, mul_one]
        ring
      · intro _ b form' c hrun vals
        have hne : selected ≠ [] := by
          rintro rfl
          exact hnil (List.forall₂_nil_right_iff.mp hsel)
        rw [if_neg hnil, h.product_eq ht hsel vals]
        exact ends_expandProduct hne { form with sawProduct := true } _ b form' c hrun

lemma constantPart_eq (ctx : SymContext) (vals : List APInt) (terms : List PolyTerm) :
    constantPart terms w =
    -(terms.map fun t => if t.factors = [] then t.value ctx w vals else 0).sum := by
  have hfold : ∀ (terms : List PolyTerm) (c : BitVec w),
      terms.foldl (fun c t => if t.factors = [] then c - t.coeff.read w else c) c =
        c - (terms.map fun t => if t.factors = [] then t.value ctx w vals else 0).sum := by
    intro terms
    induction terms with
    | nil => simp
    | cons t terms ih =>
      intro c
      rw [foldl_cons, ih, map_cons, sum_cons]
      by_cases h : t.factors = []
      · rw [if_pos h, if_pos h, PolyTerm.value, h, map_nil, prod_nil]
        ring
      · rw [if_neg h, if_neg h]
        ring
  rw [constantPart, hfold, zero_sub]

lemma PolyForm.value_start (xs : List (BitVec w)) (c : BitVec w) :
    ({ linear := fun _ => c } : PolyForm w).value xs = -c := by
  unfold value higherValue
  rw [← Finset.mul_sum, sum_mintermWord]
  simp

lemma PolyForm.value_dropZeros (xs : List (BitVec w)) (form : PolyForm w) :
    (dropZeros form).value xs = form.value xs := by
  unfold value dropZeros
  rw [higherValue_filter]

/-- The form is worth the terms seen so far, and the constants. -/
def Expands (ctx : SymContext) (atomIds : List Nat) (c : BitVec w) (seen : List PolyTerm)
    (form : PolyForm w) : Prop :=
  ∀ vals, form.value (atomWords atomIds vals w) =
    -c + (seen.map fun t => if t.factors = [] then 0 else t.value ctx w vals).sum

lemma Bitwise.ends_expandOverMinterms (h : Bitwise ctx atomIds w bits terms)
    (optional singleProduct : Bool) :
    Ends (expandOverMinterms ctx terms atomIds w optional singleProduct) fun form => ∀ vals,
      form.value (atomWords atomIds vals w) = (terms.map fun t => t.value ctx w vals).sum := by
  refine ends_ite (fun _ => ends_refuse) ?_
  intro _
  refine ends_bind ends_any ?_
  intro _ _
  have hfold : ∀ c, Ends (terms.foldlM (expandTerm ctx atomIds w optional) { linear := fun _ => c })
      (Expands ctx atomIds c terms) := by
    intro c
    apply ends_foldlM_along
    · intro seen t rest heq form hform b form' left hrun vals
      have ht : t ∈ terms := heq ▸ mem_append_right _ mem_cons_self
      rw [h.ends_expandTerm ht optional form b form' left hrun vals, hform vals, map_append,
        sum_append, add_assoc]
      simp
    · intro vals
      rw [value_start]
      simp
  refine ends_bind (hfold _) ?_
  intro form hform
  apply ends_pure
  intro vals
  rw [value_dropZeros, hform vals, constantPart_eq ctx vals, neg_neg, ← sum_map_add]
  congr 1
  apply map_congr_left
  intro t _
  by_cases hnil : t.factors = []
  · rw [if_pos hnil, if_pos hnil, add_zero]
  · rw [if_neg hnil, if_neg hnil, zero_add]

end NeverD.Mba
