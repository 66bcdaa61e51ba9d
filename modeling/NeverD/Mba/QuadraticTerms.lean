import NeverD.Mba.QuadraticRecovery
import NeverD.Mba.BitwiseTable

namespace NeverD.Mba
open Lib NeverD.Sym
open Lib.Minterms Spends List

variable {f : SymRef}

def kMaxQuadraticRowTerms : Nat := 8

def kMinQuadraticRowAtoms : Nat := 4

def kMaxQuadraticRowAtoms : Nat := 8

structure PolyTerm where
  coeff : APInt
  factors : List SymRef

def PolyTerm.value (ctx : SymContext) (w : Nat) (t : PolyTerm) (vals : List APInt) : BitVec w :=
  t.coeff.read w * (t.factors.map fun f => (ctx.eval f vals).read w).prod

structure QuadraticProduct (w n : Nat) where
  coefficient : BitVec w
  left : TruthTable n
  right : TruthTable n

/-- Collect the nodes below the ones on the stack. -/
def dagWalk (ctx : SymContext) : Nat → List SymRef → List SymRef → List SymRef
  | 0, seen, _ => seen
  | _ + 1, seen, [] => seen
  | fuel + 1, seen, cur :: work =>
    if cur ∈ seen then dagWalk ctx fuel seen work
    else dagWalk ctx fuel (cur :: seen) ((ctx.operands cur).reverse ++ work)

def dagSize (ctx : SymContext) (r : SymRef) : Nat :=
  (dagWalk ctx (SymEvalPlan.traversalBound ctx) [] [r]).length

section

variable (ctx : SymContext) (atomIds : List Nat) (w maxBytes scratch : Nat)

abbrev FactorTables : Type := List (SymRef × TruthTable atomIds.length)

def addFactor (factors : FactorTables atomIds) (f : SymRef) : Spends (FactorTables atomIds) :=
  if factors.any fun e => e.1 = f then pure factors
  else if ctx.width f ≠ w ∨ dagSize ctx f > (maxBytes - scratch) / (128 + 2 * wordsOf w * 8) then
    refuse
  else do
    consume (dagSize ctx f + 2 ^ atomIds.length)
    match bitwiseTable ctx f atomIds with
    | none => refuse
    | some table => pure (factors ++ [(f, table)])

def addFactors (factors : FactorTables atomIds) (t : PolyTerm) : Spends (FactorTables atomIds) :=
  if t.factors.length ≠ 2 ∨ t.coeff.width ≠ w then refuse
  else t.factors.foldlM (addFactor ctx atomIds w maxBytes scratch) factors

end

section

variable {atomIds : List Nat} (factors : FactorTables atomIds)

def tableAt (f : SymRef) : TruthTable atomIds.length :=
  match factors.find? fun e => e.1 = f with
  | some e => e.2
  | none => TruthTable.constant false

/-- The factors that a minterm is in, one bit for each. -/
def signature (m : Nat) : Nat := patternOf (factors.map fun e => e.2.entry m)

def signaturesOf : List Nat → List Nat → List Nat
  | [], found => found
  | m :: ms, found =>
    signaturesOf ms (if signature factors m ∈ found then found else found ++ [signature factors m])

def classOf (signatures : List Nat) (m : Nat) : Nat := signatures.idxOf (signature factors m)

def inFactor (signatures : List Nat) (f : SymRef) (k : Nat) : Bool :=
  (signatures.getD k 0).testBit (factors.findIdx fun e => e.1 = f)

def classTerm (w : Nat) (signatures : List Nat) (t : PolyTerm) : ClassTerm w where
  coeff := t.coeff.read w
  left := inFactor factors signatures (t.factors.getD 0 0)
  right := inFactor factors signatures (t.factors.getD 1 0)

end

section

variable (ctx : SymContext) (terms : List PolyTerm) (atomIds : List Nat) (w maxBytes : Nat)

def quadraticPerCorner : Nat := 80 + 4 * (16 + wordsOf w * 8) + 8 * terms.length * 4

def quadraticOverhead : Nat := 1024 + 512 * terms.length

/-- More than one term: recover over the classes, and give every minterm what its class has. -/
def recoverByClasses (factors : FactorTables atomIds) :
    Spends (Option (QuadraticProduct w atomIds.length)) := do
  consume (2 ^ atomIds.length * (factors.length + 1))
  let signatures := signaturesOf factors (List.range (2 ^ atomIds.length)) []
  let recovery ← recoverClasses signatures.length (terms.map (classTerm factors w signatures))
  match recovery with
  | .impossible => pure none
  | .product coefficient split => do
    -- without a pair of classes the product is zero, and nothing is spread
    consume (if coefficient = 0 then 0 else 2 * 2 ^ atomIds.length)
    pure <| some
      { coefficient
        left := TruthTable.ofFn fun m => split.left (classOf factors signatures m)
        right := TruthTable.ofFn fun m => split.right (classOf factors signatures m) }

/-- No result means that the terms were not decided; the result is none when there is no product. -/
def recoverQuadraticTerms : Spends (Option (QuadraticProduct w atomIds.length)) :=
  if w = 0 ∨ terms = [] ∨ terms.length > kMaxQuadraticRowTerms ∨
      atomIds.length < kMinQuadraticRowAtoms ∨ atomIds.length > kMaxQuadraticRowAtoms then refuse
  else if maxBytes < quadraticOverhead terms ∨
      2 ^ atomIds.length > (maxBytes - quadraticOverhead terms) / quadraticPerCorner terms w then
      refuse
  else do
    let scratch := quadraticOverhead terms + 2 ^ atomIds.length * quadraticPerCorner terms w
    let factors ← terms.foldlM (addFactors ctx atomIds w maxBytes scratch) []
    match terms with
    | [t] => do
      consume (2 * 2 ^ atomIds.length)
      pure <| some
        { coefficient := t.coeff.read w
          left := tableAt factors (t.factors.getD 0 0)
          right := tableAt factors (t.factors.getD 1 0) }
    | _ => recoverByClasses terms atomIds w factors

end

section

variable {w n rows : Nat}

def Split.at (s : Split) (q : Nat → Nat) : Split := ⟨fun m => s.left (q m), fun m => s.right (q m)⟩

structure Refines (n rows : Nat) (q : Nat → Nat) (fine coarse : List (ClassTerm w)) : Prop where
  lt : ∀ m < n, q m < rows
  onto : ∀ k < rows, ∃ m < n, q m = k
  terms : ∀ m < n, ∀ k < n, fine.map (fun t => productEntry t.coeff ⟨t.left, t.right⟩ m k) =
    coarse.map fun t => productEntry t.coeff (Split.at ⟨t.left, t.right⟩ q) m k

theorem productEntry_at (c : BitVec w) (s : Split) (q : Nat → Nat) (m k : Nat) :
    productEntry c (s.at q) m k =
    (if m ≠ k ∧ q m = q k then 2 else 1) * productEntry c s (q m) (q k) := by
  by_cases hmk : m = k
  · rw [hmk, if_neg (fun h => h.1 rfl), one_mul, productEntry_self, productEntry_self]
    rfl
  · by_cases hq : q m = q k
    · rw [if_pos ⟨hmk, hq⟩, productEntry_ne c _ hmk, hq, productEntry_self]
      dsimp only [Split.at]
      rw [hq, two_mul]
    · rw [if_neg (fun h => hq h.2), one_mul, productEntry_ne c _ hmk, productEntry_ne c _ hq]
      rfl

variable {q : Nat → Nat} {fine coarse : List (ClassTerm w)}

variable (h : Refines n rows q fine coarse)
include h

lemma Refines.entryOf_eq {m k : Nat} (hm : m < n) (hk : k < n) :
    entryOf fine m k = (if m ≠ k ∧ q m = q k then 2 else 1) * entryOf coarse (q m) (q k) := by
  unfold entryOf
  rw [h.terms m hm k hk, ← sum_map_mul_left]
  congr 1
  apply map_congr_left
  intro t _
  exact productEntry_at _ _ q m k

theorem Refines.fits {c : BitVec w} {s : Split} (hs : Fits rows coarse c s) :
    Fits n fine c (s.at q) := by
  intro m hm k hk
  rw [h.entryOf_eq hm hk, productEntry_at, hs (q m) (h.lt m hm) (q k) (h.lt k hk)]

/-- A product over the minterms gives one over the classes, by one minterm of each. -/
theorem Refines.fits_classes {c : BitVec w} {s : Split} (hs : Fits n fine c s) :
    ∃ t, Fits rows coarse c t := by
  choose! rep hrep using h.onto
  refine ⟨s.at rep, ?_⟩
  intro a ha b hb
  obtain ⟨hma, hqa⟩ := hrep a ha
  obtain ⟨hmb, hqb⟩ := hrep b hb
  have hentry := h.entryOf_eq hma hmb
  have hsame : ∀ {i j}, i < rows → j < rows → rep i = rep j → i = j := by
    intro i j hi hj heq
    rw [← (hrep i hi).2, ← (hrep j hj).2, heq]
  rw [hqa, hqb, if_neg fun hne => hne.1 (congrArg rep hne.2), one_mul] at hentry
  rw [← hentry, hs _ hma _ hmb, productEntry_at, if_neg fun hne => hne.1 (hsame ha hb hne.2),
    one_mul]

end

section

variable {w : Nat} (xs : List (BitVec w))

lemma ind_and (a b : Bool) : ind w (a && b) = ind w a * ind w b := by
  cases a with
  | true => rw [Bool.true_and, ind, ind, if_pos rfl, one_mul]
  | false => rw [Bool.false_and, ind, if_neg Bool.false_ne_true, zero_mul]

lemma product_form (c : BitVec w) (f g : Nat → Bool) : c * tableWord xs f * tableWord xs g =
    ∑ m ∈ Finset.range (2 ^ xs.length), ∑ k ∈ Finset.range (2 ^ xs.length),
      c * ind w (f m && g k) * (mintermWord xs m * mintermWord xs k) := by
  rw [tableWord_eq_sum xs f, tableWord_eq_sum xs g, mul_assoc, Finset.sum_mul_sum, Finset.mul_sum]
  apply Finset.sum_congr rfl
  intro m _
  rw [Finset.mul_sum]
  apply Finset.sum_congr rfl
  intro k _
  rw [ind_and]
  ring

def ClassTerm.value (t : ClassTerm w) : BitVec w :=
  t.coeff * tableWord xs t.left * tableWord xs t.right

lemma terms_form (ts : List (ClassTerm w)) : (ts.map fun t => t.value xs).sum =
    ∑ m ∈ Finset.range (2 ^ xs.length), ∑ k ∈ Finset.range (2 ^ xs.length),
      (ts.map fun t => t.coeff * ind w (t.left m && t.right k)).sum *
      (mintermWord xs m * mintermWord xs k) := by
  induction ts with
  | nil => simp
  | cons t ts ih =>
    rw [map_cons, sum_cons, ih, ClassTerm.value, product_form, ← Finset.sum_add_distrib]
    apply Finset.sum_congr rfl
    intro m _
    rw [← Finset.sum_add_distrib]
    apply Finset.sum_congr rfl
    intro k _
    rw [map_cons, sum_cons, add_mul]

lemma entryOf_paired (ts : List (ClassTerm w)) (m k : Nat) :
    entryOf ts m k = paired (fun m k =>
      (ts.map fun t => t.coeff * ind w (t.left m && t.right k)).sum) m k := by
  induction ts with
  | nil => simp [entryOf, paired]
  | cons t ts ih =>
    have hcons : entryOf (t :: ts) m k = productEntry t.coeff ⟨t.left, t.right⟩ m k +
        entryOf ts m k := rfl
    rw [hcons, ih, productEntry]
    unfold paired
    by_cases h : m = k
    · simp [h]
    · simp only [if_neg h, map_cons, sum_cons]
      ring

lemma Fits.value_eq {ts : List (ClassTerm w)} {c : BitVec w} {s : Split} {n : Nat}
    (hn : xs.length = n) (h : Fits (2 ^ n) ts c s) :
    (ts.map fun t => t.value xs).sum = c * tableWord xs s.left * tableWord xs s.right := by
  subst hn
  rw [terms_form, product_form]
  apply form_congr
  intro m hm k hk
  rw [← entryOf_paired, h m hm k hk]
  rfl

end

section

variable {ctx : SymContext} {atomIds : List Nat} {w maxBytes scratch : Nat}

def Gathered (ctx : SymContext) (w : Nat) (factors : FactorTables atomIds) : Prop :=
  ∀ e ∈ factors, bitwiseTable ctx e.1 atomIds = some e.2 ∧ ctx.width e.1 = w

def IsRead (factors : FactorTables atomIds) (f : SymRef) : Prop := ∃ e ∈ factors, e.1 = f

lemma ends_addFactor (factors : FactorTables atomIds) (f : SymRef) (h : Gathered ctx w factors) :
    Ends (addFactor ctx atomIds w maxBytes scratch factors f) fun factors' =>
      Gathered ctx w factors' ∧ IsRead factors' f ∧ ∀ g, IsRead factors g → IsRead factors' g := by
  apply ends_ite
  · intro hany
    apply ends_pure
    obtain ⟨e, he, heq⟩ := any_eq_true.mp hany
    exact ⟨h, ⟨e, he, of_decide_eq_true heq⟩, fun _ hg => hg⟩
  · intro _
    apply ends_ite
    · exact fun _ => ends_refuse
    · intro hfits
      refine ends_bind ends_any ?_
      intro _ _
      cases htable : bitwiseTable ctx f atomIds with
      | none => exact ends_refuse
      | some table =>
        apply ends_pure
        have hwidth : ctx.width f = w := not_not.mp (not_or.mp hfits).1
        refine ⟨?_, ⟨(f, table), mem_append_right _ mem_cons_self, rfl⟩, ?_⟩
        · intro e he
          rcases mem_append.mp he with he | he
          · exact h e he
          · rw [mem_singleton.mp he]
            exact ⟨htable, hwidth⟩
        · intro g ⟨e, he, heq⟩
          exact ⟨e, mem_append_left _ he, heq⟩

def IsReadTerm (factors : FactorTables atomIds) (t : PolyTerm) : Prop :=
  t.factors.length = 2 ∧ ∀ f ∈ t.factors, IsRead factors f

lemma ends_addFactors (factors : FactorTables atomIds) (t : PolyTerm) (h : Gathered ctx w factors) :
    Ends (addFactors ctx atomIds w maxBytes scratch factors t) fun factors' =>
      Gathered ctx w factors' ∧ IsReadTerm factors' t ∧ ∀ u, IsReadTerm factors u →
        IsReadTerm factors' u := by
  apply ends_ite
  · exact fun _ => ends_refuse
  · intro hok budget factors' left hrun
    obtain ⟨hgathered, hread, hkeep⟩ :=
      ends_foldlM (fun a b ha => ends_addFactor a b ha) t.factors factors h budget factors'
        left hrun
    refine ⟨hgathered, ⟨not_not.mp (not_or.mp hok).1, hread⟩, ?_⟩
    intro u hu
    exact ⟨hu.1, fun f hf => hkeep f (hu.2 f hf)⟩

lemma tableAt_read {factors : FactorTables atomIds} (h : Gathered ctx w factors)
    (hf : IsRead factors f) : bitwiseTable ctx f atomIds = some (tableAt factors f) ∧
    ctx.width f = w := by
  unfold tableAt
  cases hfind : factors.find? fun e => e.1 = f with
  | none =>
    obtain ⟨e, he, heq⟩ := hf
    exact absurd (decide_eq_true heq) (find?_eq_none.mp hfind e he)
  | some e =>
    have heq := find?_some hfind
    rw [← of_decide_eq_true heq]
    exact h e (mem_of_find?_eq_some hfind)

theorem testBit_signature (factors : FactorTables atomIds) (f : SymRef) (m : Nat) :
    (signature factors m).testBit (factors.findIdx fun e => e.1 = f) =
    (tableAt factors f).entry m := by
  unfold signature
  rw [testBit_patternOf]
  induction factors with
  | nil =>
    rw [tableAt, find?_nil, TruthTable.entry, TruthTable.constant, TruthTable.ofFn,
      getLsbD_tabulate, Bool.and_false]
    rfl
  | cons e factors ih =>
    rw [findIdx_cons, tableAt, find?_cons]
    by_cases h : e.1 = f
    · simp [h]
    · rw [decide_eq_false h]
      exact ih

end

section

variable {atomIds : List Nat} (factors : FactorTables atomIds)

lemma mem_signaturesOf {ms found : List Nat} {s : Nat} :
    s ∈ signaturesOf factors ms found ↔ s ∈ found ∨ ∃ m ∈ ms, signature factors m = s := by
  induction ms generalizing found with
  | nil =>
    exact ⟨.inl, fun h => h.resolve_right fun ⟨m, hm, _⟩ => nomatch hm⟩
  | cons m ms ih =>
    unfold signaturesOf
    rw [ih]
    simp only [mem_cons, exists_eq_or_imp]
    by_cases hmem : signature factors m ∈ found
    · rw [if_pos hmem]
      constructor
      · exact fun h => h.imp_right Or.inr
      · rintro (h | rfl | h)
        · exact .inl h
        · exact .inl hmem
        · exact .inr h
    · rw [if_neg hmem, mem_append, mem_singleton, or_assoc, eq_comm]

lemma nodup_signaturesOf {ms found : List Nat} (h : found.Nodup) :
    (signaturesOf factors ms found).Nodup := by
  induction ms generalizing found with
  | nil => exact h
  | cons m ms ih =>
    apply ih
    by_cases hmem : signature factors m ∈ found
    · rwa [if_pos hmem]
    · rw [if_neg hmem]
      apply nodup_append.mpr
      refine ⟨h, nodup_singleton _, ?_⟩
      intro a ha b hb heq
      rw [mem_singleton.mp hb] at heq
      exact hmem (heq ▸ ha)

def mintermTerm (w : Nat) (bits : SymRef → Nat → Bool) (t : PolyTerm) : ClassTerm w where
  coeff := t.coeff.read w
  left := bits (t.factors.getD 0 0)
  right := bits (t.factors.getD 1 0)

lemma refines_classes (w : Nat) (terms : List PolyTerm) {signatures : List Nat}
    (hs : signatures = signaturesOf factors (List.range (2 ^ atomIds.length)) []) :
    Refines (2 ^ atomIds.length) signatures.length (classOf factors signatures)
      (terms.map (mintermTerm w fun f => (tableAt factors f).entry))
      (terms.map (classTerm factors w signatures)) := by
  have hmem : ∀ s, s ∈ signatures ↔ ∃ m < 2 ^ atomIds.length, signature factors m = s := by
    intro s
    rw [hs, mem_signaturesOf, or_iff_right not_mem_nil]
    simp only [mem_range]
  have hlt : ∀ m < 2 ^ atomIds.length, classOf factors signatures m < signatures.length :=
    fun m hm => idxOf_lt_length_of_mem ((hmem _).mpr ⟨m, hm, rfl⟩)
  have hin : ∀ m < 2 ^ atomIds.length, ∀ f,
      (tableAt factors f).entry m = inFactor factors signatures f
      (classOf factors signatures m) := by
    intro m hm f
    have hget : signatures.getD (classOf factors signatures m) 0 = signature factors m := by
      rw [getD_eq_getElem _ _ (hlt m hm)]
      exact getElem_idxOf (hlt m hm)
    rw [inFactor, hget, testBit_signature]
  refine ⟨hlt, ?_, ?_⟩
  · intro k hk
    obtain ⟨m, hm, heq⟩ := (hmem _).mp (getElem_mem hk)
    refine ⟨m, hm, ?_⟩
    rw [classOf, heq]
    have hnodup : signatures.Nodup := hs ▸ nodup_signaturesOf factors nodup_nil
    exact hnodup.idxOf_getElem k hk
  · intro m hm k hk
    rw [map_map, map_map]
    apply map_congr_left
    intro t _
    exact productEntry_congr ⟨hin m hm _, hin m hm _⟩ ⟨hin k hk _, hin k hk _⟩

end

section

variable {ctx : SymContext} {atomIds : List Nat} {w : Nat}

lemma eq_mk_read {v : APInt} (h : v.width = w) : v = ⟨w, v.read w⟩ := by
  subst h
  rw [APInt.read, BitVec.setWidth_eq]

theorem bitwiseIn_var (h : ctx.Acyclic) {j : Nat} (hf : f < ctx.nodes.length)
    (hv : ctx.isVar f = true)
    (hw : ctx.width f = w) (hj : atomIds[j]? = some (ctx.aux f)) :
    BitwiseIn ctx atomIds w f fun k => k.testBit j := by
  intro vals
  rw [eval_var h hf hv, hw, eq_mk_read (SymContext.varValue_width vals (ctx.aux f) w)]
  congr 1
  apply BitVec.eq_of_getLsbD_eq
  intro i hi
  rw [getLsbD_tableWord _ _ hi, column, testBit_patternOf, atomWords, map_map, List.getD,
    getElem?_map, hj]
  rfl

def coefficientAt (w : Nat) (bits : SymRef → Nat → Bool) (terms : List PolyTerm) (m k : Nat) :
    BitVec w :=
  entryOf (terms.map (mintermTerm w bits)) m k

lemma getD_mem {fs : List SymRef} (i : Nat) (hi : i < fs.length) : fs.getD i f ∈ fs := by
  rw [getD_eq_getElem _ _ hi]
  exact getElem_mem hi

lemma value_pair {t : PolyTerm} (h : t.factors.length = 2) (vals : List APInt) :
    t.value ctx w vals =
    t.coeff.read w * (ctx.eval (t.factors.getD 0 0) vals).read w *
    (ctx.eval (t.factors.getD 1 0) vals).read w := by
  obtain ⟨f, g, hfg⟩ := length_eq_two.mp h
  rw [PolyTerm.value, hfg, mul_assoc]
  simp

theorem exists_column (hids : atomIds.Nodup) (hw : 0 < w) {k : Nat} (hk : k < 2 ^ atomIds.length) :
    ∃ vals, column (atomWords atomIds vals w) 0 = k := by
  refine ⟨assignment atomIds fun id => ⟨w, tabulate w fun _ => k.testBit (atomIds.idxOf id)⟩, ?_⟩
  rw [atomWords_assignment, column_map, ← patternOf_testBit hk]
  congr 1
  apply ext_getElem
  · rw [length_map, length_map, length_range]
  · intro j hj _
    rw [length_map] at hj
    rw [getElem_map, getElem_map, getElem_range, getLsbD_tabulate, decide_eq_true hw, Bool.true_and,
      hids.idxOf_getElem j hj, patternOf_testBit hk]

lemma entry_eq (h : ctx.Acyclic) (hids : atomIds.Nodup) (hw : 0 < w) {b : Nat → Bool}
    (hf : f < ctx.nodes.length) (hb : BitwiseIn ctx atomIds w f b) (hwidth : ctx.width f = w)
    {t : TruthTable atomIds.length} (ht : bitwiseTable ctx f atomIds = some t) {k : Nat}
    (hk : k < 2 ^ atomIds.length) : t.entry k = b k := by
  obtain ⟨vals, hcol⟩ := exists_column hids hw hk
  have heval := (bitwiseTable_sound h hf hwidth hw hb ht vals).symm.trans (hb vals)
  have hbit := congrArg (fun a => a.getBit 0) heval
  dsimp only [APInt.getBit] at hbit
  rwa [getLsbD_tableWord _ _ hw, getLsbD_tableWord _ _ hw, hcol] at hbit

lemma coefficientAt_congr {bits bits' : SymRef → Nat → Bool} {terms : List PolyTerm} {m k : Nat}
    (h : ∀ t ∈ terms, ∀ i < 2, ∀ j ∈ [m, k], bits (t.factors.getD i 0) j =
    bits' (t.factors.getD i 0) j) :
    coefficientAt w bits terms m k = coefficientAt w bits' terms m k := by
  unfold coefficientAt entryOf
  rw [map_map, map_map]
  congr 1
  apply map_congr_left
  intro t ht
  have hm : ∀ i < 2, bits (t.factors.getD i 0) m = bits' (t.factors.getD i 0) m :=
    fun i hi => h t ht i hi m mem_cons_self
  have hk : ∀ i < 2, bits (t.factors.getD i 0) k = bits' (t.factors.getD i 0) k :=
    fun i hi => h t ht i hi k (mem_cons_of_mem m mem_cons_self)
  exact productEntry_congr ⟨hm 0 Nat.zero_lt_two, hm 1 one_lt_two⟩ ⟨hk 0 Nat.zero_lt_two,
    hk 1 one_lt_two⟩

def HasValue (ctx : SymContext) (terms : List PolyTerm) (atomIds : List Nat) (w : Nat)
    (p : QuadraticProduct w atomIds.length) : Prop :=
  ∀ vals, (terms.map fun t => t.value ctx w vals).sum =
    p.coefficient * tableWord (atomWords atomIds vals w) p.left.entry *
      tableWord (atomWords atomIds vals w) p.right.entry

def SameCoefficients (bits : SymRef → Nat → Bool) (terms : List PolyTerm) {n : Nat}
    (p : QuadraticProduct w n) : Prop :=
  ∀ m < 2 ^ n, ∀ k < 2 ^ n,
    coefficientAt w bits terms m k = productEntry p.coefficient ⟨p.left.entry, p.right.entry⟩ m k

structure Reading (ctx : SymContext) (terms : List PolyTerm) (w : Nat)
    (factors : FactorTables atomIds) : Prop where
  gathered : Gathered ctx w factors
  read : ∀ t ∈ terms, IsReadTerm factors t
  acyclic : ctx.Acyclic
  bitwise : ∀ t ∈ terms, ∀ f ∈ t.factors, f < ctx.nodes.length ∧ ∃ b, BitwiseIn ctx atomIds w f b
  pos : 0 < w

variable {terms : List PolyTerm} {factors : FactorTables atomIds}

variable (h : Reading ctx terms w factors)
include h

lemma Reading.value_eq (vals : List APInt) {t : PolyTerm} (ht : t ∈ terms) : t.value ctx w vals =
      (mintermTerm w (fun f => (tableAt factors f).entry) t).value (atomWords atomIds vals w) := by
  obtain ⟨hlen, hread⟩ := h.read t ht
  have hfactor : ∀ i < 2, (ctx.eval (t.factors.getD i 0) vals).read w =
      tableWord (atomWords atomIds vals w) (tableAt factors (t.factors.getD i 0)).entry := by
    intro i hi
    have hmem : t.factors.getD i 0 ∈ t.factors := getD_mem i (hlen ▸ hi)
    obtain ⟨hf, b, hb⟩ := h.bitwise t ht _ hmem
    obtain ⟨htable, hwidth⟩ := tableAt_read h.gathered (hread _ hmem)
    rw [bitwiseTable_sound h.acyclic hf hwidth h.pos hb htable vals, APInt.read, BitVec.setWidth_eq]
  rw [value_pair hlen, hfactor 0 Nat.zero_lt_two, hfactor 1 one_lt_two]
  rfl

lemma Reading.hasValue {p : QuadraticProduct w atomIds.length}
    (hp : Fits (2 ^ atomIds.length)
      (terms.map (mintermTerm w fun f => (tableAt factors f).entry)) p.coefficient
      ⟨p.left.entry, p.right.entry⟩) : HasValue ctx terms atomIds w p := by
  intro vals
  rw [← hp.value_eq (atomWords atomIds vals w) (length_map ..), map_map]
  congr 1
  apply map_congr_left
  intro t ht
  exact h.value_eq vals ht

theorem Reading.fits (hids : atomIds.Nodup) {bits : SymRef → Nat → Bool}
    (hbits : ∀ t ∈ terms, ∀ f ∈ t.factors, BitwiseIn ctx atomIds w f (bits f))
    {p : QuadraticProduct w atomIds.length} (hp : SameCoefficients bits terms p) :
    Fits (2 ^ atomIds.length)
      (terms.map (mintermTerm w fun f => (tableAt factors f).entry)) p.coefficient
      ⟨p.left.entry, p.right.entry⟩ := by
  intro m hm k hk
  rw [← hp m hm k hk]
  apply coefficientAt_congr
  intro t ht i hi j hj
  obtain ⟨hlen, hread⟩ := h.read t ht
  have hmem : t.factors.getD i 0 ∈ t.factors := getD_mem i (hlen ▸ hi)
  obtain ⟨htable, hwidth⟩ := tableAt_read h.gathered (hread _ hmem)
  have hlt : j < 2 ^ atomIds.length := by
    simp only [mem_cons, not_mem_nil, or_false] at hj
    rcases hj with rfl | rfl
    · exact hm
    · exact hk
  exact entry_eq h.acyclic hids h.pos (h.bitwise t ht _ hmem).1 (hbits t ht _ hmem)
    hwidth htable hlt

lemma ends_recoverByClasses : Ends (recoverByClasses terms atomIds w factors) fun result =>
    match result with
      | some p => HasValue ctx terms atomIds w p
      | none => ∀ c s, ¬ Fits (2 ^ atomIds.length)
          (terms.map (mintermTerm w fun f => (tableAt factors f).entry)) c s := by
  have hrefines := refines_classes factors w terms rfl
  refine ends_bind ends_any ?_
  intro _ _
  refine ends_bind ends_recoverClasses ?_
  intro recovery hexact
  cases recovery with
  | impossible =>
    apply ends_pure
    intro c s hfits
    obtain ⟨s', hs'⟩ := hrefines.fits_classes hfits
    exact hexact c s' hs'
  | product c s =>
    refine ends_bind ends_any ?_
    intro _ _
    apply ends_pure
    apply h.hasValue
    apply (hrefines.fits hexact).of_agree
    intro m hm
    exact ⟨TruthTable.entry_ofFn _ hm, TruthTable.entry_ofFn _ hm⟩

omit h

/-- The recovery is exact both ways: a product that is found has the value of the terms, and where
the answer is that there is none, no product has the coefficients of the terms. -/
theorem quadratic_recovery_exact (h : ctx.Acyclic) (terms : List PolyTerm) (maxBytes : Nat)
    (bits : SymRef → Nat → Bool)
    (hbits : ∀ t ∈ terms, ∀ f ∈ t.factors, f < ctx.nodes.length ∧
    BitwiseIn ctx atomIds w f (bits f)) :
    Ends (recoverQuadraticTerms ctx terms atomIds w maxBytes) fun result => match result with
      | some p => HasValue ctx terms atomIds w p
      | none => atomIds.Nodup → ∀ p : QuadraticProduct w atomIds.length,
          ¬ SameCoefficients bits terms p := by
  refine ends_ite (fun _ => ends_refuse) ?_
  intro hlimits
  refine ends_ite (fun _ => ends_refuse) ?_
  intro _
  have hstart : Gathered ctx w ([] : FactorTables atomIds) := fun e he => nomatch he
  refine ends_bind (ends_foldlM (fun a b ha => ends_addFactors a b ha) terms [] hstart) ?_
  intro factors ⟨hgathered, hread, _⟩
  have hreading : Reading ctx terms w factors :=
    ⟨hgathered, hread, h, fun t ht f hf => ⟨(hbits t ht f hf).1, _, (hbits t ht f hf).2⟩,
      Nat.pos_of_ne_zero (not_or.mp hlimits).1⟩
  have hclasses : Ends (recoverByClasses terms atomIds w factors) fun result => match result with
      | some p => HasValue ctx terms atomIds w p
      | none => atomIds.Nodup → ∀ p : QuadraticProduct w atomIds.length,
          ¬ SameCoefficients bits terms p := by
    intro budget result left hrun
    have hresult := ends_recoverByClasses hreading budget result left hrun
    cases result with
    | some p => exact hresult
    | none =>
      intro hids p hp
      exact hresult _ _ (hreading.fits hids (fun t ht f hf => (hbits t ht f hf).2) hp)
  split
  · refine ends_bind ends_any ?_
    intro _ _
    apply ends_pure
    apply hreading.hasValue
    intro m _ k _
    simp [entryOf, mintermTerm]
  · exact hclasses

end

def fourAtoms : SymContext where
  nodes := (List.range 4).map fun i => ⟨.var, 3, 0, 0, i⟩

def twiceTheProduct : List PolyTerm := [⟨⟨3, 3⟩, [0, 1]⟩, ⟨⟨3, 1⟩, [1, 0]⟩]

def twoProducts : List PolyTerm := [⟨⟨3, 1⟩, [0, 1]⟩, ⟨⟨3, 1⟩, [2, 3]⟩]

lemma fourAtoms_acyclic : fourAtoms.Acyclic where
  pool := by decide
  below := by decide

lemma fourAtoms_bitwise (hf : f < 4) :
    BitwiseIn fourAtoms [0, 1, 2, 3] 3 f fun k => k.testBit f := by
  have hvar : ∀ f < 4, fourAtoms.isVar f = true ∧ fourAtoms.width f = 3 ∧
      [0, 1, 2, 3][f]? = some (fourAtoms.aux f) := by decide
  obtain ⟨hvar, hwidth, hget⟩ := hvar f hf
  exact bitwiseIn_var fourAtoms_acyclic hf hvar hwidth hget

attribute [local irreducible] recoverQuadraticTerms

/-- One sum of products is a product, and another is not. -/
theorem quadratic_recovery_exact_four :
    (∃ p left, (recoverQuadraticTerms fourAtoms twiceTheProduct [0, 1, 2, 3] 3 1000000).run
      (.ofLimit 10000) =
      (some (some p), left) ∧ HasValue fourAtoms twiceTheProduct [0, 1, 2, 3] 3 p) ∧
    ∀ p : QuadraticProduct 3 4, ¬ SameCoefficients (fun f k => k.testBit f) twoProducts p := by
  have hfirst : (((recoverQuadraticTerms fourAtoms twiceTheProduct [0, 1, 2, 3] 3 1000000).run
      (.ofLimit 10000)).1.bind id).isSome = true := by decide +kernel
  have hsecond : ((recoverQuadraticTerms fourAtoms twoProducts [0, 1, 2, 3] 3 1000000).run
      (.ofLimit 10000)).1.map Option.isSome = some false := by decide +kernel
  have hbits : ∀ terms ∈ [twiceTheProduct, twoProducts], ∀ t ∈ terms, ∀ f ∈ t.factors,
      f < fourAtoms.nodes.length ∧ BitwiseIn fourAtoms [0, 1, 2, 3] 3 f fun k => k.testBit f := by
    have hsmall : ∀ terms ∈ [twiceTheProduct, twoProducts], ∀ t ∈ terms, ∀ f ∈ t.factors,
        f < 4 := by decide
    intro terms hterms t ht f hf
    have hlt := hsmall terms hterms t ht f hf
    exact ⟨hlt, fourAtoms_bitwise hlt⟩
  constructor
  · obtain ⟨p, hp⟩ := Option.isSome_iff_exists.mp hfirst
    obtain ⟨o, ho, hid⟩ := Option.bind_eq_some_iff.mp hp
    have hid : o = some p := hid
    subst hid
    refine ⟨p, _, Prod.ext ho rfl, ?_⟩
    exact quadratic_recovery_exact fourAtoms_acyclic twiceTheProduct 1000000
      (fun f k => k.testBit f) (hbits _ mem_cons_self) _ _ _ (Prod.ext ho rfl)
  · obtain ⟨o, ho, hnone⟩ := Option.map_eq_some_iff.mp hsecond
    have hid : o = none := Option.isSome_eq_false_iff.mp hnone |> Option.isNone_iff_eq_none.mp
    subst hid
    exact quadratic_recovery_exact fourAtoms_acyclic twoProducts 1000000 (fun f k => k.testBit f)
      (hbits _ (mem_cons_of_mem _ mem_cons_self)) _ _ _ (Prod.ext ho rfl) (by decide)

end NeverD.Mba
