import Mathlib.Algebra.BigOperators.Ring.List
import Mathlib.Data.List.Sort
import Mathlib.Data.Int.ModEq
import Mathlib.Tactic.LinearCombination
import NeverD.Sym.Build

namespace NeverD.Sym
open Lib
open Words List
open Option (map_eq_some_iff bind_eq_some_iff)

variable {r : SymRef} {e : Nat} {ts : List Nat}

def kSymExprCompareMaxNodes : Nat := 32

def kSymExprCompareMaxEdges : Nat := 64

def kSymExprCompareMaxTerms : Nat := 8

def sortRefs (rs : List SymRef) : List SymRef := rs.insertionSort (· ≤ ·)

/-- A product of references with a literal coefficient. -/
structure SignTerm where
  factors : List SymRef
  coefficient : APInt

namespace SignMatcher

def chargeEdges (edges count : Nat) : Option Nat :=
  if kSymExprCompareMaxEdges - edges < count then none else some (edges + count)

variable (ctx : SymContext)

def splitLiterals : List SymRef → APInt → List SymRef × APInt
  | [], c => ([], c)
  | f :: fs, c =>
    if ctx.isConst f then splitLiterals fs (c.mul (ctx.constValue f))
    else
      let rest := splitLiterals fs c
      (f :: rest.1, rest.2)

def splitFactors (r : SymRef) (c : APInt) (edges : Nat) : Option (SignTerm × Nat) :=
  if ctx.isConst r then some (⟨[], c.mul (ctx.constValue r)⟩, edges)
  else if ctx.op r = .mul then
    let ops := ctx.operands r
    if kSymExprCompareMaxTerms < ops.length then none
    else (chargeEdges edges ops.length).map fun e =>
      (⟨(splitLiterals ctx ops c).1, (splitLiterals ctx ops c).2⟩, e)
  else some (⟨[r], c⟩, edges)

def push (form : List SignTerm) (t : SignTerm) (edges : Nat) : Option (List SignTerm × Nat) :=
  if (form ++ [t]).length ≤ kSymExprCompareMaxTerms then some (form ++ [t], edges) else none

def addTerm (w : Nat) (form : List SignTerm) (r : SymRef) (edges : Nat) :
    Option (List SignTerm × Nat) :=
  (splitFactors ctx r (APInt.ofNat w 1) edges).bind fun t => push form t.1 t.2

def addTerms (w : Nat) : List SymRef → List SignTerm → Nat → Option (List SignTerm × Nat)
  | [], form, edges => some (form, edges)
  | t :: ts, form, edges => (addTerm ctx w form t edges).bind fun p => addTerms w ts p.1 p.2

def addSum (w : Nat) (form : List SignTerm) (r : SymRef) (edges : Nat) :
    Option (List SignTerm × Nat) :=
  if ctx.op r ≠ .add then addTerm ctx w form r edges
  else
    let ops := ctx.operands r
    if kSymExprCompareMaxTerms < ops.length then none
    else (chargeEdges edges ops.length).bind fun e => addTerms ctx w ops form e

/-- `addTerm` with a negation, which may expose the sum that was negated before. -/
def addNegated (w : Nat) (form : List SignTerm) (r : SymRef) (edges : Nat) :
    Option (List SignTerm × Nat) :=
  (splitFactors ctx r (APInt.ofNat w 1).neg edges).bind fun t =>
    if t.1.coefficient.isOne ∧ t.1.factors.length = 1 ∧ ctx.op (t.1.factors.getD 0 0) = .add then
      addSum ctx w form (t.1.factors.getD 0 0) t.2
    else push form t.1 t.2

def coefficientOf (key : List SymRef) (form : List SignTerm) : Nat :=
  ((form.filter fun t => t.factors = key).map fun t => t.coefficient.toNat).sum

def isDifference (w : Nat) (d x minusY : List SignTerm) : Bool :=
  ((d ++ x ++ minusY).map SignTerm.factors).all fun key =>
    coefficientOf key d % 2 ^ w = (coefficientOf key x + coefficientOf key minusY) % 2 ^ w

structure Network where
  nodes : List SymRef := []
  leaves : List SymRef := []
  edges : Nat := 0

/-- Walk down the bitwise operators. -/
def collectNodes (w : Nat) : Nat → List SymRef → Network → Option Network
  | _, [], net => some net
  | 0, _ :: _, _ => none
  | fuel + 1, r :: work, net =>
    if r ∈ net.nodes then collectNodes w fuel work net
    else if net.nodes.length = kSymExprCompareMaxNodes ∨ ctx.width r ≠ w then none
    else
      let net := { net with nodes := net.nodes ++ [r] }
      if ctx.isConst r then collectNodes w fuel work net
      else if ¬ isBitwise (ctx.op r) then
        if net.leaves.length = 3 then none
        else collectNodes w fuel work { net with leaves := net.leaves ++ [r] }
      else
        (chargeEdges net.edges (ctx.numOperands r)).bind fun e =>
          collectNodes w fuel ((ctx.operands r).reverse ++ work) { net with edges := e }

def collect (w : Nat) (roots : List SymRef) : Option Network :=
  (collectNodes ctx w (roots.length + kSymExprCompareMaxEdges + 1) roots.reverse {}).bind fun net =>
    if net.leaves.length ≠ 3 ∨ ¬ net.leaves.any fun r => ctx.op r = .add then none
    else some { net with nodes := sortRefs net.nodes, leaves := sortRefs net.leaves }

/-- Truth tables over the signs of the three leaves, as eight bits. -/
def combineTables (op : SymOp) (value table : Nat) : Nat :=
  match op with
  | .and => value &&& table
  | .or => value ||| table
  | .xor => value ^^^ table
  | _ => 255 - table

def tableOf (leaves : List SymRef) (tables : List (SymRef × Nat)) (r : SymRef) : Option Nat :=
  if r = leaves.getD 0 0 then some 0xaa
  else if r = leaves.getD 1 0 then some 0xcc
  else if r = leaves.getD 2 0 then some 0xf0
  else if ctx.isConst r then some (if (ctx.constValue r).isNegative then 255 else 0)
  else ((ctx.operands r).mapM fun c => tables.lookup c).map fun ts =>
    ts.foldl (combineTables (ctx.op r)) (if ctx.op r = .and then 255 else 0)

def tablesOf (leaves : List SymRef) : List SymRef → List (SymRef × Nat) →
    Option (List (SymRef × Nat))
  | [], tables => some tables
  | r :: rs, tables =>
    (tableOf ctx leaves tables r).bind fun t => tablesOf leaves rs ((r, t) :: tables)

def rootTable (op : SymOp) (constant : Bool) (tables : List Nat) : Nat :=
  tables.foldl (fun value t => match op with
    | .and => value &&& t
    | .or => value ||| t
    | _ => value ^^^ t) (if constant then 255 else 0)

def popcount (t : Nat) : Nat := (List.range 8).countP t.testBit

def permuted (base x y d : Nat) : Nat :=
  orAll ((List.range 8).map fun i =>
    bit (base.testBit (bit (i.testBit 0) * 2 ^ x + bit (i.testBit 1) * 2 ^ y + bit (i.testBit 2) *
      2 ^ d)) * 2 ^ i)

structure Match where
  x : SymRef
  y : SymRef
  signed : Bool := false
  inverted : Bool := false

/-- The difference is tried from the last leaf down. -/
def orientations : List (Nat × Nat × Nat) :=
  [(2, 0, 1), (2, 1, 0), (1, 0, 2), (1, 2, 0), (0, 1, 2), (0, 2, 1)]

def isSigned (table : Nat) : Bool := table = 0xb2 ∨ table = 0x4d

def isOrdering (table : Nat) : Bool := table = 0xb2 ∨ table = 0x4d ∨ table = 0xd4 ∨ table = 0x2b

def formsOf (w : Nat) : List SymRef → Nat → Option (List (List SignTerm × List SignTerm))
  | [], _ => some []
  | r :: rs, edges =>
    (addSum ctx w [] r edges).bind fun sum =>
      (addNegated ctx w [] r sum.2).bind fun negation =>
        (formsOf w rs negation.2).map fun rest => (sum.1, negation.1) :: rest

def matchNetwork (w : Nat) (roots : List SymRef) (rootOp : SymOp) (constant : Bool) :
    Option Match :=
  (collect ctx w roots).bind fun net =>
    (tablesOf ctx net.leaves net.nodes []).bind fun tables =>
      (roots.mapM fun r => tables.lookup r).bind fun rootTables =>
        let base := rootTable rootOp constant rootTables
        if popcount base ≠ 4 then none
        else
          let leaf := fun i => net.leaves.getD i 0
          let candidates := orientations.filter fun o =>
            ctx.op (leaf o.1) = .add ∧ isOrdering (permuted base o.2.1 o.2.2 o.1)
          if candidates.isEmpty then none
          else (formsOf ctx w net.leaves net.edges).bind fun forms =>
            let form := fun i => forms.getD i ([], [])
            (candidates.find? fun o =>
              isDifference w (form o.1).1 (form o.2.1).1 (form o.2.2).2).map fun o =>
              let table := permuted base o.2.1 o.2.2 o.1
              { x := leaf o.2.1, y := leaf o.2.2, signed := isSigned table
                inverted := table = 0x4d ∨ table = 0x2b }

end SignMatcher

section

lemma sum_filter_split {κ : Type} (q : κ → Bool) (f : κ → ℤ) (xs : List κ) :
    (xs.map f).sum = ((xs.filter q).map f).sum + ((xs.filter fun x => !q x).map f).sum := by
  induction xs with
  | nil => rfl
  | cons x xs ih =>
    rw [map_cons, sum_cons, ih]
    cases hq : q x with
    | true => simp [hq, add_assoc]
    | false =>
      simp only [filter_cons, hq, Bool.not_false, if_true, Bool.false_eq_true, if_false, map_cons,
        sum_cons]
      ring

theorem dvd_sum_of_keys {κ : Type} [DecidableEq κ] (P : κ → ℤ) (m : ℤ) (xs : List (κ × ℤ))
    (h : ∀ k, m ∣ ((xs.filter fun x => x.1 = k).map Prod.snd).sum) :
    m ∣ (xs.map fun x => x.2 * P x.1).sum := by
  induction hn : xs.length using Nat.strong_induction_on generalizing xs with
  | _ n ih =>
    cases xs with
    | nil => exact dvd_zero m
    | cons x xs =>
      rw [sum_filter_split (fun y => decide (y.1 = x.1))]
      apply dvd_add
      · have hkey : (((x :: xs).filter fun y => decide (y.1 = x.1)).map fun y => y.2 * P y.1).sum =
            (((x :: xs).filter fun y => decide (y.1 = x.1)).map Prod.snd).sum * P x.1 := by
          rw [← sum_map_mul_right]
          congr 1
          apply map_congr_left
          intro y hy
          rw [of_decide_eq_true (mem_filter.mp hy).2]
        rw [hkey]
        exact Dvd.dvd.mul_right (h x.1) _
      · refine ih _ ?_ _ ?_ rfl
        · rw [← hn, filter_cons_of_neg (by simp)]
          exact Nat.lt_succ_of_le (length_filter_le ..)
        · intro k
          rw [filter_filter]
          by_cases hk : k = x.1
          · have hnil : (x :: xs).filter (fun y => decide (y.1 = k) && !decide (y.1 = x.1)) =
                [] := by
              rw [filter_eq_nil_iff]
              intro y _
              simp [hk]
            rw [hnil]
            exact dvd_zero m
          · have hsame : (x :: xs).filter (fun y => decide (y.1 = k) && !decide (y.1 = x.1)) =
                (x :: xs).filter fun y => decide (y.1 = k) := by
              apply filter_congr
              intro y _
              by_cases hy : y.1 = k
              · simp [hy, hk]
              · simp [hy]
            rw [hsame]
            exact h k

variable (val : SymRef → Nat)

def keyNum (fs : List SymRef) : Nat := (fs.map val).prod

def formNum (form : List SignTerm) : Nat :=
  (form.map fun t => t.coefficient.toNat * keyNum val t.factors).sum

variable {val}

lemma coefficientOf_cast (key : List SymRef) (form : List SignTerm) :
    ((SignMatcher.coefficientOf key form : Nat) : ℤ) =
      (((form.map fun t => (t.factors, (t.coefficient.toNat : ℤ))).filter fun x => x.1 = key).map
        Prod.snd).sum := by
  unfold SignMatcher.coefficientOf
  induction form with
  | nil => rfl
  | cons t form ih =>
    by_cases hk : t.factors = key
    · simp [hk, ih]
    · simp [hk, ih]

lemma formNum_cast (form : List SignTerm) : ((formNum val form : Nat) : ℤ) =
    ((form.map fun t => (t.factors, (t.coefficient.toNat : ℤ))).map fun x => x.2 *
      (keyNum val x.1 : ℤ)).sum := by
  unfold formNum
  induction form with
  | nil => rfl
  | cons t form ih => simp [ih]

lemma isDifference_num (val : SymRef → Nat) {w : Nat} {d x minusY : List SignTerm}
    (h : SignMatcher.isDifference w d x minusY = true) :
    ((2 ^ w : Nat) : ℤ) ∣ (formNum val d : ℤ) - (formNum val x + formNum val minusY) := by
  let terms := fun form : List SignTerm => form.map fun t => (t.factors, (t.coefficient.toNat : ℤ))
  let negated := fun form : List SignTerm => (terms form).map fun p => (p.1, -p.2)
  have hall : ∀ k, ((2 ^ w : Nat) : ℤ) ∣
      (((terms d ++ negated x ++ negated minusY).filter fun p => p.1 = k).map Prod.snd).sum := by
    intro k
    have hneg : ∀ form, (((negated form).filter fun p => p.1 = k).map Prod.snd).sum =
        -(SignMatcher.coefficientOf k form : ℤ) := by
      intro form
      rw [coefficientOf_cast]
      show (((terms form).map _).filter _ |>.map _).sum = -(((terms form).filter _).map _).sum
      generalize terms form = ps
      induction ps with
      | nil => rfl
      | cons p ps ih =>
        by_cases hk : p.1 = k
        · simp [hk, ih]
          ring
        · simp [hk, ih]
    rw [filter_append, filter_append, map_append, map_append, sum_append, sum_append, hneg, hneg]
    have hd := coefficientOf_cast k d
    rw [show (((terms d).filter fun p => p.1 = k).map Prod.snd).sum =
      (SignMatcher.coefficientOf k d : ℤ) from hd.symm]
    by_cases hmem : k ∈ (d ++ x ++ minusY).map SignTerm.factors
    · have hk := of_decide_eq_true (all_eq_true.mp h k hmem)
      have := (Nat.modEq_iff_dvd (n := 2 ^ w)).mp (show SignMatcher.coefficientOf k x +
        SignMatcher.coefficientOf k minusY ≡ SignMatcher.coefficientOf k d [MOD 2 ^ w] from hk.symm)
      push_cast at this ⊢
      convert this using 1
      ring
    · have hz : ∀ form, (∀ t ∈ form, t ∈ d ++ x ++ minusY) →
          SignMatcher.coefficientOf k form = 0 := by
        intro form hform
        unfold SignMatcher.coefficientOf
        have hnil : form.filter (fun t => decide (t.factors = k)) = [] := by
          rw [filter_eq_nil_iff]
          intro t ht hk
          apply hmem
          rw [← of_decide_eq_true hk]
          exact mem_map_of_mem (hform t ht)
        rw [hnil]
        rfl
      rw [hz d (by intro t ht; simp [ht]), hz x (by intro t ht; simp [ht]),
        hz minusY (by intro t ht; simp [ht])]
      simp
  have hsum := dvd_sum_of_keys (fun fs => (keyNum val fs : ℤ)) _ _ hall
  have hneg : ∀ form, ((negated form).map fun p => p.2 * (keyNum val p.1 : ℤ)).sum =
      -(formNum val form : ℤ) := by
    intro form
    rw [formNum_cast]
    show (((terms form).map _).map _).sum = -((terms form).map _).sum
    generalize terms form = ps
    induction ps with
    | nil => rfl
    | cons p ps ih =>
      rw [map_cons, map_cons, sum_cons, ih, map_cons, sum_cons]
      ring
  rw [map_append, map_append, sum_append, sum_append, hneg, hneg] at hsum
  rw [show ((terms d).map fun p => p.2 * (keyNum val p.1 : ℤ)).sum = (formNum val d : ℤ) from
    (formNum_cast d).symm] at hsum
  convert hsum using 1
  ring

end

section

open SignMatcher

variable [BlockHash] {last : SymContext} {vals : List APInt} {s : SymBuilder} {w : Nat}

lemma splitLiterals_spec (h : At last vals s) (ops : List SymRef) (hops : ∀ f ∈ ops, Has s f w)
    {c : APInt} (hc : c.width = w) : (splitLiterals s.ctx ops c).2.width = w ∧
      (splitLiterals s.ctx ops c).2.toNat * keyNum (last.num vals) (splitLiterals s.ctx ops c).1 ≡
        c.toNat * (ops.map (last.num vals)).prod [MOD 2 ^ w] := by
  induction ops generalizing c with
  | nil => exact ⟨hc, .refl _⟩
  | cons f fs ih =>
    have hf := hops f (mem_cons_self ..)
    have hrest := fun g hg => hops g (mem_cons_of_mem _ hg)
    unfold splitLiterals
    split
    next hk =>
      have hkw := h.const_width hf hk
      obtain ⟨h1, h2⟩ := ih hrest (c := c.mul (s.ctx.constValue f)) hc
      refine ⟨h1, h2.trans ?_⟩
      rw [toNat_mul (hkw.trans hc.symm), hc, ← h.const_num hf hk, map_cons, prod_cons, ← mul_assoc]
      exact .mul_right _ (Nat.mod_modEq _ _)
    · obtain ⟨h1, h2⟩ := ih hrest hc
      refine ⟨h1, ?_⟩
      rw [map_cons, prod_cons]
      show _ * (last.num vals f * keyNum (last.num vals) _) ≡ _ [MOD _]
      rw [mul_left_comm, mul_left_comm c.toNat]
      exact .mul_left _ h2

def termNum (val : SymRef → Nat) (t : SignTerm) : Nat := t.coefficient.toNat * keyNum val t.factors

variable {form' form : List SignTerm} {edges : Nat}

lemma splitFactors_spec (h : At last vals s) (hr : Has s r w) {c : APInt}
    (hc : c.width = w) {t : SignTerm} (ht : splitFactors s.ctx r c edges = some (t, e)) :
    t.coefficient.width = w ∧ (∀ f ∈ t.factors, Has s f w) ∧
      termNum (last.num vals) t ≡ c.toNat * last.num vals r [MOD 2 ^ w] := by
  unfold splitFactors at ht
  unfold termNum
  split at ht
  next hk =>
    cases ht
    refine ⟨hc, forall_mem_nil _, ?_⟩
    rw [toNat_mul ((h.const_width hr hk).trans hc.symm), hc, ← h.const_num hr hk]
    show _ * 1 ≡ _ [MOD _]
    rw [mul_one]
    exact Nat.mod_modEq _ _
  · split at ht
    next hop =>
      dsimp only at ht
      split at ht
      · cases ht
      · obtain ⟨e', -, he⟩ := map_eq_some_iff.mp ht
        cases he
        have hmem := (h.nary hr (by simp [hop])).2
        obtain ⟨h1, h2⟩ := splitLiterals_spec h _ hmem hc
        refine ⟨h1, ?_, h2.trans ?_⟩
        · intro f hf
          apply hmem
          clear h1 h2 hmem ht
          generalize s.ctx.operands r = ops at hf
          induction ops generalizing c with
          | nil => exact hf
          | cons g gs ih =>
            unfold splitLiterals at hf
            split at hf
            · exact mem_cons_of_mem _ (ih (c := c.mul (s.ctx.constValue g)) hc hf)
            · rcases mem_cons.mp hf with rfl | hf
              · exact mem_cons_self ..
              · exact mem_cons_of_mem _ (ih hc hf)
        · apply Nat.ModEq.mul_left
          rw [h.mul_num hr hop, mulAll]
          exact (Nat.mod_modEq _ _).symm
    · cases ht
      refine ⟨hc, ?_, ?_⟩
      · intro f hf
        rw [mem_singleton.mp hf]
        exact hr
      · simp [keyNum, Nat.ModEq]

omit [BlockHash] in
lemma push_spec {val : SymRef → Nat} {t : SignTerm}
    (h : push form t edges = some (form', e)) :
    formNum val form' = formNum val form + termNum val t := by
  unfold push at h
  split at h
  · cases h
    simp [formNum, termNum]
  · cases h

variable (h : At last vals s)
include h

lemma addTerm_spec (hr : Has s r w) (ht : addTerm s.ctx w form r edges = some (form', e)) :
    formNum (last.num vals) form' ≡ formNum (last.num vals) form + last.num vals r [MOD 2 ^ w] := by
  obtain ⟨⟨t, e'⟩, h1, h2⟩ := bind_eq_some_iff.mp ht
  obtain ⟨-, -, h3⟩ := splitFactors_spec h hr rfl h1
  rw [push_spec h2]
  apply Nat.ModEq.add_left
  refine h3.trans ?_
  rw [APInt.ofNat_toNat, Nat.mod_eq_of_lt (Nat.one_lt_two_pow (h.pos hr).ne'), one_mul]

lemma addTerms_spec (ts : List SymRef) (hts : ∀ t ∈ ts, Has s t w)
    (ht : addTerms s.ctx w ts form edges = some (form', e)) : formNum (last.num vals) form' ≡
      formNum (last.num vals) form + (ts.map (last.num vals)).sum [MOD 2 ^ w] := by
  induction ts generalizing form edges with
  | nil =>
    cases ht
    exact .refl _
  | cons t ts ih =>
    obtain ⟨⟨f₁, e₁⟩, h1, h2⟩ := bind_eq_some_iff.mp ht
    have h3 := addTerm_spec h (hts t (mem_cons_self ..)) h1
    refine (ih (fun u hu => hts u (mem_cons_of_mem _ hu)) h2).trans ?_
    rw [map_cons, sum_cons, ← add_assoc]
    exact .add_right _ h3

lemma addSum_spec (hr : Has s r w) (ht : addSum s.ctx w form r edges = some (form', e)) :
    formNum (last.num vals) form' ≡ formNum (last.num vals) form + last.num vals r [MOD 2 ^ w] := by
  unfold addSum at ht
  split at ht
  · exact addTerm_spec h hr ht
  next hop =>
    rw [not_not] at hop
    dsimp only at ht
    split at ht
    · cases ht
    · obtain ⟨e₁, -, h2⟩ := bind_eq_some_iff.mp ht
      refine (addTerms_spec h _ (h.nary hr (by simp [hop])).2 h2).trans ?_
      apply Nat.ModEq.add_left
      rw [h.add_num hr hop, addAll]
      exact (Nat.mod_modEq _ _).symm

lemma addNegated_spec (hr : Has s r w) (ht : addNegated s.ctx w form r edges = some (form', e)) :
    formNum (last.num vals) form' + last.num vals r ≡ formNum (last.num vals) form [MOD 2 ^ w] := by
  obtain ⟨⟨t, e₁⟩, h1, h2⟩ := bind_eq_some_iff.mp ht
  have hone : 1 < 2 ^ w := Nat.one_lt_two_pow (h.pos hr).ne'
  obtain ⟨-, hfs, h3⟩ := splitFactors_spec h hr (show (APInt.ofNat w 1).neg.width = w from rfl) h1
  have hneg : (APInt.ofNat w 1).neg.toNat = 2 ^ w - 1 := by
    show (APInt.ofNat w (2 ^ w - (APInt.ofNat w 1).toNat)).toNat = _
    rw [APInt.ofNat_toNat, APInt.ofNat_toNat, Nat.mod_eq_of_lt hone]
    exact Nat.mod_eq_of_lt (Nat.sub_lt (Nat.two_pow_pos w) one_pos)
  rw [hneg] at h3
  have hcancel : termNum (last.num vals) t + last.num vals r ≡ 0 [MOD 2 ^ w] := by
    refine (Nat.ModEq.add_right _ h3).trans ?_
    have : (2 ^ w - 1) * last.num vals r + last.num vals r = 2 ^ w * last.num vals r := by
      rw [Nat.sub_mul, Nat.one_mul, Nat.sub_add_cancel]
      exact Nat.le_mul_of_pos_left _ (Nat.two_pow_pos w)
    rw [this]
    exact (Nat.modEq_zero_iff_dvd).mpr (Nat.dvd_mul_right ..)
  have hform : formNum (last.num vals) form' ≡
      formNum (last.num vals) form + termNum (last.num vals) t [MOD 2 ^ w] := by
    split at h2
    next hc =>
      obtain ⟨hc1, hlen, -⟩ := hc
      obtain ⟨f, hf⟩ := length_eq_one_iff.mp hlen
      have hhas : Has s (t.factors.getD 0 0) w := by
        rw [hf]
        exact hfs f (by rw [hf]; exact mem_cons_self ..)
      refine (addSum_spec h hhas h2).trans ?_
      apply Nat.ModEq.add_left
      have hc1' : t.coefficient.toNat = 1 := of_decide_eq_true hc1
      unfold termNum keyNum
      rw [hc1', hf]
      simp [Nat.ModEq]
    · rw [push_spec h2]
  refine (Nat.ModEq.add_right _ hform).trans ?_
  rw [add_assoc]
  exact .add_left _ hcancel

lemma formsOf_spec (leaves : List SymRef) (hl : ∀ r ∈ leaves, Has s r w)
    {forms : List (List SignTerm × List SignTerm)}
    (hf : formsOf s.ctx w leaves edges = some forms) {i : Nat} (hi : i < leaves.length) :
    formNum (last.num vals) (forms.getD i ([], [])).1 ≡ last.num vals (leaves.getD i 0)
      [MOD 2 ^ w] ∧
      formNum (last.num vals) (forms.getD i ([], [])).2 + last.num vals (leaves.getD i 0) ≡
      0 [MOD 2 ^ w] := by
  induction leaves generalizing edges forms i with
  | nil => cases hi
  | cons r rs ih =>
    obtain ⟨⟨sum, e₁⟩, h1, hf⟩ := bind_eq_some_iff.mp hf
    obtain ⟨⟨negation, e₂⟩, h2, hf⟩ := bind_eq_some_iff.mp hf
    obtain ⟨rest, h3, rfl⟩ := map_eq_some_iff.mp hf
    have hr := hl r (mem_cons_self ..)
    cases i with
    | zero =>
      refine ⟨?_, addNegated_spec h hr h2⟩
      have := addSum_spec h hr h1
      rwa [show formNum (last.num vals) [] = 0 from rfl, zero_add] at this
    | succ i =>
      exact ih (fun u hu => hl u (mem_cons_of_mem _ hu)) h3 (Nat.lt_of_succ_lt_succ hi)

end

section

open SignMatcher

def rowOf (a b c : Bool) : Nat := bit a + 2 * bit b + 4 * bit c

lemma mapM_forall₂ {α β : Type} {f : α → Option β} {xs : List α} {ys : List β}
    (h : xs.mapM f = some ys) : List.Forall₂ (fun x y => f x = some y) xs ys := by
  induction xs generalizing ys with
  | nil =>
    cases h
    exact List.Forall₂.nil
  | cons x xs ih =>
    rw [mapM_cons] at h
    obtain ⟨y, hy, h⟩ := bind_eq_some_iff.mp h
    obtain ⟨zs, hzs, h⟩ := bind_eq_some_iff.mp h
    cases h
    exact List.Forall₂.cons hy (ih hzs)

variable [BlockHash] {last : SymContext} {vals : List APInt} {s : SymBuilder} {w : Nat}

/-- The network's nodes are words of one width, each a leaf, a literal or bitwise. -/
structure Walked (s : SymBuilder) (w : Nat) (net : Network) : Prop where
  nodes : ∀ r ∈ net.nodes, Has s r w ∧
    (r ∈ net.leaves ∨ s.ctx.isConst r = true ∨ isBitwise (s.ctx.op r) = true)
  leaves : ∀ r ∈ net.leaves, Has s r w

lemma Walked.collectNodes {fuel : Nat} {work : List SymRef} {net net' : Network}
    (hnet : Walked s w net) (h : At last vals s) (hwork : ∀ r ∈ work, r < s.ctx.nodes.length)
    (hc : SignMatcher.collectNodes s.ctx w fuel work net = some net') : Walked s w net' := by
  induction fuel generalizing work net with
  | zero =>
    cases work with
    | nil =>
      cases hc
      exact hnet
    | cons r work => cases hc
  | succ fuel ih =>
    cases work with
    | nil =>
      cases hc
      exact hnet
    | cons r work =>
      have hr := hwork r (mem_cons_self ..)
      have hrest := fun u hu => hwork u (mem_cons_of_mem _ hu)
      unfold SignMatcher.collectNodes at hc
      split at hc
      · exact ih hnet hrest hc
      split at hc
      · cases hc
      rename_i hwidth
      rw [not_or, not_not] at hwidth
      have hhas : Has s r w := ⟨hr, hwidth.2⟩
      dsimp only at hc
      split at hc
      next hk =>
        refine ih ⟨?_, by exact hnet.leaves⟩ hrest hc
        intro u hu
        rcases mem_append.mp hu with hu | hu
        · exact hnet.nodes u hu
        · rw [mem_singleton.mp hu]
          exact ⟨hhas, .inr (.inl hk)⟩
      split at hc
      · split at hc
        · cases hc
        · refine ih ⟨?_, ?_⟩ hrest hc
          · intro u hu
            rcases mem_append.mp hu with hu | hu
            · obtain ⟨h1, h2⟩ := hnet.nodes u hu
              exact ⟨h1, h2.imp_left fun hm => mem_append_left _ hm⟩
            · rw [mem_singleton.mp hu]
              exact ⟨hhas, .inl (mem_append_right _ (mem_cons_self ..))⟩
          · intro u hu
            rcases mem_append.mp hu with hu | hu
            · exact hnet.leaves u hu
            · rw [mem_singleton.mp hu]
              exact hhas
      next hbit =>
        rw [not_not] at hbit
        obtain ⟨e, -, hc⟩ := bind_eq_some_iff.mp hc
        refine ih ⟨?_, by exact hnet.leaves⟩ ?_ hc
        · intro u hu
          rcases mem_append.mp hu with hu | hu
          · exact hnet.nodes u hu
          · rw [mem_singleton.mp hu]
            exact ⟨hhas, .inr (.inr hbit)⟩
        · intro u hu
          rcases mem_append.mp hu with hu | hu
          · exact h.typed.operand_lt hr (mem_reverse.mp hu)
          · exact hrest u hu

lemma walked_collect (h : At last vals s) {roots : List SymRef} {net : Network}
    (hroots : ∀ r ∈ roots, r < s.ctx.nodes.length) (hc : collect s.ctx w roots = some net) :
    Walked s w net ∧ net.leaves.length = 3 := by
  obtain ⟨net₀, h1, h2⟩ := bind_eq_some_iff.mp hc
  have hempty : Walked s w {} := ⟨forall_mem_nil _, forall_mem_nil _⟩
  have hw := hempty.collectNodes h (fun r hr => hroots r (mem_reverse.mp hr)) h1
  split at h2
  · cases h2
  next hlen =>
    rw [not_or, not_not] at hlen
    cases h2
    refine ⟨⟨?_, ?_⟩, ?_⟩
    · intro r hr
      obtain ⟨h3, h4⟩ := hw.nodes r ((mem_insertionSort _).mp hr)
      exact ⟨h3, h4.imp_left fun hm => (mem_insertionSort _).mpr hm⟩
    · intro r hr
      exact hw.leaves r ((mem_insertionSort _).mp hr)
    · show (sortRefs net₀.leaves).length = 3
      rw [sortRefs, length_insertionSort]
      exact hlen.1

def TablesSound (last : SymContext) (vals : List APInt) (w row : Nat)
    (tables : List (SymRef × Nat)) :
    Prop := ∀ p ∈ tables, p.2 < 2 ^ 8 ∧ p.2.testBit row = msb w (last.num vals p.1)

variable {row : Nat} {tables : List (SymRef × Nat)} {rs : List SymRef}

omit [BlockHash] in
lemma testBit_not_table {t : Nat} (ht : t < 2 ^ 8) (hrow : row < 8) :
    (255 - t).testBit row = !t.testBit row := by
  have := testBit_notOf ht row
  rw [show notOf 8 t = 255 - t from rfl, decide_eq_true hrow, Bool.true_and] at this
  exact this

omit [BlockHash] in
theorem TablesSound.lookups (ht : TablesSound last vals w row tables)
    (hf : List.Forall₂ (fun r t => tables.lookup r = some t) rs ts) :
    List.Forall₂ (fun r t => t < 2 ^ 8 ∧ t.testBit row = msb w (last.num vals r)) rs ts := by
  induction hf with
  | nil => exact List.Forall₂.nil
  | cons hrt _ ih => exact List.Forall₂.cons (ht _ (mem_of_lookup hrt)) ih

variable (hf : List.Forall₂ (fun r t => t < 2 ^ 8 ∧ t.testBit row = msb w (last.num vals r)) rs ts)
include hf

omit [BlockHash] in
lemma foldl_tables_and {acc : Nat}
    (hacc : acc < 2 ^ 8) : ts.foldl (· &&& ·) acc < 2 ^ 8 ∧ (ts.foldl (· &&& ·) acc).testBit row =
      (acc.testBit row && rs.all fun r => msb w (last.num vals r)) := by
  induction hf generalizing acc with
  | nil => simpa using hacc
  | cons hrt _ ih =>
    obtain ⟨h1, h2⟩ := ih (Nat.and_lt_two_pow acc hrt.1)
    refine ⟨h1, h2.trans ?_⟩
    rw [Nat.testBit_and, hrt.2, all_cons, Bool.and_assoc]

omit [BlockHash] in
lemma foldl_tables_or {acc : Nat}
    (hacc : acc < 2 ^ 8) : ts.foldl (· ||| ·) acc < 2 ^ 8 ∧ (ts.foldl (· ||| ·) acc).testBit row =
      (acc.testBit row || rs.any fun r => msb w (last.num vals r)) := by
  induction hf generalizing acc with
  | nil => simpa using hacc
  | cons hrt _ ih =>
    obtain ⟨h1, h2⟩ := ih (Nat.or_lt_two_pow hacc hrt.1)
    refine ⟨h1, h2.trans ?_⟩
    rw [Nat.testBit_or, hrt.2, any_cons, Bool.or_assoc]

omit [BlockHash] in
lemma foldl_tables_xor {acc : Nat}
    (hacc : acc < 2 ^ 8) : ts.foldl (· ^^^ ·) acc < 2 ^ 8 ∧ (ts.foldl (· ^^^ ·) acc).testBit row =
      (rs.map fun r => msb w (last.num vals r)).foldl Bool.xor (acc.testBit row) := by
  induction hf generalizing acc with
  | nil => simpa using hacc
  | cons hrt _ ih =>
    obtain ⟨h1, h2⟩ := ih (Nat.xor_lt_two_pow hacc hrt.1)
    refine ⟨h1, h2.trans ?_⟩
    rw [Nat.testBit_xor, hrt.2, map_cons, foldl_cons]

omit hf

omit [BlockHash] in
lemma testBit_xorAll (xs : List Nat) (i : Nat) :
    (xorAll xs).testBit i = (xs.map fun x => x.testBit i).foldl Bool.xor false := by
  have hgen : ∀ (xs : List Nat) (b : Bool), (xs.map fun x => x.testBit i).foldl Bool.xor b =
      Bool.xor b ((xorAll xs).testBit i) := by
    intro xs
    induction xs with
    | nil => intro b; simp
    | cons x xs ih =>
      intro b
      rw [map_cons, foldl_cons, ih, xorAll_cons, Nat.testBit_xor, Bool.xor_assoc]
  rw [hgen, Bool.false_xor]

omit [BlockHash] in
lemma testBit_rowOf (a b c : Bool) : Nat.testBit 0xaa (rowOf a b c) = a ∧
    Nat.testBit 0xcc (rowOf a b c) = b ∧ Nat.testBit 0xf0 (rowOf a b c) = c := by
  revert a b c
  decide

/-- The signs of the leaves select a row in which every table has its node's sign. -/
theorem tableOf_spec (h : At last vals s) {leaves : List SymRef} {t : Nat}
    (hrow : row = rowOf (msb w (last.num vals (leaves.getD 0 0)))
      (msb w (last.num vals (leaves.getD 1 0)))
      (msb w (last.num vals (leaves.getD 2 0)))) (ht : TablesSound last vals w row tables)
        (hr : Has s r w)
    (hkind : r ∈ leaves ∨ s.ctx.isConst r = true ∨ isBitwise (s.ctx.op r) = true)
    (hlen : leaves.length = 3) (htab : tableOf s.ctx leaves tables r = some t) :
    t < 2 ^ 8 ∧ t.testBit row = msb w (last.num vals r) := by
  have hw := h.pos hr
  have hrow8 : row < 8 := by
    rw [hrow]
    unfold rowOf bit
    split <;> split <;> split <;> omega
  unfold tableOf at htab
  split at htab
  next hl =>
    cases htab
    rw [hl, hrow]
    exact ⟨by decide, (testBit_rowOf ..).1⟩
  split at htab
  next hl =>
    cases htab
    rw [hl, hrow]
    exact ⟨by decide, (testBit_rowOf ..).2.1⟩
  split at htab
  next hl =>
    cases htab
    rw [hl, hrow]
    exact ⟨by decide, (testBit_rowOf ..).2.2⟩
  rename_i h0 h1 h2
  split at htab
  next hk =>
    cases htab
    rw [isNegative_eq, h.const_width hr hk, ← h.const_num hr hk]
    cases msb w (last.num vals r) with
    | true =>
      refine ⟨by decide, ?_⟩
      show (ones 8).testBit row = true
      rw [testBit_ones, decide_eq_true hrow8]
    | false => exact ⟨by decide, by simp⟩
  rename_i hnk
  have hbit : isBitwise (s.ctx.op r) = true := by
    rcases hkind with hm | hk | hb
    · exfalso
      match leaves, hlen with
      | [a, b, c], _ =>
        simp only [getD_cons_zero, getD_cons_succ] at h0 h1 h2
        rcases mem_cons.mp hm with hm | hm
        · exact h0 hm
        rcases mem_cons.mp hm with hm | hm
        · exact h1 hm
        exact h2 (mem_singleton.mp hm)
    · exact absurd hk hnk
    · exact hb
  obtain ⟨ts, hts, rfl⟩ := map_eq_some_iff.mp htab
  have hf := ht.lookups (mapM_forall₂ hts)
  simp only [isBitwise, decide_eq_true_eq] at hbit
  rcases hbit with hop | hop | hop | hop
  · rw [hop, if_pos rfl]
    obtain ⟨h3, h4⟩ := foldl_tables_and hf (show (255 : Nat) < 2 ^ 8 by decide)
    refine ⟨h3, h4.trans ?_⟩
    rw [h.and_num hr hop, msb, testBit_andAll, all_map]
    rw [show (255 : Nat) = ones 8 from rfl, testBit_ones, decide_eq_true hrow8,
      decide_eq_true (show w - 1 < w by omega)]
    rfl
  · rw [hop, if_neg (by simp)]
    obtain ⟨h3, h4⟩ := foldl_tables_or hf (show (0 : Nat) < 2 ^ 8 by decide)
    refine ⟨h3, h4.trans ?_⟩
    rw [h.or_num hr hop, msb, testBit_orAll, any_map]
    simp
    rfl
  · rw [hop, if_neg (by simp)]
    obtain ⟨h3, h4⟩ := foldl_tables_xor hf (show (0 : Nat) < 2 ^ 8 by decide)
    refine ⟨h3, h4.trans ?_⟩
    rw [h.xor_num hr hop, msb, testBit_xorAll, map_map]
    simp
    rfl
  · rw [hop, if_neg (by simp)]
    have hs := h.shape hr
    rw [hop] at hs
    obtain ⟨hops, hi⟩ := h.one hr hs
    rw [hops] at hf
    match ts, hf with
    | [t], .cons hrt .nil =>
      show 255 - t < 2 ^ 8 ∧ (255 - t).testBit row = _
      refine ⟨by omega, ?_⟩
      rw [testBit_not_table hrt.1 hrow8, hrt.2, (h.not_num hr hop).2, msb, msb,
        testBit_notOf (h.lt hi), decide_eq_true (show w - 1 < w by omega)]
      rfl

lemma tablesOf_spec (h : At last vals s) {leaves : List SymRef}
    (hrow : rowOf (msb w (last.num vals (leaves.getD 0 0)))
      (msb w (last.num vals (leaves.getD 1 0)))
      (msb w (last.num vals (leaves.getD 2 0))) = row) (hlen : leaves.length = 3)
        (nodes : List SymRef)
    (hn : ∀ r ∈ nodes, Has s r w ∧
    (r ∈ leaves ∨ s.ctx.isConst r = true ∨ isBitwise (s.ctx.op r) = true))
    {tables' : List (SymRef × Nat)} (ht : TablesSound last vals w row tables)
    (hc : tablesOf s.ctx leaves nodes tables = some tables') :
    TablesSound last vals w row tables' := by
  induction nodes generalizing tables with
  | nil =>
    cases hc
    exact ht
  | cons r rs ih =>
    obtain ⟨t, h1, h2⟩ := bind_eq_some_iff.mp hc
    obtain ⟨hr, hkind⟩ := hn r (mem_cons_self ..)
    refine ih (fun u hu => hn u (mem_cons_of_mem _ hu)) ?_ h2
    intro p hp
    rcases mem_cons.mp hp with rfl | hp
    · exact tableOf_spec h hrow.symm ht hr hkind hlen h1
    · exact ht p hp

end

open SignMatcher

lemma msb_iff {w x : Nat} (hw : 0 < w) (hx : x < 2 ^ w) : msb w x = decide (2 ^ (w - 1) ≤ x) := by
  have hpow : 2 ^ w = 2 ^ (w - 1) * 2 := by rw [← pow_succ]; congr 1; omega
  have hpos := Nat.two_pow_pos (w - 1)
  unfold msb
  rw [Nat.testBit_eq_decide_div_mod_eq]
  apply decide_eq_decide.mpr
  have hlt : x / 2 ^ (w - 1) < 2 := by rw [Nat.div_lt_iff_lt_mul hpos]; omega
  have hiff : 2 ^ (w - 1) ≤ x ↔ 1 ≤ x / 2 ^ (w - 1) := by rw [Nat.le_div_iff_mul_le hpos, one_mul]
  rw [hiff]
  generalize x / 2 ^ (w - 1) = q at hlt
  omega

theorem ult_of_signs {w x y d : Nat} (hw : 0 < w) (hx : x < 2 ^ w) (hy : y < 2 ^ w) (hd : d < 2 ^ w)
    (h : (d + y) % 2 ^ w = x) :
    (0xd4 : Nat).testBit (rowOf (msb w x) (msb w y) (msb w d)) = decide (x < y) := by
  have hpow : 2 ^ w = 2 ^ (w - 1) * 2 := by rw [← pow_succ]; congr 1; omega
  rw [msb_iff hw hx, msb_iff hw hy, msb_iff hw hd]
  have hcases : d + y = x ∨ d + y = x + 2 ^ w := by
    rcases lt_or_ge (d + y) (2 ^ w) with hlt | hge
    · rw [Nat.mod_eq_of_lt hlt] at h
      exact .inl h
    · rw [Nat.mod_eq_sub_mod hge, Nat.mod_eq_of_lt (by omega)] at h
      exact .inr (by omega)
  generalize 2 ^ (w - 1) = n at *
  by_cases h1 : n ≤ x
  · by_cases h2 : n ≤ y
    · by_cases h3 : n ≤ d
      · rw [decide_eq_true h1, decide_eq_true h2, decide_eq_true h3,
          decide_eq_true (show x < y by omega)]
        decide
      · rw [decide_eq_true h1, decide_eq_true h2, decide_eq_false h3,
          decide_eq_false (show ¬ x < y by omega)]
        decide
    · rw [decide_eq_true h1, decide_eq_false h2, decide_eq_false (show ¬ x < y by omega)]
      cases decide (n ≤ d) with
      | true => decide
      | false => decide
  · by_cases h2 : n ≤ y
    · rw [decide_eq_false h1, decide_eq_true h2, decide_eq_true (show x < y by omega)]
      cases decide (n ≤ d) with
      | true => decide
      | false => decide
    · by_cases h3 : n ≤ d
      · rw [decide_eq_false h1, decide_eq_false h2, decide_eq_true h3,
          decide_eq_true (show x < y by omega)]
        decide
      · rw [decide_eq_false h1, decide_eq_false h2, decide_eq_false h3,
          decide_eq_false (show ¬ x < y by omega)]
        decide

lemma slt_of_signs {w x y d : Nat} (hw : 0 < w) (hx : x < 2 ^ w) (hy : y < 2 ^ w) (hd : d < 2 ^ w)
    (h : (d + y) % 2 ^ w = x) :
    (0xb2 : Nat).testBit (rowOf (msb w x) (msb w y) (msb w d)) =
    decide (toInt w x < toInt w y) := by
  have hult := ult_of_signs hw hx hy hd h
  have hmx := msb_iff hw hx
  have hmy := msb_iff hw hy
  have hcast : ((2 ^ w : Nat) : Int) = 2 ^ w := by push_cast; rfl
  have hflip : decide (toInt w x < toInt w y) =
      if msb w x = msb w y then decide (x < y) else msb w x := by
    unfold toInt
    cases h1 : msb w x with
    | true =>
      rw [h1] at hmx
      cases h2 : msb w y with
      | true =>
        simp only [if_true]
        apply decide_eq_decide.mpr
        omega
      | false =>
        rw [h2] at hmy
        simp only [if_true, Bool.false_eq_true, if_false, reduceCtorEq]
        apply decide_eq_true
        omega
    | false =>
      cases h2 : msb w y with
      | true =>
        simp only [if_true, Bool.false_eq_true, if_false]
        apply decide_eq_false
        omega
      | false =>
        simp only [if_true, Bool.false_eq_true, if_false]
        apply decide_eq_decide.mpr
        omega
  rw [hflip, ← hult]
  generalize msb w x = a
  generalize msb w y = b
  generalize msb w d = c
  revert a b c
  decide

lemma testBit_permuted {base x y d row : Nat} (hrow : row < 8) : (permuted base x y d).testBit row =
      base.testBit (bit (row.testBit 0) * 2 ^ x + bit (row.testBit 1) * 2 ^ y +
        bit (row.testBit 2) * 2 ^ d) := by
  unfold permuted
  rw [testBit_orAll, any_map]
  have hbit : ∀ (b : Bool) (i : Nat), (bit b * 2 ^ i).testBit row = (b && decide (row = i)) := by
    intro b i
    cases b with
    | true =>
      show (1 * 2 ^ i).testBit row = _
      rw [one_mul, Bool.true_and]
      by_cases hi : row = i
      · rw [hi, Nat.testBit_two_pow_self, decide_eq_true rfl]
      · rw [Nat.testBit_two_pow_of_ne (Ne.symm hi), decide_eq_false hi]
    | false => simp [bit]
  rw [Bool.eq_iff_iff, any_eq_true]
  constructor
  · rintro ⟨i, -, hi⟩
    simp only [Function.comp, hbit, Bool.and_eq_true, decide_eq_true_eq] at hi
    rw [hi.2]
    exact hi.1
  · intro hb
    refine ⟨row, mem_range.mpr hrow, ?_⟩
    simp only [Function.comp, hbit, Bool.and_eq_true, decide_eq_true_eq, and_true]
    exact hb

lemma rowOf_bits (a b c : Bool) : rowOf a b c < 8 ∧ (rowOf a b c).testBit 0 = a ∧
    (rowOf a b c).testBit 1 = b ∧ (rowOf a b c).testBit 2 = c := by
  revert a b c
  decide

def rootSign (op : SymOp) (constant : Bool) (signs : List Bool) : Bool :=
  signs.foldl (fun value b => match op with
    | .and => value && b
    | .or => value || b
    | _ => Bool.xor value b) constant

variable [BlockHash] {last : SymContext} {vals : List APInt} {s : SymBuilder} {w : Nat}

omit [BlockHash] in
lemma rootTable_spec (op : SymOp) (constant : Bool) {row : Nat} (hrow : row < 8) {rs : List SymRef}
    (hf : List.Forall₂ (fun r t => t < 2 ^ 8 ∧ t.testBit row = msb w (last.num vals r)) rs ts) :
    (rootTable op constant ts).testBit row =
    rootSign op constant (rs.map fun r => msb w (last.num vals r)) := by
  unfold rootTable rootSign
  have hinit : (if constant then 255 else 0 : Nat).testBit row = constant := by
    cases constant with
    | true =>
      show (ones 8).testBit row = true
      rw [testBit_ones, decide_eq_true hrow]
    | false => exact Nat.zero_testBit row
  generalize (if constant then 255 else 0 : Nat) = acc at hinit
  induction hf generalizing acc constant with
  | nil => exact hinit
  | @cons r t rs ts hrt _ ih =>
    rw [foldl_cons, map_cons, foldl_cons]
    apply ih
    cases op with
    | and => rw [Nat.testBit_and, hinit, hrt.2]
    | or => rw [Nat.testBit_or, hinit, hrt.2]
    | _ => rw [Nat.testBit_xor, hinit, hrt.2]

def SignMatcher.Match.holds (m : Match) (w x y : Nat) : Bool :=
  Bool.xor (if m.signed then decide (toInt w x < toInt w y) else decide (x < y)) m.inverted

omit [BlockHash] in
lemma ordering_row {table : Nat} (h : table = 178 ∨ table = 77 ∨ table = 212 ∨ table = 43)
    (a b c : Bool) : table.testBit (rowOf a b c) =
      Bool.xor (if isSigned table then (0xb2 : Nat).testBit (rowOf a b c)
        else (0xd4 : Nat).testBit (rowOf a b c)) (decide (table = 77 ∨ table = 43)) := by
  rcases h with rfl | rfl | rfl | rfl
  all_goals
    revert a b c
    decide

lemma matchNetwork_spec (h : At last vals s) {roots : List SymRef} {rootOp : SymOp}
    {constant : Bool} {m : Match} (hroots : ∀ r ∈ roots, r < s.ctx.nodes.length)
    (hm : matchNetwork s.ctx w roots rootOp constant = some m) : Has s m.x w ∧ Has s m.y w ∧
      rootSign rootOp constant (roots.map fun r => msb w (last.num vals r)) =
        m.holds w (last.num vals m.x) (last.num vals m.y) := by
  obtain ⟨net, hnet, hm⟩ := bind_eq_some_iff.mp hm
  obtain ⟨hwalk, hlen⟩ := walked_collect h hroots hnet
  obtain ⟨tables, htables, hm⟩ := bind_eq_some_iff.mp hm
  obtain ⟨ts, hts, hm⟩ := bind_eq_some_iff.mp hm
  dsimp only at hm
  split at hm
  · cases hm
  split at hm
  · cases hm
  obtain ⟨forms, hforms, hm⟩ := bind_eq_some_iff.mp hm
  obtain ⟨⟨d, x, y⟩, hfind, rfl⟩ := map_eq_some_iff.mp hm
  have hcand := mem_filter.mp (mem_of_find?_eq_some hfind)
  have hdiff := find?_some hfind
  obtain ⟨horient, hcond⟩ := hcand
  have hordering := (of_decide_eq_true hcond).2
  have hleaf : ∀ i, i < 3 → Has s (net.leaves.getD i 0) w := by
    intro i hi
    apply hwalk.leaves
    rw [getD_eq_getElem _ _ (by omega)]
    exact getElem_mem _
  have hidx : x < 3 ∧ y < 3 ∧ d < 3 := by
    simp only [orientations, mem_cons, Prod.mk.injEq, not_mem_nil, or_false] at horient
    omega
  -- the row of the tables that the leaves' signs select
  generalize hsign : (fun i => msb w (last.num vals (net.leaves.getD i 0))) = sign
  have hs : ∀ i, msb w (last.num vals (net.leaves.getD i 0)) = sign i := fun i => by rw [← hsign]
  have hselect : rowOf (msb w (last.num vals (net.leaves.getD 0 0)))
      (msb w (last.num vals (net.leaves.getD 1 0)))
      (msb w (last.num vals (net.leaves.getD 2 0))) = rowOf (sign 0) (sign 1) (sign 2) := by
    rw [hs, hs, hs]
  have hrow := tablesOf_spec h hselect hlen net.nodes hwalk.nodes (forall_mem_nil _) htables
  have hroot := rootTable_spec rootOp constant (rowOf_bits ..).1 (hrow.lookups (mapM_forall₂ hts))
  rw [← hroot]
  have hperm : (rootTable rootOp constant ts).testBit (rowOf (sign 0) (sign 1) (sign 2)) =
      (permuted (rootTable rootOp constant ts) x y d).testBit
      (rowOf (sign x) (sign y) (sign d)) := by
    obtain ⟨h1, h2, h3, h4⟩ := rowOf_bits (sign x) (sign y) (sign d)
    rw [testBit_permuted h1, h2, h3, h4]
    congr 1
    simp only [orientations, mem_cons, Prod.mk.injEq, not_mem_nil, or_false] at horient
    unfold rowOf
    rcases horient with ⟨rfl, rfl, rfl⟩ | ⟨rfl, rfl, rfl⟩ | ⟨rfl, rfl, rfl⟩ | ⟨rfl, rfl, rfl⟩ |
      ⟨rfl, rfl, rfl⟩ | ⟨rfl, rfl, rfl⟩
    all_goals
      simp only [pow_zero, pow_one, show (2 : Nat) ^ 2 = 4 from rfl]
      omega
  rw [hperm]
  generalize permuted (rootTable rootOp constant ts) x y d = table at hordering
  have hx := hleaf x hidx.1
  have hy := hleaf y hidx.2.1
  have hd := hleaf d hidx.2.2
  refine ⟨hx, hy, ?_⟩
  -- the difference of the leaves, as numbers
  have hmod : (last.num vals (net.leaves.getD d 0) + last.num vals (net.leaves.getD y 0)) % 2 ^ w =
      last.num vals (net.leaves.getD x 0) := by
    have hfx :=
      (formsOf_spec h net.leaves hwalk.leaves hforms (show x < net.leaves.length by omega)).1
    have hfy :=
      (formsOf_spec h net.leaves hwalk.leaves hforms (show y < net.leaves.length by omega)).2
    have hfd :=
      (formsOf_spec h net.leaves hwalk.leaves hforms (show d < net.leaves.length by omega)).1
    have hdiv := isDifference_num (last.num vals) hdiff
    have hdx : last.num vals (net.leaves.getD d 0) + last.num vals (net.leaves.getD y 0) ≡
        last.num vals (net.leaves.getD x 0) [MOD 2 ^ w] := by
      rw [Nat.modEq_iff_dvd] at hfx hfy hfd ⊢
      push_cast at hfx hfy hfd hdiv ⊢
      obtain ⟨i, hi⟩ := hfx
      obtain ⟨j, hj⟩ := hfy
      obtain ⟨k, hk⟩ := hfd
      obtain ⟨l, hl⟩ := hdiv
      refine ⟨i + j - k - l, ?_⟩
      linear_combination hi + hj - hk - hl
    rw [Nat.ModEq, Nat.mod_eq_of_lt (h.lt hx)] at hdx
    exact hdx
  have hu := ult_of_signs (h.pos hx) (h.lt hx) (h.lt hy) (h.lt hd) hmod
  have hsl := slt_of_signs (h.pos hx) (h.lt hx) (h.lt hy) (h.lt hd) hmod
  rw [hs, hs, hs] at hu hsl
  unfold Match.holds
  rw [← hu, ← hsl]
  simp only [isOrdering, decide_eq_true_eq] at hordering
  generalize sign x = a
  generalize sign y = b
  generalize sign d = c
  exact ordering_row hordering a b c

end NeverD.Sym
