import NeverD.Lib.Minterms
import NeverD.Mba.WorkBudget

namespace NeverD.Mba
open Lib.Minterms Spends List

structure ClassTerm (w : Nat) where
  coeff : BitVec w
  left : Nat → Bool
  right : Nat → Bool

structure Split where
  left : Nat → Bool
  right : Nat → Bool

/-- What the recovery finds: no product, or the scale and the factors of one. -/
inductive Recovery (w : Nat)
  | impossible
  | product (coefficient : BitVec w) (split : Split)

abbrev Row (w : Nat) : Type := Nat → BitVec w

section

variable {w : Nat} (rows : Nat) (terms : List (ClassTerm w))

def selectedClasses (s : Nat → Bool) : List Nat := (List.range rows).filter s

def accumulate (lower : Nat) (skip : Option Nat) (coeff : BitVec w) :
    List Nat → Row w → Spends (Row w)
  | [], out => pure out
  | b :: bs, out =>
    if b < lower ∨ skip = some b then accumulate lower skip coeff bs out
    else do
      consume (wordsOf w)
      accumulate lower skip coeff bs (Function.update out b (out b + coeff))

def readFactor (taken : Bool) (lower : Nat) (skip : Option Nat) (coeff : BitVec w)
    (other : Nat → Bool) (out : Row w) : Spends (Row w) :=
  if taken then accumulate lower skip coeff (selectedClasses rows other) out else pure out

/-- A class that is in both factors meets itself once. -/
def readTerm (a lower : Nat) (out : Row w) (t : ClassTerm w) : Spends (Row w) := do
  let out ← readFactor rows (t.left a) lower none t.coeff t.right out
  readFactor rows (t.right a) lower (some a) t.coeff t.left out

def readRow (a lower : Nat) (out : Row w) : Spends (Row w) := do
  consume ((rows - lower) * wordsOf w + 2 * terms.length)
  terms.foldlM (readTerm rows a lower) fun b => if lower ≤ b then 0 else out b

def addDiagonal (out : Row w) (t : ClassTerm w) : Spends (Row w) := do
  consume ((selectedClasses rows t.left).length * (1 + wordsOf w))
  pure fun m => if m < rows ∧ t.left m ∧ t.right m then out m + t.coeff else out m

def readDiagonal : Spends (Row w) := terms.foldlM (addDiagonal rows) fun _ => 0

structure Scan (w : Nat) where
  shared : Option Nat := none
  coefficient : BitVec w := 0
  members : Nat → Bool := fun _ => false

def scanDiagonal (diagonal : Row w) : List Nat → Scan w → Option (Scan w)
  | [], scan => some scan
  | m :: ms, scan =>
    if diagonal m = 0 then scanDiagonal diagonal ms scan
    else match scan.shared with
      | none => scanDiagonal diagonal ms
          { shared := some m, coefficient := diagonal m,
            members := Function.update scan.members m true }
      | some _ =>
        if diagonal m ≠ scan.coefficient then none
        else scanDiagonal diagonal ms { scan with members := Function.update scan.members m true }

def findAnchor (diagonal rowA : Row w) (coefficient : BitVec w) : List Nat → Option Nat →
    Option (Option Nat)
  | [], anchor => some anchor
  | m :: ms, anchor =>
    if diagonal m ≠ 0 ∨ rowA m = 0 then findAnchor diagonal rowA coefficient ms anchor
    else if rowA m ≠ coefficient then none
    else findAnchor diagonal rowA coefficient ms (anchor.orElse fun _ => some m)

def findPair : List Nat → Row w → Spends (Option (Nat × Nat × BitVec w) × Row w)
  | [], rowA => pure (none, rowA)
  | a :: as, rowA => do
    let rowA ← readRow rows terms a (a + 1) rowA
    consume ((rows - a - 1) * wordsOf w)
    match (List.range' (a + 1) (rows - (a + 1))).find? fun b => rowA b ≠ 0 with
    | some b => pure (some (a, b, rowA b), rowA)
    | none => findPair as rowA

def classify (shared : Option (Row w)) (rowA rowB : Row w) (coefficient : BitVec w) :
    List Nat → Split → Option Split
  | [], split => some split
  | m :: ms, split =>
    if shared.any fun diagonal => diagonal m ≠ 0 then classify shared rowA rowB coefficient ms split
    else if (rowA m ≠ 0 ∧ rowA m ≠ coefficient) ∨ (rowB m ≠ 0 ∧ rowB m ≠ coefficient) then none
    else if shared.isSome then
      if rowA m = 0 ∧ rowB m ≠ 0 then none
      else if rowA m = 0 then classify shared rowA rowB coefficient ms split
      else if rowB m = 0 then
        classify shared rowA rowB coefficient ms { split with
            left := Function.update split.left m true }
      else classify shared rowA rowB coefficient ms { split with
          right := Function.update split.right m true }
    else if rowA m ≠ 0 ∧ rowB m ≠ 0 then none
    else classify shared rowA rowB coefficient ms
      { left := Function.update split.left m (rowB m ≠ 0),
        right := Function.update split.right m (rowA m ≠ 0) }

/-- The coefficient that the product has at a pair. -/
def expected (coefficient : BitVec w) (split : Split) (a b : Nat) : BitVec w :=
  let count := (split.left a && split.right b).toNat + if a ≠ b then
    (split.left b && split.right a).toNat else 0
  if count = 2 then coefficient <<< 1 else if count ≠ 0 then coefficient else 0

def verify (coefficient : BitVec w) (split : Split) : List Nat → Row w → Spends Bool
  | [], _ => pure true
  | a :: as, row => do
    let row ← readRow rows terms a a row
    consume ((rows - a) * wordsOf w)
    if ∀ b ∈ List.range' a (rows - a), row b = expected coefficient split a b then
      verify coefficient split as row
    else pure false

/-- The rows propose a product; the whole matrix decides. -/
def finish (coefficient : BitVec w) : Option Split → Spends (Recovery w)
  | none => pure .impossible
  | some split => do
    let ok ← verify rows terms coefficient split (List.range rows) fun _ => 0
    pure (if ok then .product coefficient split else .impossible)

def Split.empty : Split := ⟨fun _ => false, fun _ => false⟩

def recoverShared (diagonal : Row w) (scan : Scan w) (s : Nat) : Spends (Recovery w) := do
  let rowA ← readRow rows terms s 0 fun _ => 0
  consume (rows * wordsOf w)
  match findAnchor diagonal rowA scan.coefficient (List.range rows) none with
  | none => pure .impossible
  | some none => finish rows terms scan.coefficient (some ⟨scan.members, scan.members⟩)
  | some (some anchor) => do
    let rowB ← readRow rows terms anchor 0 fun _ => 0
    consume (2 * rows * wordsOf w)
    finish rows terms scan.coefficient
      (classify (some diagonal) rowA rowB scan.coefficient (List.range rows) ⟨scan.members,
        scan.members⟩)

def recoverDisjoint : Spends (Recovery w) := do
  let found ← findPair rows terms (List.range rows) fun _ => 0
  match found.1 with
  | none => pure (.product 0 Split.empty)
  | some (anchor, opposite, coefficient) => do
    let rowA ← readRow rows terms anchor 0 found.2
    let rowB ← readRow rows terms opposite 0 fun _ => 0
    consume (2 * rows * wordsOf w)
    finish rows terms coefficient
      (classify none rowA rowB coefficient (List.range rows) Split.empty)

def recoverClasses : Spends (Recovery w) := do
  let diagonal ← readDiagonal rows terms
  consume (rows * wordsOf w)
  match scanDiagonal diagonal (List.range rows) {} with
  | none => pure .impossible
  | some scan =>
    match scan.shared with
    | some s => recoverShared rows terms diagonal scan s
    | none => recoverDisjoint rows terms

end

variable {w : Nat} {rows : Nat} {terms : List (ClassTerm w)}

def productEntry (c : BitVec w) (s : Split) (a b : Nat) : BitVec w :=
  paired (fun m k => c * ind w (s.left m && s.right k)) a b

def entryOf (terms : List (ClassTerm w)) (a b : Nat) : BitVec w :=
  (terms.map fun t => productEntry t.coeff ⟨t.left, t.right⟩ a b).sum

lemma entryOf_comm (a b : Nat) : entryOf terms a b = entryOf terms b a := by
  unfold entryOf
  congr 1
  apply map_congr_left
  intro t _
  exact paired_comm _ a b

lemma ends_accumulate {lower : Nat} {skip : Option Nat} {c : BitVec w} {bs : List Nat}
    (hn : bs.Nodup) (out : Row w) :
    Ends (accumulate lower skip c bs out) fun row => ∀ b, lower ≤ b →
      row b = out b + if b ∈ bs ∧ skip ≠ some b then c else 0 := by
  induction bs generalizing out with
  | nil =>
    apply ends_pure
    intro b _
    rw [if_neg (by simp), add_zero]
  | cons x bs ih =>
    obtain ⟨hx, hbs⟩ := nodup_cons.mp hn
    apply ends_ite
    · intro hskip budget row left hrun b hb
      rw [ih hbs out budget row left hrun b hb]
      congr 1
      apply if_congr _ rfl rfl
      rw [mem_cons]
      constructor
      · intro ⟨hmem, hne⟩
        exact ⟨Or.inr hmem, hne⟩
      · intro ⟨hmem, hne⟩
        refine ⟨hmem.resolve_left ?_, hne⟩
        rintro rfl
        rcases hskip with hlow | hsome
        · omega
        · exact hne hsome
    · intro hkeep
      refine ends_bind ends_any ?_
      intro _ _ budget row left hrun b hb
      rw [ih hbs _ budget row left hrun b hb]
      rw [not_or] at hkeep
      by_cases heq : b = x
      · rw [heq, Function.update_self, if_neg (fun h => hx h.1), add_zero,
          if_pos ⟨mem_cons_self, hkeep.2⟩]
      · rw [Function.update_of_ne heq]
        congr 1
        apply if_congr _ rfl rfl
        rw [mem_cons, or_iff_right heq]

lemma ends_readFactor {taken : Bool} {lower : Nat} {skip : Option Nat} {c : BitVec w}
    {other : Nat → Bool}
    (out : Row w) : Ends (readFactor rows taken lower skip c other out) fun row => ∀ b, lower ≤ b →
      b < rows → row b = out b + if skip = some b then 0 else c * ind w (taken && other b) := by
  have hsel : ∀ b, b < rows → (b ∈ selectedClasses rows other ↔ other b = true) := by
    intro b hb
    rw [selectedClasses, mem_filter, mem_range]
    exact and_iff_right hb
  have hnodup : (selectedClasses rows other).Nodup := nodup_range.filter other
  apply ends_ite
  · intro ht budget row left hrun b hb hlt
    rw [ends_accumulate hnodup out budget row left hrun b hb, ht, Bool.true_and, ind]
    congr 1
    by_cases hskip : skip = some b
    · rw [if_pos hskip, if_neg fun h => h.2 hskip]
    · rw [if_neg hskip]
      by_cases ho : other b = true
      · rw [if_pos ⟨(hsel b hlt).mpr ho, hskip⟩, if_pos ho, mul_one]
      · rw [if_neg fun h => ho ((hsel b hlt).mp h.1), if_neg ho, mul_zero]
  · intro ht
    apply ends_pure
    intro b _ _
    rw [Bool.eq_false_of_not_eq_true ht, Bool.false_and, ind, if_neg Bool.false_ne_true, mul_zero,
      ite_self, add_zero]

lemma ends_readTerm {a lower : Nat} (out : Row w) (t : ClassTerm w) :
    Ends (readTerm rows a lower out t) fun row => ∀ b, lower ≤ b → b < rows →
      row b = out b + productEntry t.coeff ⟨t.left, t.right⟩ a b := by
  refine ends_bind (ends_readFactor out) ?_
  intro row hrow budget row' left hrun b hb hlt
  have hleft := hrow b hb hlt
  rw [if_neg (by simp)] at hleft
  rw [ends_readFactor row budget row' left hrun b hb hlt, hleft, productEntry, paired, add_assoc,
    Bool.and_comm (t.right a)]
  congr 2
  exact if_congr Option.some_inj rfl rfl

lemma ends_readRow (a lower : Nat) (out : Row w) : Ends (readRow rows terms a lower out) fun row =>
    ∀ b, lower ≤ b → b < rows → row b = entryOf terms a b := by
  refine ends_bind ends_any ?_
  intro _ _
  have hfold : ∀ (ts : List (ClassTerm w)) (out : Row w),
    Ends (ts.foldlM (readTerm rows a lower) out) fun row =>
      ∀ b, lower ≤ b → b < rows → row b = out b + entryOf ts a b := by
    intro ts
    induction ts with
    | nil =>
      intro out
      apply ends_pure
      intro b _ _
      exact (add_zero _).symm
    | cons t ts ih =>
      intro out
      rw [foldlM_cons]
      refine ends_bind (ends_readTerm out t) ?_
      intro row hrow budget row' left hrun b hb hlt
      rw [ih row budget row' left hrun b hb hlt, hrow b hb hlt, add_assoc]
      congr 1
  intro budget row left hrun b hb hlt
  rw [hfold terms _ budget row left hrun b hb hlt, if_pos hb, zero_add]

end NeverD.Mba
