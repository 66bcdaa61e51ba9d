import Mathlib.Algebra.BigOperators.Ring.Finset
import Mathlib.Data.BitVec
import Mathlib.Tactic.Ring

namespace NeverD.Lib.Minterms
open List

/-- The word with the bits that a function gives. -/
def tabulate (w : Nat) (f : Nat → Bool) : BitVec w :=
  BitVec.ofNat w (Nat.ofBits fun i : Fin w => f i)

@[simp] lemma getLsbD_tabulate (w : Nat) (f : Nat → Bool) (i : Nat) :
    (tabulate w f).getLsbD i = (decide (i < w) && f i) := by
  rw [tabulate, BitVec.getLsbD_ofNat]
  by_cases h : i < w
  · rw [Nat.testBit_ofBits_lt _ _ h]
  · rw [decide_eq_false h, Bool.false_and, Bool.false_and]

lemma tabulate_congr {w : Nat} {f g : Nat → Bool} (h : ∀ i < w, f i = g i) :
    tabulate w f = tabulate w g := by
  apply BitVec.eq_of_getLsbD_eq
  intro i hi
  rw [getLsbD_tabulate, getLsbD_tabulate, h i hi]

def patternOf : List Bool → Nat
  | [] => 0
  | b :: bs => b.toNat + 2 * patternOf bs

lemma testBit_patternOf (bs : List Bool) (j : Nat) :
    (patternOf bs).testBit j = bs.getD j false := by
  induction bs generalizing j with
  | nil => rw [patternOf, Nat.zero_testBit]; rfl
  | cons b bs ih =>
    cases j with
    | zero =>
      rw [patternOf, Nat.testBit_zero, getD_cons_zero]
      cases b with
      | true => simp [Nat.add_mul_mod_self_left]
      | false => simp
    | succ j =>
      rw [patternOf, Nat.testBit_succ, getD_cons_succ, ← ih]
      congr 1
      have hb : b.toNat ≤ 1 := Bool.toNat_le b
      omega

lemma patternOf_lt (bs : List Bool) : patternOf bs < 2 ^ bs.length := by
  induction bs with
  | nil => exact one_pos
  | cons b bs ih =>
    have hb : b.toNat ≤ 1 := Bool.toNat_le b
    rw [patternOf, length_cons, pow_succ]
    omega

lemma patternOf_testBit {n k : Nat} (hk : k < 2 ^ n) :
    patternOf ((List.range n).map k.testBit) = k := by
  apply Nat.eq_of_testBit_eq
  intro j
  rw [testBit_patternOf]
  by_cases hj : j < n
  · simp [List.getD, hj]
  · rw [List.getD, getElem?_eq_none (by simpa using hj), Option.getD_none]
    exact (Nat.testBit_lt_two_pow (hk.trans_le (Nat.pow_le_pow_right two_pos (not_lt.mp hj)))).symm

section

variable {w : Nat} (atoms : List (BitVec w))

def column (i : Nat) : Nat := patternOf (atoms.map fun a => a.getLsbD i)

lemma column_lt (i : Nat) : column atoms i < 2 ^ atoms.length := by
  have h := patternOf_lt (atoms.map fun a => a.getLsbD i)
  rwa [length_map] at h

def tableWord (f : Nat → Bool) : BitVec w := tabulate w fun i => f (column atoms i)

def mintermWord (m : Nat) : BitVec w := tableWord atoms fun k => k = m

def ind (w : Nat) (b : Bool) : BitVec w := if b then 1 else 0

lemma getLsbD_tableWord (f : Nat → Bool) {i : Nat} (hi : i < w) :
    (tableWord atoms f).getLsbD i = f (column atoms i) := by
  rw [tableWord, getLsbD_tabulate, decide_eq_true hi, Bool.true_and]

theorem tableWord_add {f g : Nat → Bool} (h : ∀ k, f k = true → g k = false) :
    tableWord atoms f + tableWord atoms g = tableWord atoms fun k => f k || g k := by
  rw [BitVec.add_eq_or_of_and_eq_zero]
  · apply BitVec.eq_of_getLsbD_eq
    intro i hi
    rw [BitVec.getLsbD_or, getLsbD_tableWord _ _ hi, getLsbD_tableWord _ _ hi,
      getLsbD_tableWord _ _ hi]
  · apply BitVec.eq_of_getLsbD_eq
    intro i hi
    rw [BitVec.getLsbD_and, getLsbD_tableWord _ _ hi, getLsbD_tableWord _ _ hi, BitVec.getLsbD_zero]
    cases hf : f (column atoms i) with
    | true => rw [h _ hf, Bool.and_false]
    | false => rw [Bool.false_and]

lemma tableWord_false : tableWord atoms (fun _ => false) = 0 := by
  apply BitVec.eq_of_getLsbD_eq
  intro i hi
  rw [getLsbD_tableWord _ _ hi]
  exact (BitVec.getLsbD_zero).symm

lemma tableWord_eq_sum (f : Nat → Bool) :
    tableWord atoms f = ∑ m ∈ Finset.range (2 ^ atoms.length),
      ind w (f m) * mintermWord atoms m := by
  have hbelow : ∀ n, tableWord atoms (fun k => decide (k < n) && f k) =
      ∑ m ∈ Finset.range n, ind w (f m) * mintermWord atoms m := by
    intro n
    induction n with
    | zero =>
      rw [Finset.range_zero, Finset.sum_empty, ← tableWord_false atoms]
      congr 1
    | succ n ih =>
      rw [Finset.sum_range_succ, ← ih]
      cases hf : f n with
      | false =>
        rw [ind, if_neg Bool.false_ne_true, zero_mul, add_zero]
        congr 1
        funext k
        by_cases hk : k = n
        · rw [hk, hf, Bool.and_false, Bool.and_false]
        · congr 1
          rw [decide_eq_decide]
          omega
      | true =>
        rw [ind, if_pos rfl, one_mul, mintermWord, tableWord_add]
        · congr 1
          funext k
          by_cases hk : k = n
          · rw [hk, hf]
            simp
          · rw [decide_eq_false hk, Bool.or_false]
            congr 1
            rw [decide_eq_decide]
            omega
        · intro k hk
          rw [Bool.and_eq_true, decide_eq_true_eq] at hk
          exact decide_eq_false (by omega)
  rw [← hbelow]
  apply tabulate_congr
  intro i _
  show _ = (decide (column atoms i < 2 ^ atoms.length) && f (column atoms i))
  rw [decide_eq_true (column_lt atoms i), Bool.true_and]

end

variable {R : Type} [CommRing R]

def paired (a : Nat → Nat → R) (m k : Nat) : R := a m k + if m = k then 0 else a k m

lemma paired_comm (a : Nat → Nat → R) (m k : Nat) : paired a m k = paired a k m := by
  unfold paired
  by_cases h : m = k
  · rw [h]
  · rw [if_neg h, if_neg (Ne.symm h), add_comm]

lemma form_congr {a b : Nat → Nat → R} (n : Nat) (h : ∀ m < n, ∀ k < n, paired a m k = paired b m k)
    (x : Nat → R) : ∑ m ∈ Finset.range n, ∑ k ∈ Finset.range n, a m k * (x m * x k) =
      ∑ m ∈ Finset.range n, ∑ k ∈ Finset.range n, b m k * (x m * x k) := by
  -- The last row and the last column of a form, put together.
  have hsplit : ∀ (c : Nat → Nat → R) (n : Nat),
      ∑ m ∈ Finset.range (n + 1), ∑ k ∈ Finset.range (n + 1), c m k * (x m * x k) =
        ∑ m ∈ Finset.range n, ∑ k ∈ Finset.range n, c m k * (x m * x k) +
          (∑ m ∈ Finset.range n, paired c m n * (x m * x n) + paired c n n * (x n * x n)) := by
    intro c n
    have hrow : ∀ m ∈ Finset.range n, paired c m n * (x m * x n) = c m n * (x m * x n) + c n m *
        (x n * x m) := by
      intro m hm
      have hne : m ≠ n := (Finset.mem_range.mp hm).ne
      rw [paired, if_neg hne]
      ring
    have hlast : paired c n n = c n n := by rw [paired, if_pos rfl, add_zero]
    rw [Finset.sum_range_succ, Finset.sum_range_succ (fun k => c n k * (x n * x k)),
      Finset.sum_congr rfl hrow, Finset.sum_add_distrib, hlast]
    have hcols : ∑ m ∈ Finset.range n, ∑ k ∈ Finset.range (n + 1), c m k * (x m * x k) =
        ∑ m ∈ Finset.range n, ∑ k ∈ Finset.range n, c m k * (x m * x k) +
          ∑ m ∈ Finset.range n, c m n * (x m * x n) := by
      rw [← Finset.sum_add_distrib]
      apply Finset.sum_congr rfl
      intro m _
      rw [Finset.sum_range_succ]
    rw [hcols]
    ring
  induction n with
  | zero => rfl
  | succ n ih =>
    rw [hsplit, hsplit, ih fun m hm k hk => h m (Nat.lt_succ_of_lt hm) k (Nat.lt_succ_of_lt hk),
      h n (Nat.lt_succ_self n) n (Nat.lt_succ_self n)]
    congr 2
    apply Finset.sum_congr rfl
    intro m hm
    rw [h m (Nat.lt_succ_of_lt (Finset.mem_range.mp hm)) n (Nat.lt_succ_self n)]

end NeverD.Lib.Minterms
