import Mathlib.Data.List.Dedup
import Mathlib.Data.Nat.ModEq
import NeverD.Lib.Words

namespace NeverD.Lib.Words
open List
open Nat (mod_eq_of_lt eq_of_testBit_eq testBit_and testBit_or testBit_xor)

variable {x w : Nat}

lemma add_eq_or {y : Nat} (h : x &&& y = 0) : x + y = x ||| y := by
  have hlt : ∀ n : Nat, n ≤ x + y → n < 2 ^ (x + y + 1) := fun n hn =>
    lt_of_le_of_lt hn ((Nat.lt_two_pow_self).trans
      (Nat.pow_lt_pow_right one_lt_two (Nat.lt_succ_self _)))
  have hx := hlt x (Nat.le_add_right ..)
  have hy := hlt y (Nat.le_add_left ..)
  have hbv :=
    BitVec.add_eq_or_of_and_eq_zero (BitVec.ofNat (x + y + 1) x) (BitVec.ofNat (x + y + 1) y) (by
    apply BitVec.eq_of_toNat_eq
    rw [BitVec.toNat_and, BitVec.toNat_ofNat, BitVec.toNat_ofNat, mod_eq_of_lt hx, mod_eq_of_lt hy,
      h]
    simp)
  have hnat := congrArg BitVec.toNat hbv
  rwa [BitVec.toNat_add, BitVec.toNat_or, BitVec.toNat_ofNat, BitVec.toNat_ofNat, mod_eq_of_lt hx,
    mod_eq_of_lt hy, mod_eq_of_lt (hlt (x + y) le_rfl)] at hnat

lemma orAll_congr {xs ys : List Nat} (h : ∀ x, x ∈ xs ↔ x ∈ ys) : orAll xs = orAll ys := by
  apply eq_of_testBit_eq
  intro i
  rw [testBit_orAll, testBit_orAll, Bool.eq_iff_iff, any_eq_true, any_eq_true]
  simp only [h]

lemma andAll_congr {xs ys : List Nat} (h : ∀ x, x ∈ xs ↔ x ∈ ys) : andAll w xs = andAll w ys := by
  apply eq_of_testBit_eq
  intro i
  rw [testBit_andAll, testBit_andAll]
  congr 1
  rw [Bool.eq_iff_iff, all_eq_true, all_eq_true]
  simp only [h]

lemma addAll_append (w : Nat) (xs ys : List Nat) :
    addAll w (xs ++ ys) = (addAll w xs + addAll w ys) % 2 ^ w := by
  rw [addAll, addAll, addAll, sum_append, ← Nat.add_mod]

lemma mulAll_append (w : Nat) (xs ys : List Nat) :
    mulAll w (xs ++ ys) = mulAll w xs * mulAll w ys % 2 ^ w := by
  rw [mulAll, mulAll, mulAll, prod_append, ← Nat.mul_mod]

lemma addAll_cons (w x : Nat) (xs : List Nat) : addAll w (x :: xs) = (x + addAll w xs) % 2 ^ w := by
  rw [addAll, addAll, sum_cons, Nat.add_mod_mod]

lemma mulAll_cons (w x : Nat) (xs : List Nat) : mulAll w (x :: xs) = x * mulAll w xs % 2 ^ w := by
  rw [mulAll, mulAll, prod_cons, Nat.mul_mod_mod]

lemma and_or_distrib (x a b : Nat) : x &&& (a ||| b) = (x &&& a) ||| (x &&& b) := by
  apply eq_of_testBit_eq
  intro i
  rw [testBit_and, testBit_or, testBit_or, testBit_and, testBit_and, Bool.and_or_distrib_left]

lemma and_add_and {a b : Nat} (h : a &&& b = 0) (x : Nat) :
    (x &&& a) + (x &&& b) = x &&& (a ||| b) := by
  rw [and_or_distrib]
  apply add_eq_or
  apply eq_of_testBit_eq
  intro i
  have hi := congrArg (fun n => n.testBit i) h
  simp only [testBit_and, Nat.zero_testBit] at hi ⊢
  cases x.testBit i with
  | true => simpa using hi
  | false => simp

lemma and_ones_mod {k : Nat} : x &&& ones k = x % 2 ^ k := by
  rw [ones, Nat.and_two_pow_sub_one_eq_mod]

theorem and_mod_of_covers {c k : Nat} (h : c &&& ones k = ones k) (x : Nat) :
    (c &&& x) % 2 ^ k = x % 2 ^ k := by
  rw [← and_ones_mod, ← and_ones_mod, Nat.and_comm c, Nat.and_assoc, h]

lemma notOf_notOf (h : x < 2 ^ w) : notOf w (notOf w x) = x := by
  unfold notOf ones
  omega

lemma notOf_xor (h : x < 2 ^ w) : notOf w x ^^^ x = ones w := by
  apply eq_of_testBit_eq
  intro i
  rw [testBit_xor, testBit_notOf h, testBit_ones]
  by_cases hi : i < w
  · simp [hi]
  · simp [hi, testBit_of_lt h (not_lt.mp hi)]

lemma ones_xor (h : x < 2 ^ w) : ones w ^^^ x = notOf w x := by
  rw [← notOf_xor h, Nat.xor_assoc, Nat.xor_self, Nat.xor_zero]

variable (hx : x < 2 ^ w)
include hx

lemma notOf_or {c : Nat} (hc : c < 2 ^ w) : notOf w (c ||| notOf w x) = x &&& notOf w c := by
  apply eq_of_testBit_eq
  intro i
  rw [testBit_notOf (Nat.or_lt_two_pow hc (notOf_lt ..)), testBit_or, testBit_and, testBit_notOf hx,
    testBit_notOf hc]
  by_cases hi : i < w
  · simp [hi, Bool.and_comm]
  · simp [hi]

lemma notOf_and {c : Nat} (hc : c < 2 ^ w) : notOf w (c &&& notOf w x) = x ||| notOf w c := by
  apply eq_of_testBit_eq
  intro i
  rw [testBit_notOf (lt_of_le_of_lt Nat.and_le_left hc), testBit_and, testBit_or, testBit_notOf hx,
    testBit_notOf hc]
  by_cases hi : i < w
  · simp [hi, Bool.or_comm]
  · simp [hi, testBit_of_lt hx (not_lt.mp hi)]

theorem notOf_unique {d : Nat} (hd : d < 2 ^ w) (h : d + x ≡ ones w [MOD 2 ^ w]) :
    notOf w x = d := by
  have hsum : notOf w x + x = ones w := by
    unfold notOf ones
    omega
  rw [← hsum] at h
  have heq : d ≡ notOf w x [MOD 2 ^ w] := Nat.ModEq.add_right_cancel' x h
  rw [Nat.ModEq, mod_eq_of_lt hd, mod_eq_of_lt (notOf_lt ..)] at heq
  exact heq.symm

lemma xor_and_self {m : Nat} (hm : m < 2 ^ w) : x ^^^ (x &&& m) = x &&& notOf w m := by
  apply eq_of_testBit_eq
  intro i
  rw [testBit_xor, testBit_and, testBit_and, testBit_notOf hm]
  by_cases hi : i < w
  · cases x.testBit i <;> simp [hi]
  · simp [testBit_of_lt hx (not_lt.mp hi)]

omit hx

theorem or_xor_or {k l : Nat} (hk : k < 2 ^ w) (hl : l < 2 ^ w) (hx : x < 2 ^ w) :
    (k ||| x) ^^^ (l ||| x) = notOf w x &&& (k ^^^ l) := by
  apply eq_of_testBit_eq
  intro i
  rw [testBit_xor, testBit_or, testBit_or, testBit_and, testBit_xor, testBit_notOf hx]
  by_cases hi : i < w
  · cases x.testBit i <;> simp [hi]
  · have hi' := not_lt.mp hi
    simp [hi, testBit_of_lt hx hi', testBit_of_lt hk hi', testBit_of_lt hl hi']

lemma testBit_shl (w x n i : Nat) :
    (x * 2 ^ n % 2 ^ w).testBit i = (decide (i < w) && (decide (n ≤ i) && x.testBit (i - n))) := by
  rw [Nat.testBit_mod_two_pow, Nat.testBit_mul_two_pow]

end NeverD.Lib.Words
