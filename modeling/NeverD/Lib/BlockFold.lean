import Mathlib.Data.List.Basic

namespace NeverD.Lib.BlockFold
open List Nat

variable {σ α : Type*} (step : σ → List α → σ) (n : Nat)

def foldBlocks : Nat → σ → List α → σ
  | 0, s, _ => s
  | k + 1, s, xs => foldBlocks k (step s (xs.take n)) (xs.drop n)

def absorbed (s : σ) (xs : List α) : σ := foldBlocks step n (xs.length / n) s xs

def rest (xs : List α) : List α := xs.drop (xs.length / n * n)

variable {step n} {s : σ} {xs ys : List α}

lemma foldBlocks_add (i j : Nat) (s : σ) (xs : List α) :
    foldBlocks step n (i + j) s xs = foldBlocks step n j (foldBlocks step n i s xs)
      (xs.drop (i * n)) := by
  induction i generalizing s xs with
  | zero => rw [Nat.zero_add, Nat.zero_mul, drop_zero, foldBlocks]
  | succ i ih =>
    rw [succ_add, foldBlocks, foldBlocks, ih, drop_drop]
    congr 2
    rw [succ_mul, Nat.add_comm]

lemma foldBlocks_append {k : Nat} (h : k * n ≤ xs.length) (s : σ) (ys : List α) :
    foldBlocks step n k s (xs ++ ys) = foldBlocks step n k s xs := by
  induction k generalizing s xs with
  | zero => rfl
  | succ k ih =>
    rw [succ_mul] at h
    have hfirst : n ≤ xs.length := by omega
    rw [foldBlocks, foldBlocks, take_append_of_le_length hfirst, drop_append_of_le_length hfirst]
    apply ih
    rw [length_drop]
    omega

lemma length_rest (xs : List α) : (rest n xs).length = xs.length % n := by
  rw [rest, length_drop, mod_eq_sub_mul_div, Nat.mul_comm]

lemma absorbed_short (h : xs.length < n) : absorbed step n s xs = s := by
  rw [absorbed, div_eq_of_lt h, foldBlocks]

lemma rest_short (h : xs.length < n) : rest n xs = xs := by
  rw [rest, div_eq_of_lt h, Nat.zero_mul, drop_zero]

/-- The blocks of two parts: the ones of the first part, and then the ones of what it leaves and the
second part. -/
theorem blocks_append (hn : 0 < n) (xs ys : List α) :
    (xs ++ ys).length / n = xs.length / n + (rest n xs ++ ys).length / n := by
  rw [length_append, length_append, length_rest]
  have hsplit : xs.length + ys.length = n * (xs.length / n) + (xs.length % n + ys.length) := by
    have := div_add_mod xs.length n
    omega
  rw [hsplit, mul_add_div hn]

lemma whole_le (xs : List α) : xs.length / n * n ≤ xs.length := div_mul_le_self _ _

lemma absorbed_append (hn : 0 < n) (s : σ) (xs ys : List α) :
    absorbed step n s (xs ++ ys) = absorbed step n (absorbed step n s xs) (rest n xs ++ ys) := by
  rw [absorbed, absorbed, absorbed, blocks_append hn, foldBlocks_add,
    foldBlocks_append (whole_le xs), drop_append_of_le_length (whole_le xs), rest]

lemma rest_append (hn : 0 < n) (xs ys : List α) : rest n (xs ++ ys) = rest n (rest n xs ++ ys) := by
  rw [rest, blocks_append hn, Nat.add_mul, ← drop_drop, drop_append_of_le_length (whole_le xs)]
  rfl

lemma absorbed_block (h : xs.length = n) (hn : 0 < n) (s : σ) :
    absorbed step n s xs = step s xs := by
  rw [absorbed, h, Nat.div_self hn, foldBlocks, foldBlocks, take_of_length_le (Nat.le_of_eq h)]

lemma rest_block (h : xs.length = n) (hn : 0 < n) : rest n xs = [] := by
  rw [rest, h, Nat.div_self hn, Nat.one_mul]
  exact drop_of_length_le (Nat.le_of_eq h)

end NeverD.Lib.BlockFold
