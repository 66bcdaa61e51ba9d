import Mathlib.Algebra.BigOperators.Group.List.Basic
import Mathlib.Data.List.Induction
import Mathlib.Data.Nat.Bitwise
import Mathlib.Tactic.Ring
import Mathlib.Tactic.Linarith
import NeverD.Lib.APInt

namespace NeverD.Lib.Words
open List

variable {v y low : Nat}

def ones (w : Nat) : Nat := 2 ^ w - 1

def andAll (w : Nat) (xs : List Nat) : Nat := xs.foldr (· &&& ·) (ones w)

def orAll (xs : List Nat) : Nat := xs.foldr (· ||| ·) 0

def xorAll (xs : List Nat) : Nat := xs.foldr (· ^^^ ·) 0

def addAll (w : Nat) (xs : List Nat) : Nat := xs.sum % 2 ^ w

def mulAll (w : Nat) (xs : List Nat) : Nat := xs.prod % 2 ^ w

def notOf (w x : Nat) : Nat := ones w - x

def msb (w x : Nat) : Bool := x.testBit (w - 1)

def toInt (w x : Nat) : Int := if msb w x then (x : Int) - 2 ^ w else x

def ashrOf (w x n : Nat) : Nat := if msb w x then ones w - (ones w - x) / 2 ^ n else x / 2 ^ n

def sextOf (v w x : Nat) : Nat := if msb v x then x + (2 ^ w - 2 ^ v) else x

/-- Words from the most significant one down, each with its width. -/
def joinAll (xs : List (Nat × Nat)) : Nat := xs.foldl (fun acc x => acc * 2 ^ x.1 + x.2) 0

def bit (b : Bool) : Nat := if b then 1 else 0

def slice (low w x : Nat) : Nat := x / 2 ^ low % 2 ^ w

lemma ones_lt (w : Nat) : ones w < 2 ^ w := Nat.sub_lt (Nat.two_pow_pos w) one_pos

@[simp] lemma testBit_ones (w i : Nat) : (ones w).testBit i = decide (i < w) :=
  Nat.testBit_two_pow_sub_one ..

variable {w x : Nat}

lemma testBit_of_lt {i : Nat} (h : x < 2 ^ w) (hi : w ≤ i) : x.testBit i = false :=
  Nat.testBit_lt_two_pow (h.trans_le (Nat.pow_le_pow_right two_pos hi))

lemma lt_of_testBit_true {i : Nat} (h : x < 2 ^ w) (hi : x.testBit i = true) : i < w := by
  by_contra hn
  rw [testBit_of_lt h (not_lt.mp hn)] at hi
  cases hi

lemma eq_of_bits (hx : x < 2 ^ w) (hy : y < 2 ^ w) (h : ∀ i < w, x.testBit i = y.testBit i) :
    x = y := by
  apply Nat.eq_of_testBit_eq
  intro i
  by_cases hi : i < w
  · exact h i hi
  · rw [testBit_of_lt hx (not_lt.mp hi), testBit_of_lt hy (not_lt.mp hi)]

@[simp] lemma andAll_nil (w : Nat) : andAll w [] = ones w := rfl

@[simp] lemma andAll_cons (w x : Nat) (xs : List Nat) : andAll w (x :: xs) = x &&& andAll w xs :=
  rfl

@[simp] lemma orAll_nil : orAll [] = 0 := rfl

@[simp] lemma orAll_cons (x : Nat) (xs : List Nat) : orAll (x :: xs) = x ||| orAll xs := rfl

@[simp] lemma xorAll_nil : xorAll [] = 0 := rfl

@[simp] lemma xorAll_cons (x : Nat) (xs : List Nat) : xorAll (x :: xs) = x ^^^ xorAll xs := rfl

lemma testBit_andAll (w : Nat) (xs : List Nat) (i : Nat) :
    (andAll w xs).testBit i = (decide (i < w) && xs.all fun x => x.testBit i) := by
  induction xs with
  | nil => simp
  | cons x xs ih =>
    rw [andAll_cons, Nat.testBit_and, ih, all_cons]
    cases decide (i < w) <;> simp

lemma testBit_orAll (xs : List Nat) (i : Nat) :
    (orAll xs).testBit i = xs.any fun x => x.testBit i := by
  induction xs with
  | nil => simp
  | cons x xs ih => rw [orAll_cons, Nat.testBit_or, ih, any_cons]

lemma andAll_lt (w : Nat) (xs : List Nat) : andAll w xs < 2 ^ w := by
  induction xs with
  | nil => exact ones_lt w
  | cons x xs ih => exact lt_of_le_of_lt Nat.and_le_right ih

variable {xs : List Nat}

lemma orAll_lt (h : ∀ x ∈ xs, x < 2 ^ w) : orAll xs < 2 ^ w := by
  induction xs with
  | nil => exact Nat.two_pow_pos w
  | cons x xs ih =>
    exact Nat.or_lt_two_pow (h x mem_cons_self) (ih fun y hy => h y (mem_cons_of_mem _ hy))

lemma xorAll_lt (h : ∀ x ∈ xs, x < 2 ^ w) : xorAll xs < 2 ^ w := by
  induction xs with
  | nil => exact Nat.two_pow_pos w
  | cons x xs ih =>
    exact Nat.xor_lt_two_pow (h x mem_cons_self) (ih fun y hy => h y (mem_cons_of_mem _ hy))

lemma notOf_lt (w x : Nat) : notOf w x < 2 ^ w := lt_of_le_of_lt (Nat.sub_le _ _) (ones_lt w)

lemma testBit_notOf (h : x < 2 ^ w) (i : Nat) :
    (notOf w x).testBit i = (decide (i < w) && !x.testBit i) := by
  have h1 : notOf w x = 2 ^ w - (x + 1) := by
    unfold notOf ones
    omega
  rw [h1, Nat.testBit_two_pow_sub_succ h]

lemma addAll_lt (w : Nat) (xs : List Nat) : addAll w xs < 2 ^ w := Nat.mod_lt _ (Nat.two_pow_pos w)

lemma and_ones (h : x < 2 ^ w) : x &&& ones w = x := by
  rw [ones, Nat.and_two_pow_sub_one_eq_mod, Nat.mod_eq_of_lt h]

lemma andAll_append (w : Nat) (xs ys : List Nat) :
    andAll w (xs ++ ys) = andAll w xs &&& andAll w ys := by
  induction xs with
  | nil => rw [nil_append, andAll_nil, Nat.and_comm, and_ones (andAll_lt w ys)]
  | cons x xs ih => rw [cons_append, andAll_cons, ih, andAll_cons, Nat.and_assoc]

lemma orAll_append (xs ys : List Nat) : orAll (xs ++ ys) = orAll xs ||| orAll ys := by
  induction xs with
  | nil => rw [nil_append, orAll_nil, Nat.zero_or]
  | cons x xs ih => rw [cons_append, orAll_cons, ih, orAll_cons, Nat.or_assoc]

lemma xorAll_append (xs ys : List Nat) : xorAll (xs ++ ys) = xorAll xs ^^^ xorAll ys := by
  induction xs with
  | nil => rw [nil_append, xorAll_nil, Nat.zero_xor]
  | cons x xs ih => rw [cons_append, xorAll_cons, ih, xorAll_cons, Nat.xor_assoc]

variable {ys : List Nat}

variable (h : xs.Perm ys)
include h

lemma andAll_perm : andAll w xs = andAll w ys := by
  apply Nat.eq_of_testBit_eq
  intro i
  rw [testBit_andAll, testBit_andAll, h.all_eq]

lemma orAll_perm : orAll xs = orAll ys := by
  apply Nat.eq_of_testBit_eq
  intro i
  rw [testBit_orAll, testBit_orAll, h.any_eq]

lemma xorAll_perm : xorAll xs = xorAll ys := by
  induction h with
  | nil => rfl
  | cons x _ ih => rw [xorAll_cons, xorAll_cons, ih]
  | swap x y l =>
    simp only [xorAll_cons]
    rw [← Nat.xor_assoc, ← Nat.xor_assoc, Nat.xor_comm y x]
  | trans _ _ ih1 ih2 => exact ih1.trans ih2

lemma addAll_perm : addAll w xs = addAll w ys := by
  rw [addAll, addAll, h.sum_eq]

lemma mulAll_perm : mulAll w xs = mulAll w ys := by
  rw [mulAll, mulAll, h.prod_eq]

omit h

lemma joinAll_append_singleton (xs : List (Nat × Nat)) (x : Nat × Nat) :
    joinAll (xs ++ [x]) = joinAll xs * 2 ^ x.1 + x.2 := by
  rw [joinAll, foldl_append]
  rfl

lemma joinAll_append (xs ys : List (Nat × Nat)) :
    joinAll (xs ++ ys) = joinAll xs * 2 ^ (ys.map Prod.fst).sum + joinAll ys := by
  induction ys using List.reverseRecOn with
  | nil => simp [joinAll]
  | append_singleton ys y ih =>
    rw [← append_assoc, joinAll_append_singleton, ih, joinAll_append_singleton]
    simp only [map_append, map_singleton, sum_append, sum_singleton, pow_add]
    ring

lemma joinAll_lt {xs : List (Nat × Nat)} (h : ∀ x ∈ xs, x.2 < 2 ^ x.1) :
    joinAll xs < 2 ^ (xs.map Prod.fst).sum := by
  induction xs using List.reverseRecOn with
  | nil => simp [joinAll]
  | append_singleton xs x ih =>
    have h1 := ih fun y hy => h y (mem_append_left _ hy)
    have h2 := h x (mem_append_right _ mem_cons_self)
    rw [joinAll_append_singleton]
    simp only [map_append, map_singleton, sum_append, sum_singleton, pow_add]
    have h3 : (joinAll xs + 1) * 2 ^ x.1 ≤ 2 ^ (xs.map Prod.fst).sum * 2 ^ x.1 :=
      Nat.mul_le_mul_right _ h1
    rw [add_mul, one_mul] at h3
    omega

lemma slice_lt (low w x : Nat) : slice low w x < 2 ^ w := Nat.mod_lt _ (Nat.two_pow_pos w)

lemma testBit_slice (low w x i : Nat) :
    (slice low w x).testBit i = (decide (i < w) && x.testBit (low + i)) := by
  rw [slice, Nat.testBit_mod_two_pow, Nat.testBit_div_two_pow, add_comm]

lemma slice_eq_iff (hy : y < 2 ^ w) : slice low w x = y ↔
    ∀ i < w, x.testBit (low + i) = y.testBit i := by
  constructor
  · intro h i hi
    rw [← h, testBit_slice]
    simp [hi]
  · intro h
    apply eq_of_bits (slice_lt ..) hy
    intro i hi
    rw [testBit_slice, h i hi]
    simp [hi]

lemma slice_notOf (hx : x < 2 ^ v) (h : low + w ≤ v) :
    slice low w (notOf v x) = notOf w (slice low w x) := by
  rw [slice_eq_iff (notOf_lt ..)]
  intro i hi
  rw [testBit_notOf hx, testBit_notOf (slice_lt ..), testBit_slice]
  simp [hi]
  omega

lemma slice_slice {low' : Nat} (h : low + w ≤ v) :
    slice low w (slice low' v x) = slice (low' + low) w x := by
  rw [slice_eq_iff (slice_lt ..)]
  intro i hi
  rw [testBit_slice, testBit_slice, show low' + (low + i) = low' + low + i by omega]
  simp [hi]
  omega

lemma slice_zero : slice 0 w x = x % 2 ^ w := by
  rw [slice, pow_zero, Nat.div_one]

lemma slice_self (h : x < 2 ^ w) : slice 0 w x = x := by
  rw [slice_zero, Nat.mod_eq_of_lt h]

lemma slice_join_low (h : low + w ≤ v) (hy : y < 2 ^ v) :
    slice low w (x * 2 ^ v + y) = slice low w y := by
  rw [slice_eq_iff (slice_lt ..)]
  intro i hi
  rw [testBit_slice, mul_comm, Nat.testBit_two_pow_mul_add x hy, if_pos (by omega)]
  simp [hi]

lemma slice_join_high (h : v ≤ low) (hy : y < 2 ^ v) :
    slice low w (x * 2 ^ v + y) = slice (low - v) w x := by
  rw [slice_eq_iff (slice_lt ..)]
  intro i hi
  rw [testBit_slice, mul_comm, Nat.testBit_two_pow_mul_add x hy, if_neg (by omega),
    show low + i - v = low - v + i by omega]
  simp [hi]

lemma testBit_sextOf (hx : x < 2 ^ v) (hw : v ≤ w) (i : Nat) :
    (sextOf v w x).testBit i = if i < v then x.testBit i else decide (i < w) && msb v x := by
  have hpow : 2 ^ w - 2 ^ v = 2 ^ v * ones (w - v) := by
    rw [ones, Nat.mul_sub, ← Nat.pow_add, Nat.mul_one]
    congr 2
    omega
  unfold sextOf
  cases hm : msb v x with
  | true =>
    rw [if_pos rfl, add_comm, hpow, Nat.testBit_two_pow_mul_add _ hx, testBit_ones]
    split
    · rfl
    · simp
      omega
  | false =>
    rw [if_neg (by simp)]
    split
    · rfl
    next hi =>
      rw [testBit_of_lt hx (not_lt.mp hi)]
      simp

lemma testBit_ashrOf {n : Nat} (hx : x < 2 ^ w) {i : Nat} (hi : i < w) :
    (ashrOf w x n).testBit i = if i + n < w then x.testBit (i + n) else msb w x := by
  unfold ashrOf
  cases hm : msb w x with
  | true =>
    rw [if_pos rfl]
    have hlt : notOf w x / 2 ^ n < 2 ^ w :=
      lt_of_le_of_lt (Nat.div_le_self _ _) (notOf_lt w x)
    show (notOf w (notOf w x / 2 ^ n)).testBit i = _
    rw [testBit_notOf hlt, Nat.testBit_div_two_pow, testBit_notOf hx, decide_eq_true hi,
      Bool.true_and]
    split
    next h => rw [decide_eq_true h, Bool.true_and, Bool.not_not]
    next h =>
      rw [decide_eq_false h]
      rfl
  | false =>
    rw [if_neg (by simp), Nat.testBit_div_two_pow]
    split
    · rfl
    next h => rw [testBit_of_lt hx (not_lt.mp h)]

lemma sextOf_lt (hx : x < 2 ^ v) (hw : v ≤ w) : sextOf v w x < 2 ^ w := by
  have hle := Nat.pow_le_pow_right (two_pos) hw
  unfold sextOf
  split
  · omega
  · omega

lemma ashrOf_lt (hx : x < 2 ^ w) (n : Nat) : ashrOf w x n < 2 ^ w := by
  unfold ashrOf
  split
  · exact notOf_lt ..
  · exact lt_of_le_of_lt (Nat.div_le_self _ _) hx

lemma le_of_bits (h : ∀ i, x.testBit i = true → y.testBit i = true) : x ≤ y := by
  have hand : x &&& y = x := by
    apply Nat.eq_of_testBit_eq
    intro i
    rw [Nat.testBit_and]
    cases hx : x.testBit i with
    | false => rfl
    | true => rw [h i hx]; rfl
  rw [← hand]
  exact Nat.and_le_right

end NeverD.Lib.Words
