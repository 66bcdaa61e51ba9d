import Mathlib.Algebra.BigOperators.Group.List.Basic
import Mathlib.Data.Nat.ModEq
import Mathlib.Order.Bounds.Basic

namespace NeverD.Lib.Residues
open List Nat

def Agrees (p : Nat → Bool) (k x : Nat) : Prop := ∀ i < k, x.testBit i = p i

instance (p : Nat → Bool) (k x : Nat) : Decidable (Agrees p k x) := Nat.decidableBallLT k _

lemma agrees_succ {p : Nat → Bool} {k x : Nat} : Agrees p (k + 1) x ↔ Agrees p k x ∧
    x.testBit k = p k := by
  constructor
  · intro h
    exact ⟨fun i hi => h i (lt_succ_of_lt hi), h k (lt_succ_self k)⟩
  · intro ⟨h, hk⟩ i hi
    rcases Nat.lt_succ_iff_lt_or_eq.mp hi with hi | rfl
    · exact h i hi
    · exact hk

lemma Agrees.mod_eq {k x y : Nat} (h : Agrees y.testBit k x) : x % 2 ^ k = y % 2 ^ k := by
  apply eq_of_testBit_eq
  intro i
  rw [testBit_mod_two_pow, testBit_mod_two_pow]
  by_cases hi : i < k
  · rw [h i hi]
  · rw [decide_eq_false hi, Bool.false_and, Bool.false_and]

/-- How many numbers agree with the path, counted once for every prefix of `1` to `w` bits. -/
def matched (p : Nat → Bool) (w : Nat) (xs : List Nat) : Nat :=
  ((List.range w).map fun k => xs.countP fun x => Agrees p (k + 1) x).sum

lemma matched_nil (p : Nat → Bool) (w : Nat) : matched p w [] = 0 := by
  apply sum_eq_zero
  intro n hn
  obtain ⟨k, -, rfl⟩ := mem_map.mp hn
  rfl

lemma matched_cons (p : Nat → Bool) (w x : Nat) (xs : List Nat) :
    matched p w (x :: xs) = (List.range w).countP (fun k => Agrees p (k + 1) x) +
      matched p w xs := by
  unfold matched
  induction List.range w with
  | nil => rfl
  | cons k ks ih =>
    rw [map_cons, sum_cons, ih, map_cons, sum_cons, countP_cons, countP_cons]
    omega

/-- The powers of two that divide a number, counted up to a bound. -/
theorem two_pow_count_dvd (x w : Nat) :
    2 ^ (List.range w).countP (fun k => 2 ^ (k + 1) ∣ x) ∣ x := by
  induction w with
  | zero => exact one_dvd x
  | succ w ih =>
    by_cases h : 2 ^ (w + 1) ∣ x
    · refine Dvd.dvd.trans (pow_dvd_pow 2 ?_) h
      exact (countP_le_length).trans (length_range).le
    · rw [range_succ, countP_append, countP_singleton, decide_eq_false h]
      exact ih

theorem Agrees.dvd {w k x b y : Nat} (hb : (y + b) % 2 ^ w = 0) (hk : k ≤ w)
    (h : Agrees y.testBit k x) : 2 ^ k ∣ (b + x) % 2 ^ w := by
  have hdvd : 2 ^ k ∣ 2 ^ w := pow_dvd_pow 2 hk
  have hx : x ≡ y [MOD 2 ^ k] := h.mod_eq
  have hzero : 2 ^ k ∣ b + x := by
    apply dvd_of_mod_eq_zero
    have hsum : (b + x) % 2 ^ k = (b + y) % 2 ^ k := hx.add_left b
    rw [hsum, add_comm b y]
    exact mod_eq_zero_of_dvd (hdvd.trans (dvd_of_mod_eq_zero hb))
  exact (dvd_mod_iff hdvd).mpr hzero

/-- The product of the sums with `b` has a zero for every match with the negation of `b`. -/
theorem two_pow_matched_dvd {w b y : Nat} (hb : (y + b) % 2 ^ w = 0) (xs : List Nat) :
    2 ^ matched y.testBit w xs ∣ (xs.map fun x => (b + x) % 2 ^ w).prod := by
  induction xs with
  | nil => rw [matched_nil]; exact one_dvd _
  | cons x xs ih =>
    rw [matched_cons, pow_add, map_cons, prod_cons]
    apply Nat.mul_dvd_mul _ ih
    refine Dvd.dvd.trans (pow_dvd_pow 2 ?_) (two_pow_count_dvd ((b + x) % 2 ^ w) w)
    apply countP_mono_left
    intro k hk hagrees
    apply decide_eq_true
    exact (of_decide_eq_true hagrees).dvd hb (mem_range.mp hk)

def branch (bit : Nat) (v : Bool) (xs : List Nat) : List Nat := xs.filter fun x => x.testBit bit = v

/-- The matches along a path, from the bit on, of numbers that agree with it so far. -/
def along (p : Nat → Bool) : Nat → Nat → List Nat → Nat
  | 0, _, _ => 0
  | n + 1, bit, xs => (branch bit (p bit) xs).length + along p n (bit + 1) (branch bit (p bit) xs)

def least : Nat → Nat → List Nat → Nat
  | 0, _, _ => 0
  | n + 1, bit, xs =>
    min ((branch bit false xs).length + least n (bit + 1) (branch bit false xs))
      ((branch bit true xs).length + least n (bit + 1) (branch bit true xs))

lemma least_nil (n bit : Nat) : least n bit [] = 0 := by
  induction n generalizing bit with
  | zero => rfl
  | succ n ih =>
    show min (0 + least n (bit + 1) []) (0 + least n (bit + 1) []) = 0
    rw [ih, Nat.min_self]

variable (p : Nat → Bool)
include p

/-- A step along a path only keeps the numbers that agree with it for one more bit. -/
theorem branch_agrees (bit : Nat) (xs : List Nat) :
    branch bit (p bit) (xs.filter fun x => Agrees p bit x) = xs.filter fun x =>
      Agrees p (bit + 1) x := by
  rw [branch, filter_filter]
  apply filter_congr
  intro x _
  rw [← Bool.decide_and, decide_eq_decide, agrees_succ]
  exact and_comm

lemma along_eq (n bit : Nat) (xs : List Nat) : along p n bit (xs.filter fun x => Agrees p bit x) =
      ((List.range' bit n).map fun k => xs.countP fun x => Agrees p (k + 1) x).sum := by
  induction n generalizing bit with
  | zero => rfl
  | succ n ih =>
    rw [along, branch_agrees, ih, range'_succ, map_cons, sum_cons, countP_eq_length_filter]

lemma along_matched (w : Nat) (xs : List Nat) : along p w 0 xs = matched p w xs := by
  have h := along_eq p w 0 xs
  have hall : xs.filter (fun x => Agrees p 0 x) = xs := by
    apply filter_eq_self.mpr
    intro x _
    exact decide_eq_true fun i hi => absurd hi (Nat.not_lt_zero i)
  rwa [hall, ← range_eq_range'] at h

lemma least_le_along (n bit : Nat) (xs : List Nat) : least n bit xs ≤ along p n bit xs := by
  induction n generalizing bit xs with
  | zero => exact le_rfl
  | succ n ih =>
    have hstep := ih (bit + 1) (branch bit (p bit) xs)
    rw [least, along]
    cases hp : p bit with
    | false => rw [hp] at hstep; omega
    | true => rw [hp] at hstep; omega

omit p

lemma along_congr {p q : Nat → Bool} (n : Nat) {bit : Nat} (h : ∀ i, bit ≤ i → p i = q i)
    (xs : List Nat) : along p n bit xs = along q n bit xs := by
  induction n generalizing bit xs with
  | zero => rfl
  | succ n ih =>
    rw [along, along, h bit le_rfl]
    congr 1
    exact ih (fun i hi => h i (le_of_succ_le hi)) _

lemma exists_along_eq_least (n bit : Nat) (xs : List Nat) :
    ∃ p, along p n bit xs = least n bit xs := by
  induction n generalizing bit xs with
  | zero => exact ⟨fun _ => false, rfl⟩
  | succ n ih =>
    -- The path takes the value at this bit, and then the best path of that branch.
    have hvia : ∀ v, ∃ p, along p (n + 1) bit xs =
        (branch bit v xs).length + least n (bit + 1) (branch bit v xs) := by
      intro v
      obtain ⟨p, hp⟩ := ih (bit + 1) (branch bit v xs)
      refine ⟨fun i => if i = bit then v else p i, ?_⟩
      have hlater : ∀ i, bit + 1 ≤ i → (if i = bit then v else p i) = p i := by
        intro i hi
        rw [if_neg (by omega)]
      rw [along, if_pos rfl, along_congr n hlater, hp]
    rw [least]
    rcases Nat.le_total ((branch bit false xs).length + least n (bit + 1) (branch bit false xs))
      ((branch bit true xs).length + least n (bit + 1) (branch bit true xs)) with hle | hle
    · rw [min_eq_left hle]
      exact hvia false
    · rw [min_eq_right hle]
      exact hvia true

lemma least_isLeast (w ceiling : Nat) (xs : List Nat) :
    IsLeast (Set.range fun p => min ceiling (matched p w xs)) (min ceiling (least w 0 xs)) := by
  constructor
  · obtain ⟨p, hp⟩ := exists_along_eq_least w 0 xs
    refine ⟨p, ?_⟩
    show min ceiling (matched p w xs) = _
    rw [← along_matched, hp]
  · rintro _ ⟨p, rfl⟩
    show _ ≤ min ceiling (matched p w xs)
    rw [← along_matched]
    exact min_le_min le_rfl (least_le_along p w 0 xs)

end NeverD.Lib.Residues
