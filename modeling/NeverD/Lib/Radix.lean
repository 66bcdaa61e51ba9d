import Mathlib.Data.Nat.Digits.Lemmas
import Mathlib.Data.List.TakeWhile

namespace NeverD.Lib.Radix
open List

open Nat (digits ofDigits)

/-- The digits of what is carried out of a number. -/
def pushDigits (b : Nat) : Nat → Nat → List Nat
  | 0, _ => []
  | fuel + 1, acc => if acc = 0 then [] else acc % b :: pushDigits b fuel (acc / b)

/-- Multiply the digits by `a` and add the carry, lowest digit first. -/
def carry (a b : Nat) : List Nat → Nat → List Nat
  | [], acc => pushDigits b acc acc
  | d :: ds, acc => (acc + d * a) % b :: carry a b ds ((acc + d * a) / b)

section

variable {a b : Nat}

lemma pushDigits_eq (hb : 1 < b) {fuel acc : Nat} (h : acc ≤ fuel) :
    pushDigits b fuel acc = digits b acc := by
  induction fuel generalizing acc with
  | zero => rw [Nat.le_zero.mp h, pushDigits, Nat.digits_zero]
  | succ fuel ih =>
    rw [pushDigits]
    by_cases hacc : acc = 0
    · rw [if_pos hacc, hacc, Nat.digits_zero]
    · have hlt : acc / b < acc := Nat.div_lt_self (Nat.pos_of_ne_zero hacc) hb
      rw [if_neg hacc, Nat.digits_def' hb (Nat.pos_of_ne_zero hacc), ih (by omega)]

lemma carry_digits (ha : 0 < a) (hb : 1 < b) (v acc : Nat) :
    carry a b (digits b v) acc = digits b (acc + v * a) := by
  induction v using Nat.strong_induction_on generalizing acc with
  | _ v ih =>
    by_cases hv : v = 0
    · rw [hv, Nat.digits_zero, carry, pushDigits_eq hb (Nat.le_refl acc), zero_mul, add_zero]
    · have hpos := Nat.pos_of_ne_zero hv
      have hsum : acc + v * a = acc + v % b * a + b * (v / b * a) := by
        calc acc + v * a = acc + (v % b + b * (v / b)) * a := by rw [Nat.mod_add_div]
          _ = acc + v % b * a + b * (v / b * a) := by ring
      have hne : 0 < acc + v * a := Nat.add_pos_right acc (Nat.mul_pos hpos ha)
      rw [Nat.digits_def' hb hpos, carry, ih (v / b) (Nat.div_lt_self hpos hb),
        Nat.digits_def' hb hne, hsum,
        Nat.add_mul_mod_self_left, Nat.add_mul_div_left _ _ (Nat.zero_lt_of_lt hb)]

lemma foldl_carry (ha : 0 < a) (hb : 1 < b) (xs : List Nat) :
    xs.foldl (carry a b) [] = digits b (ofDigits a xs.reverse) := by
  have hfold : ∀ (xs : List Nat) (v : Nat),
      xs.foldl (carry a b) (digits b v) = digits b (xs.foldl (fun v x => x + v * a) v) := by
    intro xs
    induction xs with
    | nil => exact fun _ => rfl
    | cons x xs ih =>
      intro v
      rw [foldl_cons, foldl_cons, carry_digits ha hb, ih]
  have hnumber : ∀ xs : List Nat, xs.foldl (fun v x => x + v * a) 0 = ofDigits a xs.reverse := by
    intro xs
    rw [Nat.ofDigits_eq_foldr, foldr_reverse]
    congr 1
    funext v x
    rw [Nat.cast_id, mul_comm]
  rw [← hnumber, ← hfold, Nat.digits_zero]

end

section

variable {a b : Nat}

lemma carry_lt (hb : 1 < b) (ds : List Nat) (acc : Nat) : ∀ d ∈ carry a b ds acc, d < b := by
  have hpush : ∀ fuel acc, ∀ d ∈ pushDigits b fuel acc, d < b := by
    intro fuel
    induction fuel with
    | zero => exact fun _ _ hd => nomatch hd
    | succ fuel ih =>
      intro acc d hd
      rw [pushDigits] at hd
      split at hd
      · cases hd
      · rcases mem_cons.mp hd with rfl | hd
        · exact Nat.mod_lt _ (Nat.zero_lt_of_lt hb)
        · exact ih _ d hd
  induction ds generalizing acc with
  | nil => exact hpush acc acc
  | cons d ds ih =>
    intro e he
    rw [carry] at he
    rcases mem_cons.mp he with rfl | he
    · exact Nat.mod_lt _ (Nat.zero_lt_of_lt hb)
    · exact ih _ e he

theorem carry_bound {acc d : Nat} (hacc : acc < a) (hd : d < b) :
    acc + d * a < b * a ∧ (acc + d * a) / b < a := by
  have hle : (d + 1) * a ≤ b * a := Nat.mul_le_mul_right a hd
  rw [Nat.succ_mul] at hle
  have hlt : acc + d * a < b * a := by omega
  exact ⟨hlt, Nat.div_lt_of_lt_mul hlt⟩

end

def convert (a b : Nat) (xs : List Nat) : List Nat :=
  xs.takeWhile (· = 0) ++ (digits b (ofDigits a (xs.dropWhile (· = 0)).reverse)).reverse

variable {a b : Nat} {xs : List Nat}

lemma dropWhile_head (xs : List Nat) : ∀ x ∈ (xs.dropWhile (· = 0)).head?, x ≠ 0 := by
  intro x hx
  have := head?_dropWhile_not (fun y : Nat => decide (y = 0)) xs
  rw [Option.mem_def.mp hx] at this
  exact of_decide_eq_false this

lemma split_zeros {zs ds : List Nat} (hz : ∀ z ∈ zs, z = 0) (hd : ∀ x ∈ ds.head?, x ≠ 0) :
    (zs ++ ds).takeWhile (· = 0) = zs ∧ (zs ++ ds).dropWhile (· = 0) = ds := by
  have hall : ∀ z ∈ zs, decide (z = 0) = true := fun z hmem => decide_eq_true (hz z hmem)
  rw [takeWhile_append_of_pos hall, dropWhile_append_of_pos hall]
  cases ds with
  | nil => exact ⟨append_nil zs, rfl⟩
  | cons x ds =>
    have hx := hd x rfl
    rw [takeWhile_cons_of_neg (by simpa using hx), dropWhile_cons_of_neg (by simpa using hx)]
    exact ⟨append_nil zs, rfl⟩

lemma digits_head (b n : Nat) : ∀ x ∈ (digits b n).reverse.head?, x ≠ 0 := by
  intro x hx
  rw [head?_reverse] at hx
  by_cases hn : n = 0
  · rw [hn, Nat.digits_zero] at hx
    exact nomatch hx
  · rw [getLast?_eq_some_getLast (Nat.digits_ne_nil_iff_ne_zero.mpr hn)] at hx
    exact Option.some.inj hx ▸ Nat.getLast_digit_ne_zero b hn

lemma takeWhile_zero (xs : List Nat) : ∀ z ∈ xs.takeWhile (· = 0), z = 0 := by
  intro z hz
  simpa using mem_takeWhile_imp hz

lemma convert_convert (ha : 1 < a) (hxs : ∀ x ∈ xs, x < a) : convert b a (convert a b xs) = xs := by
  obtain ⟨hzeros, hrest⟩ := split_zeros (takeWhile_zero xs)
    (digits_head b (ofDigits a (xs.dropWhile (· = 0)).reverse))
  have hdigits : digits a (ofDigits a (xs.dropWhile (· = 0)).reverse) =
      (xs.dropWhile (· = 0)).reverse := by
    apply Nat.digits_ofDigits a ha
    · intro x hx
      exact hxs x ((dropWhile_sublist _).subset (mem_reverse.mp hx))
    · intro hne
      rw [getLast_reverse]
      exact dropWhile_head xs _ (head_mem_head? _)
  rw [convert, convert, hzeros, hrest, reverse_reverse, Nat.ofDigits_digits, hdigits,
    reverse_reverse, takeWhile_append_dropWhile]

lemma convert_lt (hb : 1 < b) : ∀ x ∈ convert a b xs, x < b := by
  intro x hx
  rcases mem_append.mp hx with hx | hx
  · rw [takeWhile_zero xs x hx]
    exact Nat.zero_lt_of_lt hb
  · exact Nat.digits_lt_base hb (mem_reverse.mp hx)

end NeverD.Lib.Radix
