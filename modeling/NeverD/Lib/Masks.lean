import Mathlib.Data.List.TakeWhile
import Mathlib.Data.Nat.Size
import NeverD.Lib.Words

namespace NeverD.Lib.APInt
open List Nat Bool

open Words

def isOne (a : APInt) : Bool := a.toNat = 1

/-- A run of ones from the lowest bit on, and nothing else. -/
def isMask (a : APInt) : Bool := a.toNat ≠ 0 ∧ a.toNat + 1 = 2 ^ Nat.log2 (a.toNat + 1)

def isMaskOf (a : APInt) (n : Nat) : Bool := a.toNat = ones n

def logBase2 (a : APInt) : Nat := Nat.log2 a.toNat

def isPowerOf2 (a : APInt) : Bool := a.toNat ≠ 0 ∧ a.toNat = 2 ^ a.logBase2

def countrZero (a : APInt) : Nat := ((List.range a.width).find? a.toNat.testBit).getD a.width

def getActiveBits (a : APInt) : Nat := a.toNat.size

def isIntN (a : APInt) (n : Nat) : Bool := a.getActiveBits ≤ n

def isSignedIntN (a : APInt) (n : Nat) : Bool :=
  -2 ^ (n - 1) ≤ Words.toInt a.width a.toNat ∧ Words.toInt a.width a.toNat < 2 ^ (n - 1)

def countLeadingOnes (a : APInt) : Nat :=
  ((List.range a.width).takeWhile fun i => a.toNat.testBit (a.width - 1 - i)).length

def lowBitsSet (w n : Nat) : APInt := ofNat w (ones n)

def neg (a : APInt) : APInt := ofNat a.width (2 ^ a.width - a.toNat)

def sub (a b : APInt) : APInt := ofNat a.width (a.toNat + (2 ^ a.width - b.toNat))

variable {a : APInt}

lemma toNat_of_isPowerOf2 (h : a.isPowerOf2 = true) : a.toNat = 2 ^ a.logBase2 := by
  simp only [isPowerOf2, decide_eq_true_eq] at h
  exact h.2

lemma logBase2_lt (h : a.isPowerOf2 = true) : a.logBase2 < a.width := by
  have hlt := a.toNat_lt
  rw [toNat_of_isPowerOf2 h] at hlt
  exact (Nat.pow_lt_pow_iff_right one_lt_two).mp hlt

lemma toNat_of_isMask (h : a.isMask = true) : ∃ k, 0 < k ∧ k ≤ a.width ∧ a.toNat = ones k := by
  simp only [isMask, decide_eq_true_eq] at h
  obtain ⟨h0, h1⟩ := h
  have hlt := a.toNat_lt
  refine ⟨Nat.log2 (a.toNat + 1), ?_, ?_, ?_⟩
  · rcases Nat.eq_zero_or_pos (Nat.log2 (a.toNat + 1)) with h | h
    · rw [h] at h1
      omega
    · exact h
  · rw [← Nat.pow_le_pow_iff_right one_lt_two, ← h1]
    exact hlt
  · rw [ones, ← h1, Nat.add_sub_cancel]

lemma countrZero_of_isPowerOf2 (h : a.isPowerOf2 = true) : a.countrZero = a.logBase2 := by
  have hk := logBase2_lt h
  have hfind : (List.range a.width).find? a.toNat.testBit = some a.logBase2 := by
    rw [find?_range_eq_some]
    refine ⟨?_, mem_range.mpr hk, ?_⟩
    · rw [toNat_of_isPowerOf2 h, testBit_two_pow_self]
    · intro j hj
      rw [toNat_of_isPowerOf2 h, testBit_two_pow_of_ne (ne_of_gt hj)]
      rfl
  rw [countrZero, hfind]
  rfl

lemma countrZero_le (a : APInt) : a.countrZero ≤ a.width := by
  unfold countrZero
  cases hfind : (List.range a.width).find? a.toNat.testBit with
  | none => exact le_rfl
  | some i => exact (mem_range.mp (mem_of_find?_eq_some hfind)).le

lemma two_pow_countrZero_dvd (a : APInt) : 2 ^ a.countrZero ∣ a.toNat := by
  apply dvd_of_mod_eq_zero
  apply eq_of_testBit_eq
  intro i
  rw [testBit_mod_two_pow, zero_testBit]
  by_cases hi : i < a.countrZero
  · rw [and_eq_false_iff]
    right
    unfold countrZero at hi
    cases hfind : (List.range a.width).find? a.toNat.testBit with
    | none =>
      rw [hfind] at hi
      exact eq_false_of_not_eq_true (find?_eq_none.mp hfind i (mem_range.mpr hi))
    | some j =>
      rw [hfind] at hi
      have hbelow := (find?_range_eq_some.mp hfind).2.2 i hi
      rwa [not_eq_true'] at hbelow
  · rw [decide_eq_false hi, Bool.false_and]

lemma toNat_lt_of_activeBits {n : Nat} (h : a.getActiveBits ≤ n) : a.toNat < 2 ^ n :=
  size_le.mp h

lemma testBit_of_countLeadingOnes {n : Nat} (h : n ≤ a.countLeadingOnes) {i : Nat}
    (hi : i < a.width) (hn : a.width - n ≤ i) : a.toNat.testBit i = true := by
  have hlen : a.width - 1 - i < a.countLeadingOnes := by omega
  have hmem := getElem_mem hlen
  have hpre :=
    takeWhile_prefix (l := List.range a.width) (fun i => a.toNat.testBit (a.width - 1 - i))
  have hget := hpre.getElem hlen
  have hp := mem_takeWhile_imp hmem
  rw [hget, getElem_range] at hp
  rwa [show a.width - 1 - (a.width - 1 - i) = i by omega] at hp

end NeverD.Lib.APInt
