import Mathlib.Tactic.Ring
import NeverD.Sbf.Execute

namespace NeverD.Sbf

theorem high_of_halves {a b c d : Nat} (ha : a < 2 ^ 32) (hb : b < 2 ^ 32) (hc : c < 2 ^ 32)
    (hd : d < 2 ^ 32) :
    b * d < 2 ^ 64 ∧ a * d + b * d / 2 ^ 32 < 2 ^ 64 ∧
    (a * d + b * d / 2 ^ 32) % 2 ^ 32 + b * c < 2 ^ 64 ∧
    a * c + (a * d + b * d / 2 ^ 32) / 2 ^ 32 + ((a * d + b * d / 2 ^ 32) % 2 ^ 32 + b * c)
    / 2 ^ 32 < 2 ^ 64 ∧
    a * c + (a * d + b * d / 2 ^ 32) / 2 ^ 32 + ((a * d + b * d / 2 ^ 32) % 2 ^ 32 + b * c)
      / 2 ^ 32 = (2 ^ 32 * a + b) * (2 ^ 32 * c + d) / 2 ^ 64 := by
  have hlt : ∀ {x y : Nat}, x < 2 ^ 32 → y < 2 ^ 32 → x * y ≤ (2 ^ 32 - 1) * (2 ^ 32 - 1) :=
    fun hx hy =>
    Nat.mul_le_mul (by omega) (by omega)
  have had := hlt ha hd
  have hac := hlt ha hc
  have hbc := hlt hb hc
  have hbd := hlt hb hd
  have hproduct : (2 ^ 32 * a + b) * (2 ^ 32 * c + d) = a * c * 2 ^ 64 + (a * d + b * c) * 2 ^ 32 +
      b * d := by grind
  rw [hproduct]
  generalize a * d = ad at *
  generalize a * c = ac at *
  generalize b * c = bc at *
  generalize b * d = bd at *
  omega

lemma unsignedHighMultiply64_toNat (left right : Word) :
    (unsignedHighMultiply64 left right).toNat = left.toNat * right.toNat / 2 ^ 64 := by
  have hl := left.isLt
  have hr := right.isLt
  obtain ⟨hlow, hcross, hmiddle, hsum, hhigh⟩ :=
    high_of_halves (a := left.toNat / 2 ^ 32) (b := left.toNat % 2 ^ 32)
    (c := right.toNat / 2 ^ 32) (d := right.toNat % 2 ^ 32) (by omega) (by omega) (by omega)
      (by omega)
  rw [Nat.div_add_mod, Nat.div_add_mod] at hhigh
  have hmask : ∀ x : Word, (x &&& 0xffffffff).toNat = x.toNat % 2 ^ 32 :=
    fun x => Nat.and_two_pow_sub_one_eq_mod x.toNat 32
  have hshift : ∀ x : Word, (x >>> 32).toNat = x.toNat / 2 ^ 32 :=
    fun x => Nat.shiftRight_eq_div_pow x.toNat 32
  simp only [unsignedHighMultiply64, BitVec.toNat_add, BitVec.toNat_mul, hmask, hshift]
  rw [← hhigh, Nat.mod_eq_of_lt hlow,
    Nat.mod_eq_of_lt (Nat.lt_of_le_of_lt (Nat.le_add_right ..) hcross),
    Nat.mod_eq_of_lt hcross, Nat.mod_eq_of_lt (Nat.lt_of_le_of_lt (Nat.le_add_left ..) hmiddle),
      Nat.mod_eq_of_lt hmiddle]
  omega

lemma signedHighMultiply64_toInt (left right : Word) :
    (signedHighMultiply64 left right).toInt = left.toInt * right.toInt / 2 ^ 64 := by
  have htop : ∀ x y : Word, (if x >>> 63 ≠ 0 then y else 0).toNat = if 2 ^ 63 ≤ x.toNat then y.toNat
      else 0 := by
    intro x y
    have hx : x >>> 63 ≠ 0 ↔ 2 ^ 63 ≤ x.toNat := by
      rw [Ne, ← BitVec.toNat_inj, BitVec.toNat_ushiftRight, Nat.shiftRight_eq_div_pow]
      show ¬ x.toNat / 2 ^ 63 = 0 ↔ _
      omega
    by_cases h : 2 ^ 63 ≤ x.toNat
    · rw [if_pos (hx.mpr h), if_pos h]
    · rw [if_neg (mt hx.mp h), if_neg h]
      rfl
  have hl := left.isLt
  have hr := right.isLt
  rw [BitVec.toInt_eq_toNat_cond, BitVec.toInt_eq_toNat_cond, BitVec.toInt_eq_toNat_cond,
    signedHighMultiply64,
    BitVec.toNat_sub, BitVec.toNat_sub, htop, htop, unsignedHighMultiply64_toNat]
  generalize left.toNat = l at *
  generalize right.toNat = r at *
  -- A factor from the middle on stands `2^64` below itself.
  by_cases hsl : 2 ^ 63 ≤ l
  · rw [if_neg (show ¬ 2 * l < 2 ^ 64 by omega), if_pos hsl]
    by_cases hsr : 2 ^ 63 ≤ r
    · rw [if_neg (show ¬ 2 * r < 2 ^ 64 by omega), if_pos hsr]
      have hp : (2 ^ 64 - l) * (2 ^ 64 - r) ≤ 2 ^ 63 * 2 ^ 63 :=
        Nat.mul_le_mul (by omega) (by omega)
      have hcast : ((2 ^ 64 - l) * (2 ^ 64 - r) : Nat) = (l - (2 ^ 64 : Nat) : Int) *
          (r - (2 ^ 64 : Nat)) := by
        rw [Nat.cast_mul, Nat.cast_sub hl.le, Nat.cast_sub hr.le]
        ring
      have hq : ((l * r : Nat) : Int) = (l - (2 ^ 64 : Nat) : Int) * (r - (2 ^ 64 : Nat)) + 2 ^ 64 *
          l + 2 ^ 64 * r - 2 ^ 128 := by
        push_cast
        ring
      rw [← hcast] at hq ⊢
      generalize (2 ^ 64 - l) * (2 ^ 64 - r) = q at *
      generalize l * r = p at *
      omega
    · have hp := Nat.mul_le_mul_right r hsl
      have hp' := Nat.mul_le_mul_right r hl.le
      rw [if_pos (show 2 * r < 2 ^ 64 by omega), if_neg hsr, sub_mul,
        show (l : Int) * r = (l * r : Nat) by simp]
      generalize l * r = p at *
      omega
  · rw [if_pos (show 2 * l < 2 ^ 64 by omega), if_neg hsl]
    by_cases hsr : 2 ^ 63 ≤ r
    · have hp := Nat.mul_le_mul_left l hsr
      have hp' := Nat.mul_le_mul_left l hr.le
      rw [if_neg (show ¬ 2 * r < 2 ^ 64 by omega), if_pos hsr, mul_sub,
        show (l : Int) * r = (l * r : Nat) by simp]
      generalize l * r = p at *
      omega
    · have hp : l * r ≤ 2 ^ 63 * 2 ^ 63 := Nat.mul_le_mul (by omega) (by omega)
      rw [if_pos (show 2 * r < 2 ^ 64 by omega), if_neg hsr,
        show (l : Int) * r = (l * r : Nat) by simp]
      generalize l * r = p at *
      omega

/-- The high halves are those of the exact products, and no sum of the unsigned routine
overflows. -/
theorem highMultiply64_exact (left right : Word) :
    (unsignedHighMultiply64 left right).toNat = left.toNat * right.toNat / 2 ^ 64 ∧
    (signedHighMultiply64 left right).toInt = left.toInt * right.toInt / 2 ^ 64 ∧
    let leftLow := left.toNat % 2 ^ 32
    let leftHigh := left.toNat / 2 ^ 32
    let rightLow := right.toNat % 2 ^ 32
    let rightHigh := right.toNat / 2 ^ 32
    let lowProduct := leftLow * rightLow
    let crossProduct := leftHigh * rightLow + lowProduct / 2 ^ 32
    let middle := crossProduct % 2 ^ 32 + leftLow * rightHigh
    lowProduct < 2 ^ 64 ∧ crossProduct < 2 ^ 64 ∧ middle < 2 ^ 64 ∧
      leftHigh * rightHigh + crossProduct / 2 ^ 32 + middle / 2 ^ 32 < 2 ^ 64 := by
  have hl := left.isLt
  have hr := right.isLt
  obtain ⟨hlow, hcross, hmiddle, hsum, -⟩ :=
    high_of_halves (a := left.toNat / 2 ^ 32) (b := left.toNat % 2 ^ 32)
    (c := right.toNat / 2 ^ 32) (d := right.toNat % 2 ^ 32) (by omega) (by omega) (by omega)
      (by omega)
  exact ⟨unsignedHighMultiply64_toNat left right, signedHighMultiply64_toInt left right, hlow,
    hcross, hmiddle, hsum⟩

end NeverD.Sbf
