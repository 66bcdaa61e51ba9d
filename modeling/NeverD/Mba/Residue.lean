import NeverD.Lib.Residues
import NeverD.Mba.WorkBudget

namespace NeverD.Mba
open Lib Residues
open Spends List Nat

def zerosBound (w : Nat) : Nat → Nat → List (BitVec w) → Spends Nat
  | 0, _, _ => pure 0
  | rest + 1, ceiling, offsets =>
    if ceiling = 0 then pure 0
    else do
      consume offsets.length
      let bit := w - (rest + 1)
      let left := offsets.filter fun c => c.getLsbD bit = false
      let right := offsets.filter fun c => c.getLsbD bit = true
      if left.length = 0 ∨ right.length = 0 then pure 0
      else
        -- The smaller child comes first: its bound often excludes the other one.
        let small := if left.length ≤ right.length then left else right
        let large := if left.length ≤ right.length then right else left
        if ceiling ≤ small.length then pure ceiling
        else do
          let a ← zerosBound w rest (ceiling - small.length) small
          let smallBound := small.length + a
          if smallBound ≤ large.length then pure smallBound
          else do
            let b ← zerosBound w rest (smallBound - large.length) large
            pure (min smallBound (large.length + b))

def minimumProductResidueZeros {w : Nat} (offsets : List (BitVec w)) (ceiling : Nat) : Spends Nat :=
  zerosBound w w ceiling offsets

section

variable {w rest ceiling : Nat} {offsets : List (BitVec w)}

lemma branch_toNat (bit : Nat) (v : Bool) (offsets : List (BitVec w)) :
      branch bit v (offsets.map BitVec.toNat) =
      (offsets.filter fun c => c.getLsbD bit = v).map BitVec.toNat := by
  rw [branch, filter_map]
  rfl

/-- The fewest matches below two children, the first of which is explored first. -/
theorem min_children {s l m n a b : Nat} (hs : s < ceiling) (ha : a = min (ceiling - s) m)
    (hb : b = min (s + a - l) n) (hl : l < s + a) :
    min (s + a) (l + b) = min ceiling (min (s + m) (l + n)) := by
  omega

/-- The pruned search finds the least count of matches, capped by the ceiling. -/
theorem ends_zerosBound (hrest : rest ≤ w) : Ends (zerosBound w rest ceiling offsets) fun n =>
    n = min ceiling (least rest (w - rest) (offsets.map BitVec.toNat)) := by
  induction rest generalizing ceiling offsets with
  | zero =>
    apply ends_pure
    rw [least, Nat.min_zero]
  | succ rest ih =>
    have hbit : w - (rest + 1) + 1 = w - rest := by omega
    rw [least, branch_toNat, branch_toNat, hbit, length_map, length_map]
    apply ends_ite
    · intro hc
      apply ends_pure
      rw [hc, Nat.zero_min]
    · intro hc
      refine ends_bind ends_any ?_
      intro _ _
      dsimp only
      generalize offsets.filter (fun c => c.getLsbD (w - (rest + 1)) = false) = left
      generalize offsets.filter (fun c => c.getLsbD (w - (rest + 1)) = true) = right
      apply ends_ite
      · intro hempty
        apply ends_pure
        -- Along the child without offsets nothing more is matched.
        rcases hempty with hempty | hempty
        · rw [length_eq_zero_iff.mp hempty, map_nil, least_nil]
          simp
        · rw [length_eq_zero_iff.mp hempty, map_nil, least_nil]
          simp
      · intro _
        -- Both orders of the children give one minimum.
        have hsearch : ∀ small large : List (BitVec w), small.length ≤ large.length →
            Ends (if ceiling ≤ small.length then pure ceiling
              else do
                let a ← zerosBound w rest (ceiling - small.length) small
                if small.length + a ≤ large.length then pure (small.length + a)
                else do
                  let b ← zerosBound w rest (small.length + a - large.length) large
                  pure (min (small.length + a) (large.length + b)))
              fun n => n = min ceiling
                  (min (small.length + least rest (w - rest) (small.map BitVec.toNat))
                  (large.length + least rest (w - rest) (large.map BitVec.toNat))) := by
          intro small large hle
          apply ends_ite
          · intro hsmall
            apply ends_pure
            omega
          · intro hsmall
            refine ends_bind (ih (le_of_succ_le hrest)) ?_
            intro a ha
            apply ends_ite
            · intro hlarge
              apply ends_pure
              omega
            · intro hlarge
              refine ends_bind (ih (le_of_succ_le hrest)) ?_
              intro b hb
              apply ends_pure
              exact min_children (not_le.mp hsmall) ha hb (not_le.mp hlarge)
        by_cases hle : left.length ≤ right.length
        · rw [if_pos hle, if_pos hle]
          exact hsearch left right hle
        · rw [if_neg hle, if_neg hle, Nat.min_comm (left.length + _)]
          exact hsearch right left (Nat.le_of_not_le hle)

lemma pays_zerosBound : Pays (zerosBound w rest ceiling offsets) := by
  induction rest generalizing ceiling offsets with
  | zero => exact pays_pure 0
  | succ rest ih =>
    apply pays_ite
    · intro _
      exact pays_pure 0
    · intro _
      refine pays_bind (pays_consume _) ?_
      intro _
      apply pays_ite
      · intro _
        exact pays_pure 0
      · intro _
        apply pays_ite
        · intro _
          exact pays_pure ceiling
        · intro _
          refine pays_bind ih ?_
          intro a
          apply pays_ite
          · intro _
            exact pays_pure _
          · intro _
            exact pays_bind ih fun b => pays_pure _

end

variable {w ceiling : Nat} {offsets : List (BitVec w)}

lemma ends_minimum : Ends (minimumProductResidueZeros offsets ceiling) fun n =>
    n = min ceiling (least w 0 (offsets.map BitVec.toNat)) := by
  have h : Ends (zerosBound w w ceiling offsets) _ := ends_zerosBound (le_refl w)
  rwa [Nat.sub_self] at h

lemma add_neg_toNat (b : BitVec w) : ((-b).toNat + b.toNat) % 2 ^ w = 0 := by
  have h := congrArg BitVec.toNat (BitVec.add_left_neg b)
  rwa [BitVec.toNat_add, BitVec.toNat_ofNat, zero_mod] at h

lemma ends_minimum_dvd : Ends (minimumProductResidueZeros offsets ceiling) fun n =>
    n ≤ ceiling ∧ ∀ b : BitVec w, 2 ^ n ∣ (offsets.map fun c => (b + c).toNat).prod := by
  intro budget n left hrun
  obtain rfl := ends_minimum budget n left hrun
  refine ⟨min_le_left _ _, ?_⟩
  intro b
  have hmatched := two_pow_matched_dvd (add_neg_toNat b) (offsets.map BitVec.toNat)
  rw [map_map] at hmatched
  refine Dvd.dvd.trans (pow_dvd_pow 2 ?_) hmatched
  rw [← along_matched]
  exact (min_le_right _ _).trans (least_le_along _ _ _ _)

end NeverD.Mba
