import Mathlib.Data.List.Basic

namespace NeverD.Lib.Cuts
open List

def upper (cuts : List Nat) (size k : Nat) : Nat := (cuts[k + 1]?).getD size

variable {cuts : List Nat} {size : Nat}

lemma exists_piece {first s : Nat} (hfirst : cuts[0]? = some first) (hle : first ≤ s)
    (hs : s < size) : ∃ k a, cuts[k]? = some a ∧ a ≤ s ∧ s < upper cuts size k := by
  induction cuts generalizing first with
  | nil => cases hfirst
  | cons a rest ih =>
    cases hfirst
    cases rest with
    | nil => exact ⟨0, a, rfl, hle, hs⟩
    | cons b rest =>
      by_cases hb : b ≤ s
      · obtain ⟨k, x, hx, hxs, hsu⟩ := ih rfl hb
        exact ⟨k + 1, x, hx, hxs, hsu⟩
      · exact ⟨0, a, rfl, hle, Nat.lt_of_not_le hb⟩

variable (hsorted : cuts.Pairwise (· < ·))

include hsorted

lemma index_lt {j k a b : Nat} (ha : cuts[j]? = some a) (hb : cuts[k]? = some b) (hab : a < b) :
    j < k := by
  obtain ⟨hj, rfl⟩ := List.getElem?_eq_some_iff.mp ha
  obtain ⟨hk, rfl⟩ := List.getElem?_eq_some_iff.mp hb
  have hmono := pairwise_iff_getElem.mp hsorted
  by_contra hno
  rcases Nat.lt_or_ge k j with hlt | hge
  · exact absurd (hmono k j hk hj hlt) (by omega)
  · have hjk : j = k := by omega
    subst hjk
    exact absurd hab (Nat.lt_irrefl _)

theorem upper_le {k a t : Nat} (ha : cuts[k]? = some a) (ht : t ∈ cuts) (hat : a < t) :
    upper cuts size k ≤ t := by
  obtain ⟨j, hj, rfl⟩ := getElem_of_mem ht
  have hkj : k < j := index_lt hsorted ha (getElem?_eq_getElem hj) hat
  unfold upper
  rw [getElem?_eq_getElem (show k + 1 < cuts.length by omega), Option.getD_some]
  rcases Nat.lt_or_ge (k + 1) j with hlt | hge
  · exact Nat.le_of_lt (pairwise_iff_getElem.mp hsorted (k + 1) j _ hj hlt)
  · have hjk : k + 1 = j := by omega
    subst hjk
    exact Nat.le_refl _

lemma piece_unique {j k a b s : Nat} (ha : cuts[j]? = some a) (has : a ≤ s)
    (hsj : s < upper cuts size j)
    (hb : cuts[k]? = some b) (hbs : b ≤ s) (hsk : s < upper cuts size k) : j = k := by
  rcases Nat.lt_trichotomy a b with hab | hab | hab
  · have : upper cuts size j ≤ b := upper_le hsorted ha (mem_of_getElem? hb) hab
    omega
  · subst hab
    by_contra hne
    obtain ⟨hj, hja⟩ := List.getElem?_eq_some_iff.mp ha
    obtain ⟨hk, hka⟩ := List.getElem?_eq_some_iff.mp hb
    have hmono := pairwise_iff_getElem.mp hsorted
    rcases Nat.lt_or_ge j k with hlt | hge
    · have := hmono j k hj hk hlt
      omega
    · have := hmono k j hk hj (by omega)
      omega
  · have : upper cuts size k ≤ a := upper_le hsorted hb (mem_of_getElem? ha) hab
    omega

end NeverD.Lib.Cuts
