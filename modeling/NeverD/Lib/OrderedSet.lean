import Mathlib.Data.List.Basic

namespace NeverD.Lib.OrderedSet
open List

variable {set : List Nat}

def insert (x : Nat) : List Nat → List Nat
  | [] => [x]
  | y :: rest => if x < y then x :: y :: rest else if x = y then y :: rest else y :: insert x rest

lemma mem_insert {x y : Nat} : y ∈ insert x set ↔ y = x ∨ y ∈ set := by
  induction set with
  | nil => rw [insert, mem_singleton, or_iff_left not_mem_nil]
  | cons z set ih =>
    unfold insert
    split
    · rw [mem_cons]
    · split
      next heq =>
        rw [heq, mem_cons]
        exact ⟨.inr, fun h => h.elim .inl id⟩
      · rw [mem_cons, ih, mem_cons]
        exact or_left_comm

lemma sorted_insert {x : Nat} (h : set.Pairwise (· < ·)) : (insert x set).Pairwise (· < ·) := by
  induction set with
  | nil => exact pairwise_singleton _ _
  | cons z set ih =>
    obtain ⟨hz, hset⟩ := pairwise_cons.mp h
    unfold insert
    split
    next hlt =>
      apply pairwise_cons.mpr
      refine ⟨?_, h⟩
      intro y hy
      rcases mem_cons.mp hy with hy | hy
      · omega
      · have := hz y hy
        omega
    · split
      · exact h
      · apply pairwise_cons.mpr
        refine ⟨?_, ih hset⟩
        intro y hy
        rcases mem_insert.mp hy with hy | hy
        · omega
        · exact hz y hy

lemma insert_last {x : Nat} (h : ∀ y ∈ set, y < x) : insert x set = set ++ [x] := by
  induction set with
  | nil => rfl
  | cons z set ih =>
    have hz := h z mem_cons_self
    unfold insert
    rw [if_neg (by omega), if_neg (by omega), ih fun y hy => h y (mem_cons_of_mem _ hy)]
    rfl

lemma head_of_least {x : Nat} (h : set.Pairwise (· < ·)) (hx : x ∈ set)
    (hleast : ∀ y ∈ set, x ≤ y) : ∃ rest, set = x :: rest := by
  cases set with
  | nil => cases hx
  | cons z rest =>
    rcases mem_cons.mp hx with heq | hx
    · exact ⟨rest, by rw [heq]⟩
    · have hbelow := (pairwise_cons.mp h).1 x hx
      have habove := hleast z mem_cons_self
      omega

variable {α : Type} {key : α → Nat} {list : List α}

theorem length_takeWhile_below (h : list.Pairwise fun x y => key x < key y) {n : Nat} {x : α}
    (hx : list[n]? = some x) : (list.takeWhile fun y => key y < key x).length = n := by
  induction list generalizing n with
  | nil => cases hx
  | cons y rest ih =>
    obtain ⟨hy, hrest⟩ := pairwise_cons.mp h
    cases n with
    | zero =>
      rw [getElem?_cons_zero] at hx
      rw [Option.some.inj hx, takeWhile_cons_of_neg (by simp)]
      rfl
    | succ n =>
      rw [getElem?_cons_succ] at hx
      have hlt := hy x (mem_of_getElem? hx)
      rw [takeWhile_cons_of_pos (by simpa using hlt), length_cons, ih hrest hx]

lemma index_lt (h : list.Pairwise fun x y => key x < key y) {n m : Nat} {x y : α}
    (hx : list[n]? = some x) (hy : list[m]? = some y) (hlt : key x < key y) : n < m := by
  obtain ⟨hn, hx⟩ := List.getElem?_eq_some_iff.mp hx
  obtain ⟨hm, hy⟩ := List.getElem?_eq_some_iff.mp hy
  rcases Nat.lt_trichotomy n m with hnm | hnm | hnm
  · exact hnm
  · subst hnm
    rw [hx] at hy
    rw [hy] at hlt
    exact absurd hlt (Nat.lt_irrefl _)
  · have hback := pairwise_iff_getElem.mp h m n hm hn hnm
    rw [hx, hy] at hback
    omega

end NeverD.Lib.OrderedSet
