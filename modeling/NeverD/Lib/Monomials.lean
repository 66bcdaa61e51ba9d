import Mathlib.Data.List.GetD
import Mathlib.Data.List.Sections
import Mathlib.Data.List.Sort
import Mathlib.Data.List.Lex
import Mathlib.Algebra.BigOperators.Ring.List
import Mathlib.Tactic.Ring

namespace NeverD.Lib.Monomials
open List

variable {s : List Nat}

def sorted (xs : List Nat) : List Nat := xs.insertionSort (· ≤ ·)

def monomials (choices : List (List Nat)) : List (List Nat) := choices.sections.map sorted

lemma sorted_perm (xs : List Nat) : (sorted xs).Perm xs := perm_insertionSort _ xs

lemma length_of_mem_monomials {choices : List (List Nat)} {k : List Nat}
    (h : k ∈ monomials choices) : k.length = choices.length := by
  obtain ⟨f, hf, rfl⟩ := mem_map.mp h
  rw [(sorted_perm f).length_eq, mem_sections_length hf]

section

variable {R : Type} [CommRing R]

lemma prod_sums (x : Nat → R) (choices : List (List Nat)) :
    (choices.map fun s => (s.map x).sum).prod =
    (choices.sections.map fun f => (f.map x).prod).sum := by
  induction choices with
  | nil => simp
  | cons s choices ih =>
    rw [map_cons, prod_cons, ih, List.sections, mul_comm, ← sum_map_mul_right, map_flatMap,
      flatMap_def, sum_flatten, map_map]
    congr 1
    apply map_congr_left
    intro f _
    show _ = (List.map (fun f => (f.map x).prod) (s.map fun a => a :: f)).sum
    rw [map_map, mul_comm, ← sum_map_mul_right]
    congr 1

lemma prod_sums_monomials (x : Nat → R) (choices : List (List Nat)) :
    (choices.map fun s => (s.map x).sum).prod =
    ((monomials choices).map fun k => (k.map x).prod).sum := by
  rw [prod_sums, monomials, map_map]
  congr 1
  apply map_congr_left
  intro f _
  exact (((sorted_perm f).map x).prod_eq).symm

end

variable {xs ys : List Nat} {choices : List (List Nat)}

variable (h : List.Forall₂ (· ≤ ·) xs ys)
include h

lemma orderedInsert_le {a b : Nat} (hab : a ≤ b) (hx : xs.Pairwise (· ≤ ·))
    (hy : ys.Pairwise (· ≤ ·)) :
    List.Forall₂ (· ≤ ·) (xs.orderedInsert (· ≤ ·) a) (ys.orderedInsert (· ≤ ·) b) := by
  -- A member below a sorted list stands before it.
  have hfront : ∀ {c : Nat} {l : List Nat}, (c :: l).Pairwise (· ≤ ·) →
      l.orderedInsert (· ≤ ·) c = c :: l := by
    intro c l hl
    cases l with
    | nil => rfl
    | cons d l => exact orderedInsert_cons_of_le _ l ((pairwise_cons.mp hl).1 d mem_cons_self)
  induction h generalizing a b with
  | nil => exact .cons hab .nil
  | @cons x y xs ys hxy h ih =>
    have hx' := (pairwise_cons.mp hx).2
    have hy' := (pairwise_cons.mp hy).2
    by_cases hax : a ≤ x
    · rw [orderedInsert_cons_of_le _ _ hax]
      by_cases hby : b ≤ y
      · rw [orderedInsert_cons_of_le _ _ hby]
        exact .cons hab (.cons hxy h)
      · rw [orderedInsert_of_not_le _ _ hby]
        refine .cons (hax.trans hxy) ?_
        rw [← hfront hx]
        exact ih (by omega) hx' hy'
    · rw [orderedInsert_of_not_le _ _ hax]
      by_cases hby : b ≤ y
      · rw [orderedInsert_cons_of_le _ _ hby]
        refine .cons (by omega) ?_
        rw [← hfront hy]
        exact ih (by omega) hx' hy'
      · rw [orderedInsert_of_not_le _ _ hby]
        exact .cons hxy (ih hab hx' hy')

lemma sorted_le : List.Forall₂ (· ≤ ·) (sorted xs) (sorted ys) := by
  induction h with
  | nil => exact .nil
  | cons hxy _ ih =>
    exact orderedInsert_le ih hxy (pairwise_insertionSort _ _) (pairwise_insertionSort _ _)

lemma not_lt_of_le : ¬ ys < xs := by
  induction h with
  | nil => exact lt_irrefl _
  | cons hxy _ ih =>
    rw [cons_lt_cons_iff, not_or]
    refine ⟨by omega, ?_⟩
    intro ⟨_, hlt⟩
    exact ih hlt

lemma eq_of_le_of_sum (hsum : xs.sum = ys.sum) : xs = ys := by
  have hle : ∀ {xs ys : List Nat}, List.Forall₂ (· ≤ ·) xs ys → xs.sum ≤ ys.sum := by
    intro xs ys h
    induction h with
    | nil => exact le_rfl
    | cons hxy _ ih =>
      rw [sum_cons, sum_cons]
      omega
  induction h with
  | nil => rfl
  | cons hxy h ih =>
    have hrest := hle h
    rw [sum_cons, sum_cons] at hsum
    rw [ih (by omega)]
    congr 1
    omega

lemma eq_of_sorted_eq (heq : sorted xs = sorted ys) : xs = ys := by
  apply eq_of_le_of_sum h
  rw [← (sorted_perm xs).sum_eq, heq, (sorted_perm ys).sum_eq]

omit h

lemma nodup_sections (h : ∀ s ∈ choices, s.Nodup) : choices.sections.Nodup := by
  induction choices with
  | nil => exact nodup_singleton _
  | cons s choices ih =>
    rw [List.sections, nodup_flatMap]
    constructor
    · intro f _
      exact (h s mem_cons_self).map fun a b hab => (List.cons.inj hab).1
    · apply (ih fun t ht => h t (mem_cons_of_mem s ht)).imp
      intro f g hfg k hf hg
      obtain ⟨a, _, rfl⟩ := mem_map.mp hf
      obtain ⟨b, _, heq⟩ := mem_map.mp hg
      exact hfg (List.cons.inj heq).2.symm

theorem count_sorted (h : ∀ s ∈ choices, s.Nodup) {p : List Nat} (hp : p ∈ choices.sections)
    (honly : ∀ f ∈ choices.sections, sorted f = sorted p → f = p) :
    (monomials choices).count (sorted p) = 1 := by
  rw [monomials, List.count, countP_map, ← count_eq_one_of_mem (nodup_sections h) hp, List.count]
  apply countP_congr
  intro f hf
  rw [Function.comp_apply, beq_iff_eq, beq_iff_eq]
  exact ⟨honly f hf, fun heq => congrArg sorted heq⟩

lemma count_replicate (h : ∀ s ∈ choices, s.Nodup) (m : Nat) :
    (monomials choices).count (List.replicate choices.length m) = if ∀ s ∈ choices, m ∈ s then 1
    else 0 := by
  have hsorted : ∀ n, sorted (List.replicate n m) = List.replicate n m :=
    fun n => perm_replicate.mp (sorted_perm _)
  have hmem : List.replicate choices.length m ∈ choices.sections ↔ ∀ s ∈ choices, m ∈ s := by
    rw [mem_sections]
    clear h
    induction choices with
    | nil => exact iff_of_true .nil fun s hs => nomatch hs
    | cons s choices ih =>
      rw [length_cons, replicate_succ, List.forall₂_cons, ih, forall_mem_cons]
  have honly : ∀ f, sorted f = List.replicate choices.length m →
      f = List.replicate choices.length m :=
    fun f hf => perm_replicate.mp ((sorted_perm f).symm.trans (hf ▸ List.Perm.refl _))
  by_cases hall : ∀ s ∈ choices, m ∈ s
  · have hcount := count_sorted h (hmem.mpr hall) fun f _ hf => honly f (hf.trans (hsorted _))
    rwa [if_pos hall, ← hsorted]
  · rw [if_neg hall]
    apply count_eq_zero_of_not_mem
    intro hin
    obtain ⟨f, hf, heq⟩ := mem_map.mp hin
    rw [honly f heq] at hf
    exact hall (hmem.mp hf)

structure Extreme (lt : List Nat → List Nat → Prop) (choices : List (List Nat)) (k : List Nat) :
    Prop where
  once : (monomials choices).count k = 1
  bound : ∀ k' ∈ monomials choices, ¬ lt k' k

lemma headD_mem (h : s ≠ []) : s.headD 0 ∈ s := by
  cases s with
  | nil => exact absurd rfl h
  | cons a s => exact mem_cons_self

lemma getLastD_mem (h : s ≠ []) : s.getLastD 0 ∈ s := by
  rw [getLastD_eq_getLast?, getLast?_eq_some_getLast h]
  exact getLast_mem h

lemma headD_le (h : s.Pairwise (· < ·)) {x : Nat} (hx : x ∈ s) : s.headD 0 ≤ x := by
  cases s with
  | nil => cases hx
  | cons a s =>
    rcases mem_cons.mp hx with rfl | hx
    · exact le_rfl
    · exact ((pairwise_cons.mp h).1 x hx).le

lemma le_getLastD (h : s.Pairwise (· < ·)) {x : Nat} (hx : x ∈ s) : x ≤ s.getLastD 0 := by
  induction s with
  | nil => cases hx
  | cons a s ih =>
    obtain ⟨ha, hs⟩ := pairwise_cons.mp h
    by_cases hnil : s = []
    · rw [hnil, mem_singleton] at hx
      rw [hnil, hx]
      exact le_rfl
    · have hlast : (a :: s).getLastD 0 = s.getLastD 0 := by
        rw [getLastD_cons, getLastD_eq_getLast?, getLastD_eq_getLast?,
          getLast?_eq_some_getLast hnil]
        rfl
      rw [hlast]
      rcases mem_cons.mp hx with rfl | hx
      · exact (ha _ (getLastD_mem hnil)).le
      · exact ih hs hx

section

variable {choices : List (List Nat)} (hne : ∀ s ∈ choices, s ≠ [])
    (hinc : ∀ s ∈ choices, s.Pairwise (· < ·))

lemma forall₂_map {r : Nat → Nat → Prop} {g : List Nat → Nat} {f : List Nat}
    (hf : f ∈ choices.sections)
    (h : ∀ s ∈ choices, ∀ x ∈ s, r (g s) x) : List.Forall₂ r (choices.map g) f := by
  rw [mem_sections] at hf
  induction hf with
  | nil => exact .nil
  | cons hx _ ih =>
    exact .cons (h _ mem_cons_self _ hx) (ih fun s hs => h s (mem_cons_of_mem _ hs))

lemma map_mem_sections {g : List Nat → Nat} (h : ∀ s ∈ choices, g s ∈ s) :
    choices.map g ∈ choices.sections := by
  rw [mem_sections]
  induction choices with
  | nil => exact .nil
  | cons s choices ih =>
    exact .cons (h s mem_cons_self) (ih fun t ht => h t (mem_cons_of_mem s ht))

include hne hinc

lemma extreme_first : Extreme (· < ·) choices (sorted (choices.map fun s => s.headD 0)) := by
  have hle : ∀ f ∈ choices.sections, List.Forall₂ (· ≤ ·) (choices.map fun s => s.headD 0) f :=
    fun f hf => forall₂_map hf fun s hs x hx => headD_le (hinc s hs) hx
  constructor
  · apply count_sorted fun s hs => (hinc s hs).imp fun hlt => hlt.ne
    · exact map_mem_sections fun s hs => headD_mem (hne s hs)
    · intro f hf heq
      exact (eq_of_sorted_eq (hle f hf) heq.symm).symm
  · intro k hk
    obtain ⟨f, hf, rfl⟩ := mem_map.mp hk
    exact not_lt_of_le (sorted_le (hle f hf))

lemma extreme_last : Extreme (· > ·) choices (sorted (choices.map fun s => s.getLastD 0)) := by
  have hle : ∀ f ∈ choices.sections, List.Forall₂ (· ≤ ·) f (choices.map fun s => s.getLastD 0) :=
    fun f hf => (forall₂_map (r := fun a b => b ≤ a) hf fun s hs x hx =>
      le_getLastD (hinc s hs) hx).flip
  constructor
  · apply count_sorted fun s hs => (hinc s hs).imp fun hlt => hlt.ne
    · exact map_mem_sections fun s hs => getLastD_mem (hne s hs)
    · intro f hf heq
      exact eq_of_sorted_eq (hle f hf) heq
  · intro k hk
    obtain ⟨f, hf, rfl⟩ := mem_map.mp hk
    exact not_lt_of_le (sorted_le (hle f hf))

end

def advance : List (List Nat) → List Nat → Option (List Nat)
  | s :: choices, p :: picks =>
    if p + 1 < s.length then some ((p + 1) :: picks) else (advance choices picks).map (0 :: ·)
  | _, _ => none

def takeAt (choices : List (List Nat)) (picks : List Nat) : List Nat :=
  List.zipWith (fun s p => s.getD p 0) choices picks

def allPicks (choices : List (List Nat)) : List (List Nat) :=
  (choices.map fun s => List.range s.length).sections

def Steps (next : List Nat → Option (List Nat)) : List (List Nat) → Option (List Nat) → Prop
  | [], _ => True
  | p :: ps, stop => next p = ps.head?.or stop ∧ Steps next ps stop

lemma Steps.append {next : List Nat → Option (List Nat)} {ps qs : List (List Nat)}
    {stop : Option (List Nat)}
    (hp : Steps next ps (qs.head?.or stop)) (hq : Steps next qs stop) :
    Steps next (ps ++ qs) stop := by
  induction ps with
  | nil => exact hq
  | cons p ps ih =>
    refine ⟨?_, ih hp.2⟩
    rw [hp.1]
    cases ps with
    | nil => rfl
    | cons p' ps => rfl

lemma steps_block (choices : List (List Nat)) (picks : List Nat) (n : Nat) (hn : n ≤ s.length) :
    Steps (advance (s :: choices)) ((List.range' (s.length - n) n).map (· :: picks))
      ((advance choices picks).map (0 :: ·)) := by
  induction n with
  | zero => exact trivial
  | succ n ih =>
    rw [range'_succ, map_cons]
    have hnext : s.length - (n + 1) + 1 = s.length - n := by omega
    rw [hnext]
    refine ⟨?_, ih (by omega)⟩
    cases n with
    | zero =>
      rw [advance, if_neg (by omega)]
      rfl
    | succ n =>
      rw [advance, if_pos (by omega), hnext]
      rfl

lemma head?_flatMap {ps : List (List Nat)} {n : Nat} (hn : 0 < n) :
    (ps.flatMap fun p => (List.range n).map (· :: p)).head? = ps.head?.map (0 :: ·) := by
  cases ps with
  | nil => rfl
  | cons p ps =>
    obtain ⟨m, rfl⟩ := Nat.exists_eq_succ_of_ne_zero hn.ne'
    rw [flatMap_cons, range_succ_eq_map]
    rfl

lemma steps_allPicks {choices : List (List Nat)} (h : ∀ s ∈ choices, s ≠ []) :
    Steps (advance choices) (allPicks choices) none := by
  induction choices with
  | nil => exact ⟨rfl, trivial⟩
  | cons s choices ih =>
    have hs : 0 < s.length := length_pos_iff.mpr (h s mem_cons_self)
    have hrest : ∀ (ps : List (List Nat)) (stop : Option (List Nat)),
        Steps (advance choices) ps stop →
        Steps (advance (s :: choices)) (ps.flatMap fun p => (List.range s.length).map (· :: p))
          (stop.map (0 :: ·)) := by
      intro ps stop hsteps
      induction ps with
      | nil => exact trivial
      | cons p ps ihp =>
        rw [flatMap_cons]
        apply Steps.append _ (ihp hsteps.2)
        rw [head?_flatMap hs]
        have hblock := steps_block choices p s.length le_rfl
        rw [Nat.sub_self, ← range_eq_range', hsteps.1] at hblock
        rw [← Option.map_or]
        exact hblock
    exact hrest _ none (ih fun t ht => h t (mem_cons_of_mem s ht))

lemma takeAt_allPicks (choices : List (List Nat)) :
    (allPicks choices).map (takeAt choices) = choices.sections := by
  induction choices with
  | nil => rfl
  | cons s choices ih =>
    rw [allPicks, map_cons, List.sections, List.sections, ← ih, map_flatMap, flatMap_map]
    congr 1
    funext picks
    have hget : (List.range s.length).map (fun p => s.getD p 0) = s := by
      apply ext_getElem
      · rw [length_map, length_range]
      · intro i hi hi'
        rw [getElem_map, getElem_range, getD_eq_getElem _ _ hi']
    conv_rhs => rw [← hget]
    rw [map_map, map_map]
    rfl

lemma length_allPicks (choices : List (List Nat)) :
    (allPicks choices).length = (choices.map List.length).prod := by
  induction choices with
  | nil => rfl
  | cons s choices ih =>
    rw [allPicks, map_cons, List.sections, map_cons, prod_cons, ← ih, length_flatMap]
    simp [allPicks, mul_comm]

end NeverD.Lib.Monomials
