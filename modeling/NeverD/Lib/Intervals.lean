import Mathlib.Data.List.Sort
import Mathlib.Data.List.TakeWhile

namespace NeverD.Lib.Intervals
open List

abbrev Interval := Nat × Nat

def covers (p : Nat) (r : Interval) : Bool := r.1 ≤ p ∧ p < r.1 + r.2

def Covered (rs : List Interval) (p : Nat) : Prop := ∃ r ∈ rs, r.1 ≤ p ∧ p < r.1 + r.2

def Spaced (r s : Interval) : Prop := r.1 + r.2 < s.1

@[simp] lemma covered_nil (p : Nat) : Covered [] p ↔ False := by
  unfold Covered
  simp only [not_mem_nil, false_and, exists_false]

@[simp] lemma covered_cons (r : Interval) (rs : List Interval) (p : Nat) :
    Covered (r :: rs) p ↔ (r.1 ≤ p ∧ p < r.1 + r.2) ∨ Covered rs p := by
  unfold Covered
  simp only [mem_cons, exists_eq_or_imp]

lemma covered_append (rs ss : List Interval) (p : Nat) : Covered (rs ++ ss) p ↔ Covered rs p ∨
    Covered ss p := by
  unfold Covered
  simp only [mem_append, or_and_right, exists_or]

variable {rs : List Interval}

lemma Covered.perm {ss : List Interval} (h : rs.Perm ss) (p : Nat) :
    Covered rs p ↔ Covered ss p := by
  unfold Covered
  simp only [h.mem_iff]

def Ordered (rs : List Interval) : Prop := rs.Pairwise fun r s => r.1 ≤ s.1

def sort (rs : List Interval) : List Interval := rs.insertionSort fun r s => r.1 ≤ s.1

lemma sort_perm (rs : List Interval) : (sort rs).Perm rs := perm_insertionSort _ rs

lemma sort_ordered (rs : List Interval) : Ordered (sort rs) := by
  have : Std.Total fun r s : Interval => r.1 ≤ s.1 := ⟨fun r s => Nat.le_total r.1 s.1⟩
  have : IsTrans Interval fun r s => r.1 ≤ s.1 := ⟨fun _ _ _ h h' => le_trans h h'⟩
  exact pairwise_insertionSort _ rs

/-- Extend the last interval by those that touch it. -/
def mergeFrom (last : Interval) : List Interval → List Interval
  | [] => [last]
  | r :: rest =>
    if r.1 - last.1 ≤ last.2 then mergeFrom (last.1, max last.2 (r.1 - last.1 + r.2)) rest
    else last :: mergeFrom r rest

def merge : List Interval → List Interval
  | [] => []
  | r :: rest => mergeFrom r rest

variable {last : Interval}

lemma covered_mergeFrom (h : Ordered (last :: rs)) (p : Nat) :
    Covered (mergeFrom last rs) p ↔ Covered (last :: rs) p := by
  induction rs generalizing last with
  | nil => rfl
  | cons r rest ih =>
    obtain ⟨hlast, htail⟩ := pairwise_cons.mp h
    obtain ⟨hr, hrest⟩ := pairwise_cons.mp htail
    have hle := hlast r mem_cons_self
    rw [mergeFrom]
    split
    next htouch =>
      have hord : Ordered ((last.1, max last.2 (r.1 - last.1 + r.2)) :: rest) :=
        pairwise_cons.mpr ⟨fun s hs => hlast s (mem_cons_of_mem _ hs), hrest⟩
      rw [ih hord]
      simp only [covered_cons]
      rw [← or_assoc]
      apply or_congr_left
      omega
    · rw [covered_cons, ih htail, covered_cons last]

lemma covered_merge (h : Ordered rs) (p : Nat) : Covered (merge rs) p ↔ Covered rs p := by
  cases rs with
  | nil => rfl
  | cons r rest => exact covered_mergeFrom h p

theorem start_mergeFrom (h : Ordered (last :: rs)) : ∀ r ∈ mergeFrom last rs, last.1 ≤ r.1 := by
  induction rs generalizing last with
  | nil =>
    intro r hr
    rw [mem_singleton.mp hr]
  | cons r rest ih =>
    obtain ⟨hlast, htail⟩ := pairwise_cons.mp h
    rw [mergeFrom]
    split
    · have hord : Ordered ((last.1, max last.2 (r.1 - last.1 + r.2)) :: rest) :=
        pairwise_cons.mpr ⟨fun s hs => hlast s (mem_cons_of_mem _ hs), (pairwise_cons.mp htail).2⟩
      exact ih hord
    · intro s hs
      rcases mem_cons.mp hs with rfl | hs
      · exact le_rfl
      · exact (hlast r mem_cons_self).trans (ih htail s hs)

lemma spaced_mergeFrom (h : Ordered (last :: rs)) : (mergeFrom last rs).Pairwise Spaced := by
  induction rs generalizing last with
  | nil => exact pairwise_singleton ..
  | cons r rest ih =>
    obtain ⟨hlast, htail⟩ := pairwise_cons.mp h
    rw [mergeFrom]
    split
    · apply ih
      exact pairwise_cons.mpr ⟨fun s hs => hlast s (mem_cons_of_mem _ hs),
        (pairwise_cons.mp htail).2⟩
    next hgap =>
      refine pairwise_cons.mpr ⟨?_, ih htail⟩
      intro s hs
      have := start_mergeFrom htail s hs
      unfold Spaced
      omega

lemma spaced_merge (h : Ordered rs) : (merge rs).Pairwise Spaced := by
  cases rs with
  | nil => exact .nil
  | cons r rest => exact spaced_mergeFrom h

lemma size_mergeFrom (hlast : 0 < last.2) (h : ∀ r ∈ rs, 0 < r.2) :
    ∀ r ∈ mergeFrom last rs, 0 < r.2 := by
  induction rs generalizing last with
  | nil =>
    intro r hr
    rw [mem_singleton.mp hr]
    exact hlast
  | cons r rest ih =>
    have hrest : ∀ s ∈ rest, 0 < s.2 := fun s hs => h s (mem_cons_of_mem _ hs)
    rw [mergeFrom]
    split
    · exact ih (lt_of_lt_of_le hlast (le_max_left ..)) hrest
    · intro s hs
      rcases mem_cons.mp hs with rfl | hs
      · exact hlast
      · exact ih (h r mem_cons_self) hrest s hs

lemma size_merge (h : ∀ r ∈ rs, 0 < r.2) : ∀ r ∈ merge rs, 0 < r.2 := by
  cases rs with
  | nil => exact forall_mem_nil _
  | cons r rest => exact size_mergeFrom (h r mem_cons_self) fun s hs => h s (mem_cons_of_mem _ hs)

/-- The last interval of an ordered list that does not start behind a point. -/
def lastAtMost (rs : List Interval) (p : Nat) : Option Interval := (rs.takeWhile (·.1 ≤ p)).getLast?

lemma lastAtMost_mem {p : Nat} {r : Interval} (h : lastAtMost rs p = some r) :
    r ∈ rs ∧ r.1 ≤ p := by
  have hmem := mem_of_getLast? h
  exact ⟨(takeWhile_sublist _).mem hmem, by simpa using mem_takeWhile_imp hmem⟩

theorem lastAtMost_max (h : rs.Pairwise Spaced) {p : Nat} {s : Interval} (hs : s ∈ rs)
    (hle : s.1 ≤ p) : ∃ r, lastAtMost rs p = some r ∧ (s = r ∨ s.1 + s.2 < r.1) := by
  induction rs with
  | nil => cases hs
  | cons t rest ih =>
    obtain ⟨hhead, htail⟩ := pairwise_cons.mp h
    have ht : t.1 ≤ p := by
      rcases mem_cons.mp hs with rfl | hs
      · exact hle
      · have := hhead s hs
        unfold Spaced at this
        omega
    unfold lastAtMost at ih ⊢
    rw [takeWhile_cons_of_pos (by simpa using ht)]
    cases hlast : (rest.takeWhile (·.1 ≤ p)).getLast? with
    | none =>
      rw [getLast?_cons, hlast]
      refine ⟨t, rfl, ?_⟩
      rcases mem_cons.mp hs with hst | hs
      · exact .inl hst
      · obtain ⟨r, hr, -⟩ := ih htail hs
        rw [hlast] at hr
        cases hr
    | some r =>
      rw [getLast?_cons, hlast]
      refine ⟨r, rfl, ?_⟩
      rcases mem_cons.mp hs with rfl | hs
      · exact .inr (hhead r (lastAtMost_mem hlast).1)
      · obtain ⟨r', hr', hlt⟩ := ih htail hs
        rw [hlast] at hr'
        cases hr'
        exact hlt

/-- An interval from `p` on, whose end is a 64-bit word, meets the list: the last member that does
not start behind it reaches `p`. -/
def hits (rs : List Interval) (p size : Nat) : Bool :=
  match lastAtMost rs (p + size - 1) with
  | none => false
  | some r => p < r.1 ∨ p - r.1 < r.2

lemma hits_iff (h : rs.Pairwise Spaced) (hsize : ∀ r ∈ rs, 0 < r.2) {p size : Nat}
    (hpos : 0 < size) : hits rs p size = true ↔ ∃ q, p ≤ q ∧ q < p + size ∧ Covered rs q := by
  unfold hits
  constructor
  · intro hhit
    split at hhit
    · cases hhit
    next r hr =>
      obtain ⟨hmem, hle⟩ := lastAtMost_mem hr
      have hr₂ := hsize r hmem
      have hcase := of_decide_eq_true hhit
      refine ⟨max p r.1, le_max_left .., by omega, r, hmem, le_max_right .., ?_⟩
      omega
  · rintro ⟨q, hlow, hhigh, s, hs, hsl, hsh⟩
    obtain ⟨r, hr, hcases⟩ := lastAtMost_max h hs (show s.1 ≤ p + size - 1 by omega)
    rw [hr]
    apply decide_eq_true
    rcases hcases with rfl | hlt
    · omega
    · omega

end NeverD.Lib.Intervals
