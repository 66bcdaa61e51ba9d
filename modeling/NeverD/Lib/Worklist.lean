import Mathlib.Algebra.GroupWithZero.Nat
import Mathlib.Algebra.Order.BigOperators.Group.List

namespace NeverD.Lib.Worklist
open List

variable {α : Type*} [DecidableEq α]

/-- The marked nodes after the search. -/
def mark (next : α → List α) : Nat → List α → List α → List α
  | 0, _, marked => marked
  | _ + 1, [], marked => marked
  | fuel + 1, a :: work, marked =>
    if a ∈ marked then mark next fuel work marked else mark next fuel (work ++ next a) (a :: marked)

def pending (next : α → List α) (nodes marked : List α) : Nat :=
  ((nodes.filter fun a => a ∉ marked).map fun a => (next a).length).sum

variable {next : α → List α} {nodes : List α}

lemma pending_cons_le (next : α → List α) (a : α) (nodes marked : List α) :
    pending next nodes (a :: marked) ≤ pending next nodes marked := by
  unfold pending
  induction nodes with
  | nil => simp
  | cons b nodes ih =>
    by_cases hb : b ∈ marked
    · rw [filter_cons_of_neg (by simp [hb]), filter_cons_of_neg (by simp [hb])]
      exact ih
    · rw [filter_cons_of_pos (p := fun a => decide (a ∉ marked)) (by simp [hb])]
      by_cases hab : b = a
      · rw [filter_cons_of_neg (by simp [hab])]
        simp only [map_cons, sum_cons]
        omega
      · rw [filter_cons_of_pos (by simp [hab, hb])]
        simp only [map_cons, sum_cons]
        omega

lemma pending_cons {a : α} {marked : List α} (ha : a ∈ nodes) (hm : a ∉ marked) :
    (next a).length + pending next nodes (a :: marked) ≤ pending next nodes marked := by
  induction nodes with
  | nil => cases ha
  | cons b nodes ih =>
    by_cases hab : a = b
    · have h := pending_cons_le next a nodes marked
      unfold pending at h ⊢
      rw [filter_cons_of_pos (p := fun x => decide (x ∉ marked)) (by simp [← hab, hm]),
        filter_cons_of_neg (by simp [hab])]
      simp only [map_cons, sum_cons, ← hab]
      omega
    · have h := ih ((mem_cons.mp ha).resolve_left hab)
      unfold pending at h ⊢
      by_cases hb : b ∈ marked
      · rw [filter_cons_of_neg (by simp [hb]), filter_cons_of_neg (by simp [hb])]
        exact h
      · rw [filter_cons_of_pos (p := fun x => decide (x ∉ marked)) (by simp [hb]),
          filter_cons_of_pos (by simp [hb, Ne.symm hab])]
        simp only [map_cons, sum_cons]
        omega

/-- Every successor of a marked node is marked or waits in the queue. -/
def Covered (next : α → List α) (work marked : List α) : Prop :=
  ∀ a ∈ marked, ∀ b ∈ next a, b ∈ marked ∨ b ∈ work

/-- With fuel for every successor there is, the search marks the queue and all that it leads to. -/
theorem mark_closed (hnodes : ∀ a ∉ nodes, next a = []) {fuel : Nat} {work marked : List α}
    (hfuel : work.length + pending next nodes marked ≤ fuel) (hcovered : Covered next work marked) :
    (∀ a ∈ work, a ∈ mark next fuel work marked) ∧ (∀ a ∈ marked, a ∈ mark next fuel work marked) ∧
      ∀ a ∈ mark next fuel work marked, ∀ b ∈ next a, b ∈ mark next fuel work marked := by
  induction fuel generalizing work marked with
  | zero =>
    have hwork : work = [] := eq_nil_of_length_eq_zero (by omega)
    subst hwork
    exact ⟨by simp, fun a ha => ha, fun a ha b hb => (hcovered a ha b hb).resolve_right (by simp)⟩
  | succ fuel ih =>
    cases work with
    | nil =>
      exact ⟨by simp, fun a ha => ha, fun a ha b hb => (hcovered a ha b hb).resolve_right (by simp)⟩
    | cons a work =>
      unfold mark
      by_cases ha : a ∈ marked
      · rw [if_pos ha]
        have hcovered' : Covered next work marked := by
          intro x hx y hy
          rcases hcovered x hx y hy with h | h
          · exact .inl h
          · rcases mem_cons.mp h with h | h
            · exact .inl (h ▸ ha)
            · exact .inr h
        have h := ih (by simp only [length_cons] at hfuel; omega) hcovered'
        refine ⟨?_, h.2.1, h.2.2⟩
        intro x hx
        rcases mem_cons.mp hx with hx | hx
        · exact h.2.1 x (hx ▸ ha)
        · exact h.1 x hx
      · rw [if_neg ha]
        have hcovered' : Covered next (work ++ next a) (a :: marked) := by
          intro x hx y hy
          rcases mem_cons.mp hx with hx | hx
          · exact .inr (mem_append_right _ (hx ▸ hy))
          · rcases hcovered x hx y hy with h | h
            · exact .inl (mem_cons_of_mem _ h)
            · rcases mem_cons.mp h with h | h
              · exact .inl (h ▸ mem_cons_self)
              · exact .inr (mem_append_left _ h)
        have hfuel' : (work ++ next a).length + pending next nodes (a :: marked) ≤ fuel := by
          simp only [length_cons] at hfuel
          rw [length_append]
          by_cases hn : a ∈ nodes
          · have : (next a).length + pending next nodes (a :: marked) ≤ pending next nodes marked :=
              pending_cons hn ha
            omega
          · have := pending_cons_le next a nodes marked
            rw [hnodes a hn, length_nil]
            omega
        have h := ih hfuel' hcovered'
        refine ⟨?_, fun x hx => h.2.1 x (mem_cons_of_mem _ hx), h.2.2⟩
        intro x hx
        rcases mem_cons.mp hx with hx | hx
        · exact h.2.1 x (hx ▸ mem_cons_self)
        · exact h.1 x (mem_append_left _ hx)

/-- The nodes in the order in which a stack gives them up, but for those where the search stops. -/
def gather (next : α → List α) (stop : α → Bool) : Nat → List α → List α → List α → List α
  | 0, _, _, order => order
  | _ + 1, [], _, order => order
  | fuel + 1, a :: work, seen, order =>
    if a ∈ seen then gather next stop fuel work seen order
    else if stop a then gather next stop fuel work (a :: seen) order
    else gather next stop fuel ((next a).reverse ++ work) (a :: seen) (order ++ [a])

structure Gathering (next : α → List α) (stop : α → Bool) (reached : α → Prop)
    (work seen order : List α) : Prop where
  nodup : order.Nodup
  taken : ∀ a, a ∈ order ↔ a ∈ seen ∧ stop a = false
  covered : ∀ a ∈ order, ∀ b ∈ next a, b ∈ seen ∨ b ∈ work
  sound : ∀ a, a ∈ order ∨ a ∈ work → reached a

theorem Gathering.finish (hnodes : ∀ a ∉ nodes, next a = []) {stop : α → Bool} {reached : α → Prop}
    (hnext : ∀ a, reached a → stop a = false → ∀ b ∈ next a, reached b) {fuel : Nat}
    {work seen order : List α}
    (hfuel : work.length + pending next nodes seen ≤ fuel)
    (h : Gathering next stop reached work seen order) :
    ∃ all, Gathering next stop reached [] all (gather next stop fuel work seen order) ∧
      ∀ a, a ∈ seen ∨ a ∈ work → a ∈ all := by
  induction fuel generalizing work seen order with
  | zero =>
    obtain rfl : work = [] := eq_nil_of_length_eq_zero (by omega)
    exact ⟨seen, h, fun a ha => ha.resolve_right not_mem_nil⟩
  | succ fuel ih =>
    cases work with
    | nil => exact ⟨seen, h, fun a ha => ha.resolve_right not_mem_nil⟩
    | cons a work =>
      rw [length_cons] at hfuel
      obtain ⟨hnodup, htaken, hcovered, hsound⟩ := h
      have hless := pending_cons_le next a nodes seen
      unfold gather
      split
      next hin =>
        have hstep : Gathering next stop reached work seen order := by constructor <;> grind
        obtain ⟨all, hall, hsub⟩ := ih (by omega) hstep
        exact ⟨all, hall, by grind⟩
      next hnew =>
        split
        next hstop =>
          have hstep : Gathering next stop reached work (a :: seen) order := by
            constructor <;> grind
          obtain ⟨all, hall, hsub⟩ := ih (by omega) hstep
          exact ⟨all, hall, by grind⟩
        next hgo =>
          have hpay : (next a).length + pending next nodes (a :: seen) ≤
              pending next nodes seen := by
            by_cases ha : a ∈ nodes
            · exact pending_cons ha hnew
            · rwa [hnodes a ha, length_nil, zero_add]
          have hstep : Gathering next stop reached ((next a).reverse ++ work) (a :: seen)
              (order ++ [a]) := by
            constructor <;> grind
          obtain ⟨all, hall, hsub⟩ := ih (by rw [length_append, length_reverse]; omega) hstep
          exact ⟨all, hall, by grind⟩

end NeverD.Lib.Worklist
