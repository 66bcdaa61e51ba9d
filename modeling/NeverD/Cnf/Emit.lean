import NeverD.Cnf.Gates

namespace NeverD.Cnf
open Lib NeverD.Sat List

/-- The same gate, with at least the halves of `g` emitted. -/
structure Gate.Completes (g' g : Gate) : Prop where
  kind : g'.kind = g.kind
  operands : g'.operands = g.operands
  out : g'.out = g.out
  positive : g.positiveEmitted = true → g'.positiveEmitted = true
  negative : g.negativeEmitted = true → g'.negativeEmitted = true

lemma Gate.Completes.refl (g : Gate) : g.Completes g := ⟨rfl, rfl, rfl, id, id⟩

lemma Gate.Completes.trans {g g' g'' : Gate} (h : g''.Completes g') (h' : g'.Completes g) :
    g''.Completes g :=
  ⟨h.kind.trans h'.kind, h.operands.trans h'.operands, h.out.trans h'.out,
    fun hp => h.positive (h'.positive hp), fun hp => h.negative (h'.negative hp)⟩

lemma Gate.Completes.antisymm {g g' : Gate} (h : g'.Completes g) (h' : g.Completes g') :
    g' = g := by
  obtain ⟨k, p, n, os, o⟩ := g
  obtain ⟨k', p', n', os', o'⟩ := g'
  obtain ⟨rfl, rfl, rfl, h1, h2⟩ := h
  obtain ⟨-, -, -, h3, h4⟩ := h'
  cases p <;> cases p' <;> cases n <;> cases n' <;> simp_all

lemma Gate.Completes.value {g g' : Gate} (h : g'.Completes g) (σ : SatVar → Bool) :
    g'.value σ = g.value σ := by
  rw [Gate.value, Gate.value, h.kind, h.operands]

lemma Gate.value_congr {g : Gate} {σ τ : SatVar → Bool}
    (h : ∀ l ∈ g.operands, σ l.var = τ l.var) : g.value σ = g.value τ := by
  have : g.operands.map (Lit.eval σ) = g.operands.map (Lit.eval τ) :=
    map_congr_left fun l hl => Lit.eval_congr (h l hl)
  rw [Gate.value, Gate.value, this]

variable {g : Gate} {positive negative : Bool}

lemma emitted_completes : (g.emitted positive negative).Completes g := by
  unfold Gate.emitted
  split
  · exact ⟨rfl, rfl, rfl, fun _ => rfl, fun _ => rfl⟩
  · exact ⟨rfl, rfl, rfl, fun h => by simp [h], fun h => by simp [h]⟩

lemma emitted_halves : (positive = true → (g.emitted positive negative).positiveEmitted = true) ∧
    (negative = true → (g.emitted positive negative).negativeEmitted = true) := by
  unfold Gate.emitted
  split
  · exact ⟨fun _ => rfl, fun _ => rfl⟩
  · exact ⟨fun h => by simp [h], fun h => by simp [h]⟩

def Halves (g : Gate) (σ : SatVar → Bool) (emit : Bool → List (List SatLit)) : Prop :=
  (Models σ (emit true) ↔ (g.out.eval σ = true → g.value σ = true)) ∧
    (Models σ (emit false) ↔ (g.value σ = true → g.out.eval σ = true))

variable {σ : SatVar → Bool}

lemma Halves.models {emit : Bool → List (List SatLit)} (h : Halves g σ emit) :
    Models σ (halves emit positive negative) ↔
        (positive = true → g.out.eval σ = true → g.value σ = true) ∧
        (negative = true → g.value σ = true → g.out.eval σ = true) := by
  rw [halves, models_append]
  cases positive <;> cases negative <;> simp [h.1, h.2]

variable (hf : g.kind.Fits g.operands.length)
include hf

theorem models_missingClauses : Models σ (missingClauses g positive negative) ↔
      if g.kind = .xor then g.out.eval σ = g.value σ else (positive = true → g.out.eval σ = true →
        g.value σ = true) ∧ (negative = true → g.value σ = true → g.out.eval σ = true) := by
  unfold missingClauses
  cases hk : g.kind with
  | and =>
    rw [if_neg (by simp)]
    exact Halves.models ⟨models_emitAnd_true hk, models_emitAnd_false hk⟩
  | xor => exact models_emitXor hk
  | ite =>
    rw [if_neg (by simp)]
    exact Halves.models (models_emitIte hk hf)
  | majority =>
    rw [if_neg (by simp)]
    exact Halves.models (models_emitMajority hk hf)

lemma emitted_defined (hd : g.Defined σ) (hm : Models σ (missingClauses g positive negative)) :
    (g.emitted positive negative).Defined σ := by
  rw [models_missingClauses hf] at hm
  unfold Gate.emitted
  split
  next hk =>
    rw [if_pos hk] at hm
    exact ⟨fun _ h => hm.symm.trans h, fun _ h => hm.trans h⟩
  next hk =>
    rw [if_neg hk] at hm
    constructor
    · intro hp
      rcases Bool.or_eq_true _ _ ▸ hp with hp | hp
      · exact hd.1 hp
      · exact hm.1 hp
    · intro hn
      rcases Bool.or_eq_true _ _ ▸ hn with hn | hn
      · exact hd.2 hn
      · exact hm.2 hn

theorem models_missingClauses_of_eq
    (he : g.out.eval σ = g.value σ) : Models σ (missingClauses g positive negative) := by
  rw [models_missingClauses hf]
  split
  · exact he
  · exact ⟨fun _ h => he.symm.trans h, fun _ h => he.trans h⟩

omit hf

theorem missingClauses_vars {n : Nat} (ho : g.out.var < n) (hi : ∀ l ∈ g.operands, l.var < n) :
    ∀ C ∈ missingClauses g positive negative, ∀ l ∈ C, l.var < n := by
  have hhalves : ∀ emit : Bool → List (List SatLit), (∀ b, ∀ C ∈ emit b, ∀ l ∈ C, l.var < n) →
      ∀ C ∈ halves emit positive negative, ∀ l ∈ C, l.var < n := by
    intro emit h C hC
    rcases mem_append.mp hC with hC | hC
    · split at hC
      · exact h true C hC
      · cases hC
    · split at hC
      · exact h false C hC
      · cases hC
  have hand : ∀ b, ∀ C ∈ emitAnd g b, ∀ l ∈ C, l.var < n := by
    intro b
    cases b with
    | true =>
      intro C hC l hl
      obtain ⟨q, hq, rfl⟩ := mem_map.mp hC
      simp only [mem_cons, not_mem_nil, or_false] at hl
      rcases hl with rfl | rfl
      · exact ho
      · exact hi _ hq
    | false =>
      intro C hC l hl
      rw [emitAnd, mem_singleton] at hC
      subst hC
      rcases mem_cons.mp hl with rfl | hl
      · exact ho
      · obtain ⟨q, hq, rfl⟩ := mem_map.mp hl
        exact hi q hq
  have hthree : ∀ x y z : SatLit, g.operands = [x, y, z] → x.var < n ∧ y.var < n ∧ z.var < n := by
    intro x y z h
    rw [h] at hi
    exact ⟨hi x (by simp), hi y (by simp), hi z (by simp)⟩
  unfold missingClauses
  cases g.kind with
  | and => exact hhalves _ hand
  | xor =>
    intro C hC l hl
    obtain ⟨a, -, rfl⟩ := mem_map.mp hC
    rcases mem_append.mp hl with hl | hl
    · obtain ⟨⟨q, i⟩, hq, rfl⟩ := mem_map.mp hl
      exact hi q (fst_mem_of_mem_zipIdx hq)
    · rw [mem_singleton] at hl
      rw [hl]
      exact ho
  | ite =>
    refine hhalves _ fun b => ?_
    unfold emitIte
    split
    next c t e hops =>
      obtain ⟨h1, h2, h3⟩ := hthree c t e hops
      cases b <;> simp [ho, h1, h2, h3]
    · simp
  | majority =>
    refine hhalves _ fun b => ?_
    unfold emitMajority
    split
    next x y z hops =>
      obtain ⟨h1, h2, h3⟩ := hthree x y z hops
      cases b <;> simp [ho, h1, h2, h3]
    · simp

end NeverD.Cnf
