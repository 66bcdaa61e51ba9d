import Mathlib.Data.List.Basic

namespace NeverD.Lib

/-- A program over the state `σ` that may stop without a result. -/
abbrev Prog (σ α : Type) := StateT σ Option α

/-- An invariant of the state and an order its programs only move up in. -/
structure Growth (σ : Type) where
  Ok : σ → Prop
  Le : σ → σ → Prop
  refl : ∀ s, Le s s
  trans : ∀ {s t u}, Ok s → Ok t → Le s t → Le t u → Le s u

namespace Growth

variable {σ α β : Type} (G : Growth σ)

/-- Whenever `m` ends from `s`, it has kept the invariant, moved up, and left a
result and a state in `Q`. -/
def Triple (s : σ) (m : Prog σ α) (Q : α → σ → Prop) : Prop :=
  G.Ok s → ∀ a s', m.run s = some (a, s') → G.Ok s' ∧ G.Le s s' ∧ Q a s'

variable {G} {s : σ} {P : α → σ → Prop}

lemma Triple.mono {m : Prog σ α} {Q : α → σ → Prop} (h : G.Triple s m P)
    (hq : ∀ a t, G.Ok t → G.Le s t → P a t → Q a t) : G.Triple s m Q := by
  intro hs a t ht
  obtain ⟨h1, h2, h3⟩ := h hs a t ht
  exact ⟨h1, h2, hq a t h1 h2 h3⟩

lemma triple_of_ok {m : Prog σ α} (h : G.Ok s → G.Triple s m P) : G.Triple s m P :=
  fun hs => h hs hs

lemma triple_pure {a : α} (h : G.Ok s → P a s) : G.Triple s (pure a) P := by
  intro hs b t ht
  simp only [StateT.run_pure, Option.pure_def, Option.some.injEq, Prod.mk.injEq] at ht
  obtain ⟨rfl, rfl⟩ := ht
  exact ⟨hs, G.refl s, h hs⟩

lemma triple_bind {m : Prog σ α} {f : α → Prog σ β} {Q : β → σ → Prop} (h : G.Triple s m P)
    (hf : ∀ a t, G.Ok t → G.Le s t → P a t → G.Triple t (f a) Q) : G.Triple s (m >>= f) Q := by
  intro hs b u hu
  rw [StateT.run_bind] at hu
  obtain ⟨⟨a, t⟩, hm, hk⟩ := Option.bind_eq_some_iff.mp hu
  obtain ⟨h1, h2, h3⟩ := h hs a t hm
  obtain ⟨h4, h5, h6⟩ := hf a t h1 h2 h3 h1 b u hk
  exact ⟨h4, G.trans hs h1 h2 h5, h6⟩

lemma triple_get_bind {f : σ → Prog σ β} {Q : β → σ → Prop} (h : G.Triple s (f s) Q) :
    G.Triple s (get >>= f) Q := h

lemma triple_ite {c : Prop} [Decidable c] {m m' : Prog σ α} (ht : c → G.Triple s m P)
    (hf : ¬ c → G.Triple s m' P) : G.Triple s (if c then m else m') P := by
  by_cases h : c
  · rw [if_pos h]
    exact ht h
  · rw [if_neg h]
    exact hf h

end Growth

end NeverD.Lib
