import Mathlib.Data.List.Basic

namespace NeverD.Lib

structure Lit (V : Type) where
  var : V
  negated : Bool
deriving DecidableEq, Repr

namespace Lit

variable {V : Type}

def neg (l : Lit V) : Lit V := ⟨l.var, !l.negated⟩

def Holds (σ : V → Bool) (l : Lit V) : Prop := σ l.var = !l.negated

instance (σ : V → Bool) (l : Lit V) : Decidable (l.Holds σ) :=
  inferInstanceAs (Decidable (_ = _))

@[simp] lemma neg_var (l : Lit V) : l.neg.var = l.var := rfl

@[simp] lemma neg_negated (l : Lit V) : l.neg.negated = !l.negated := rfl

@[simp] lemma neg_neg (l : Lit V) : l.neg.neg = l := by cases l; simp [neg]

lemma neg_ne (l : Lit V) : l.neg ≠ l := by
  intro h
  have := congrArg Lit.negated h
  simp at this

lemma neg_inj {a b : Lit V} : a.neg = b.neg ↔ a = b := by
  constructor
  · intro h
    simpa using congrArg neg h
  · exact congrArg neg

lemma neg_eq_iff {a b : Lit V} : a.neg = b ↔ a = b.neg := by
  rw [← neg_inj, neg_neg]

@[simp] lemma holds_neg (σ : V → Bool) (l : Lit V) : l.neg.Holds σ ↔ ¬ l.Holds σ := by
  cases h : σ l.var <;> cases hn : l.negated <;> simp [Holds, h, hn]

def eval (σ : V → Bool) (l : Lit V) : Bool := σ l.var ^^ l.negated

lemma holds_iff_eval (σ : V → Bool) (l : Lit V) : l.Holds σ ↔ l.eval σ = true := by
  cases h : σ l.var <;> cases hn : l.negated <;> simp [Holds, eval, h, hn]

@[simp] lemma eval_neg (σ : V → Bool) (l : Lit V) : l.neg.eval σ = !l.eval σ := by
  cases h : σ l.var <;> cases hn : l.negated <;> simp [eval, h, hn]

lemma eval_congr {σ τ : V → Bool} {l : Lit V} (h : σ l.var = τ l.var) : l.eval σ = l.eval τ := by
  rw [eval, eval, h]

lemma eq_or_eq_neg {a b : Lit V} (h : a.var = b.var) : a = b ∨ a = b.neg := by
  obtain ⟨v, x⟩ := a
  obtain ⟨w, y⟩ := b
  cases x <;> cases y <;> simp_all [neg]

end Lit

variable {V : Type}

def ClauseHolds (σ : V → Bool) (C : List (Lit V)) : Prop := ∃ l ∈ C, l.Holds σ

def Models (σ : V → Bool) (F : List (List (Lit V))) : Prop := ∀ C ∈ F, ClauseHolds σ C

def Entails (F : List (List (Lit V))) (C : List (Lit V)) : Prop :=
  ∀ σ, Models σ F → ClauseHolds σ C

def Unsatisfiable (F : List (List (Lit V))) : Prop := ∀ σ, ¬ Models σ F

instance (σ : V → Bool) (C : List (Lit V)) : Decidable (ClauseHolds σ C) :=
  inferInstanceAs (Decidable (∃ l ∈ C, _))

instance (σ : V → Bool) (F : List (List (Lit V))) : Decidable (Models σ F) :=
  inferInstanceAs (Decidable (∀ C ∈ F, _))

@[simp] lemma clauseHolds_nil (σ : V → Bool) : ¬ ClauseHolds σ [] := by simp [ClauseHolds]

@[simp] lemma clauseHolds_cons (σ : V → Bool) (l : Lit V) (C : List (Lit V)) :
    ClauseHolds σ (l :: C) ↔ l.Holds σ ∨ ClauseHolds σ C := by
  simp [ClauseHolds]

lemma ClauseHolds.congr {σ τ : V → Bool} {C : List (Lit V)} (h : ClauseHolds σ C)
    (hv : ∀ l ∈ C, τ l.var = σ l.var) : ClauseHolds τ C := by
  obtain ⟨l, hl, hh⟩ := h
  exact ⟨l, hl, (hv l hl).trans hh⟩

lemma ClauseHolds.mono {σ : V → Bool} {C D : List (Lit V)} (h : ClauseHolds σ C)
    (hs : ∀ l ∈ C, l ∈ D) : ClauseHolds σ D := by
  obtain ⟨l, hl, hh⟩ := h
  exact ⟨l, hs l hl, hh⟩

@[simp] lemma models_append (σ : V → Bool) (F G : List (List (Lit V))) :
    Models σ (F ++ G) ↔ Models σ F ∧ Models σ G := by
  simp [Models, or_imp, forall_and]

@[simp] lemma models_cons (σ : V → Bool) (C : List (Lit V)) (F : List (List (Lit V))) :
    Models σ (C :: F) ↔ ClauseHolds σ C ∧ Models σ F := by
  simp [Models]

@[simp] lemma models_nil (σ : V → Bool) : Models σ ([] : List (List (Lit V))) := by
  simp [Models]

lemma Models.mono {σ : V → Bool} {F G : List (List (Lit V))} (h : Models σ G)
    (hs : ∀ C ∈ F, C ∈ G) : Models σ F := fun C hC => h C (hs C hC)

lemma Entails.mono {F G : List (List (Lit V))} {C : List (Lit V)} (h : Entails F C)
    (hs : ∀ D ∈ F, D ∈ G) : Entails G C := fun σ hσ => h σ (hσ.mono hs)

lemma Entails.weaken {F : List (List (Lit V))} {C D : List (Lit V)} (h : Entails F C)
    (hs : ∀ l ∈ C, l ∈ D) : Entails F D := fun σ hσ => (h σ hσ).mono hs

lemma Unsatisfiable.mono {F G : List (List (Lit V))} (h : Unsatisfiable F)
    (hs : ∀ D ∈ F, D ∈ G) : Unsatisfiable G := fun σ hσ => h σ (hσ.mono hs)

end NeverD.Lib
