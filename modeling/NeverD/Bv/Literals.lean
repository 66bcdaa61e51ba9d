import NeverD.Cnf.Session
import Mathlib.Data.Int.ModEq
import Mathlib.Tactic.Ring

namespace NeverD.Bv
open Lib NeverD.Sat Cnf List Growth CnfEncoder

variable (σ : SatVar → Bool)

def num : List SatLit → Nat
  | [] => 0
  | l :: ls => (l.eval σ).toNat + 2 * num ls

lemma num_lt (ls : List SatLit) : num σ ls < 2 ^ ls.length := by
  induction ls with
  | nil => exact one_pos
  | cons l ls ih =>
    have := Bool.toNat_le (l.eval σ)
    rw [num, length_cons, pow_succ]
    omega

lemma num_append (as bs : List SatLit) :
    num σ (as ++ bs) = num σ as + 2 ^ as.length * num σ bs := by
  induction as with
  | nil => simp [num]
  | cons a as ih =>
    rw [cons_append, num, ih, num, length_cons]
    ring

lemma num_take {ls : List SatLit} {k : Nat} (h : k ≤ ls.length) :
    (num σ (ls.take k) : Int) ≡ num σ ls [ZMOD 2 ^ k] := by
  have hsplit := num_append σ (ls.take k) (ls.drop k)
  rw [take_append_drop, length_take, min_eq_left h] at hsplit
  exact Int.modEq_iff_dvd.mpr ⟨num σ (ls.drop k), by rw [hsplit]; push_cast; ring⟩

lemma num_complement (ls : List SatLit) :
    (num σ (ls.map Lit.neg) : Int) = 2 ^ ls.length - 1 - num σ ls := by
  induction ls with
  | nil => rfl
  | cons l ls ih =>
    rw [map_cons, num, num, length_cons, pow_succ, Nat.cast_add, Nat.cast_mul, ih, Lit.eval_neg]
    cases l.eval σ <;> simp <;> ring

lemma num_zero {ls : List SatLit} (h : ∀ l ∈ ls, l.eval σ = false) : num σ ls = 0 := by
  induction ls with
  | nil => rfl
  | cons l ls ih =>
    rw [num, h l mem_cons_self, ih fun x hx => h x (mem_cons_of_mem l hx)]
    rfl

variable {σ}

section

variable {R : Type}

def Owns (e : CnfEncoder R) (ls : List SatLit) : Prop := ∀ l ∈ ls, l.var < e.numVars

/-- In every model of the clauses the `n` literals stand for the number `f`, modulo the width. -/
structure Word (e : CnfEncoder R) (n : Nat) (out : List SatLit) (f : (SatVar → Bool) → Int) :
    Prop where
  length : out.length = n
  vars : Owns e out
  value : ∀ σ, Models σ e.added → num σ out ≡ f σ [ZMOD 2 ^ n]

variable {e e' : CnfEncoder R} {n : Nat} {as bs out : List SatLit} {f g : (SatVar → Bool) → Int}

lemma Owns.grown (h : Owns e as) (hle : Conserves e e') : Owns e' as :=
  fun l hl => (h l hl).trans_le hle.vars

lemma Word.modEq (h : Word e n out f) (hf : ∀ σ, Models σ e.added → f σ ≡ g σ [ZMOD 2 ^ n]) :
    Word e n out g :=
  ⟨h.length, h.vars, fun σ hσ => (h.value σ hσ).trans (hf σ hσ)⟩

lemma Word.congr (h : Word e n out f) (hf : ∀ σ, Models σ e.added → f σ = g σ) : Word e n out g :=
  h.modEq fun σ hσ => congrArg (· % 2 ^ n) (hf σ hσ)

lemma word_nil : Word e 0 [] f := ⟨rfl, nofun, fun _ _ => Int.modEq_one⟩

lemma word_cons {l : SatLit} {b : (SatVar → Bool) → Bool} (hl : e.Computes l b)
    (h : Word e n out f) : Word e (n + 1) (l :: out) fun σ => (b σ).toNat + 2 * f σ := by
  refine ⟨congrArg (· + 1) h.length, forall_mem_cons.mpr ⟨hl.1, h.vars⟩, fun σ hσ => ?_⟩
  rw [num, hl.2 σ hσ, pow_succ', Nat.cast_add, Nat.cast_mul]
  exact (h.value σ hσ).mul_left'.add_left _

lemma adder_sum (a b c : Bool) :
    (a ^^ b ^^ c).toNat + 2 * (majority a b c).toNat = a.toNat + b.toNat + c.toNat := by
  cases a <;> cases b <;> cases c <;> rfl

end

variable {R : Type} [FloatArith R] {e : CnfEncoder R} {σ : SatVar → Bool}

lemma falseLit_eval (hok : e.Ok) (hσ : Models σ e.added) : e.falseLit.eval σ = false := by
  rw [falseLit, Lit.eval_neg, hok.trueLit_eval hσ]
  rfl

lemma num_zeros (hok : e.Ok) (hσ : Models σ e.added) (n : Nat) :
    num σ (replicate n e.falseLit) = 0 :=
  num_zero σ fun l hl => by rw [eq_of_mem_replicate hl, falseLit_eval hok hσ]

lemma word_zero (hok : e.Ok) (n : Nat) : Word e n (replicate n e.falseLit) fun _ => 0 := by
  refine ⟨length_replicate, fun l hl => eq_of_mem_replicate hl ▸ hok.trueLit_lt, fun σ hσ => ?_⟩
  rw [num_zeros hok hσ]
  rfl

def inputs : Nat → CnfEncoder Rat
  | 0 => emptyEncoder
  | n + 1 => ((freshLit (inputs n)).map Prod.snd).getD (inputs n)

lemma inputs_session (n : Nat) : Session (inputs n) [] := by
  induction n with
  | zero => exact emptyEncoder_session
  | succ n ih =>
    rw [inputs]
    cases h : freshLit (inputs n) with
    | none => exact ih
    | some r => exact .freshLit ih h

def wordOf (vars : List SatVar) : List SatLit := vars.map (⟨·, false⟩)

def five : List SatLit := [(inputs 6).trueLit, (inputs 6).falseLit, (inputs 6).trueLit]

end NeverD.Bv
