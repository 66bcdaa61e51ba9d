import Mathlib.Data.List.Induction
import Mathlib.Data.Nat.BitIndices
import NeverD.Cnf.Table

namespace NeverD.Cnf
open Lib NeverD.Sat List Lit

@[simp] lemma eval_withPolarity (σ : SatVar → Bool) (l : SatLit) (positive : Bool) :
    (withPolarity l positive).eval σ = (l.eval σ ^^ !positive) := by
  simp [withPolarity, eval]

def xorBits (bs : List Bool) : Bool := bs.foldl xor false

def gateValue : GateKind → List Bool → Bool
  | .and, bs => bs.all id
  | .xor, bs => xorBits bs
  | .ite, [c, t, e] => if c then t else e
  | .majority, [a, b, c] => a && b || a && c || b && c
  | _, _ => false

lemma gateValue_and (bs : List Bool) : gateValue .and bs = bs.all id := rfl

lemma gateValue_xor (bs : List Bool) : gateValue .xor bs = xorBits bs := rfl

def Gate.value (g : Gate) (σ : SatVar → Bool) : Bool :=
  gateValue g.kind (g.operands.map (Lit.eval σ))

/-- Selections and majorities have three operands. -/
def GateKind.Fits : GateKind → Nat → Prop
  | .and, _ => True
  | .xor, _ => True
  | .ite, n => n = 3
  | .majority, n => n = 3

/-- The value follows the gate in the directions that `p` asks for. -/
def GatePolarity.Agrees (p : GatePolarity) (out value : Bool) : Prop :=
  (p ≠ .negative → out = true → value = true) ∧ (p ≠ .positive → value = true → out = true)

lemma GatePolarity.agrees_both {out value : Bool} : GatePolarity.both.Agrees out value ↔
    out = value := by
  cases out <;> cases value <;> simp [Agrees]

lemma GatePolarity.agrees_of_eq {p : GatePolarity} {out value : Bool} (h : out = value) :
    p.Agrees out value := by
  subst h
  exact ⟨fun _ h => h, fun _ h => h⟩

lemma GatePolarity.agrees_flip {p : GatePolarity} {out value : Bool}
    (h : p.flip.Agrees out value) : p.Agrees (!out) (!value) := by
  cases p <;> cases out <;> cases value <;> simp_all [Agrees, flip]

/-- The halves of the definition that were emitted hold under `σ`. -/
def Gate.Defined (g : Gate) (σ : SatVar → Bool) : Prop :=
  (g.positiveEmitted = true → g.out.eval σ = true → g.value σ = true) ∧
    (g.negativeEmitted = true → g.value σ = true → g.out.eval σ = true)

variable {g : Gate} {σ : SatVar → Bool}

lemma models_emitAnd_true (h : g.kind = .and) :
    Models σ (emitAnd g true) ↔ (g.out.eval σ = true → g.value σ = true) := by
  simp only [Models, emitAnd, mem_map, forall_exists_index, and_imp,
    forall_apply_eq_imp_iff₂, clauseHolds_cons, clauseHolds_nil, or_false, holds_iff_eval,
    eval_neg, Gate.value, h, gateValue, all_eq_true, id]
  cases g.out.eval σ <;> simp

lemma models_emitAnd_false (h : g.kind = .and) :
    Models σ (emitAnd g false) ↔ (g.value σ = true → g.out.eval σ = true) := by
  have htail : ClauseHolds σ (g.operands.map neg) ↔ ¬ g.value σ = true := by
    simp only [ClauseHolds, mem_map, Gate.value, h, gateValue, all_map, all_eq_true, not_forall]
    constructor
    · rintro ⟨l, ⟨q, hq, rfl⟩, hl⟩
      rw [holds_neg, holds_iff_eval] at hl
      exact ⟨q, hq, hl⟩
    · rintro ⟨q, hq, hl⟩
      refine ⟨q.neg, ⟨q, hq, rfl⟩, ?_⟩
      rw [holds_neg, holds_iff_eval]
      exact hl
  simp only [emitAnd, models_cons, models_nil, and_true, clauseHolds_cons, htail, holds_iff_eval]
  cases g.out.eval σ <;> cases g.value σ <;> simp

lemma parity_succ (n a : Nat) : parity (n + 1) a = (parity n a ^^ a.testBit n) := by
  simp [parity, range_succ]

lemma xorBits_append (bs : List Bool) (b : Bool) : xorBits (bs ++ [b]) = (xorBits bs ^^ b) := by
  simp [xorBits]

/-- The assignment an operand list spells, lowest operand first. -/
def spell (bs : List Bool) : Nat := Nat.ofBits fun i : Fin bs.length => bs[i]

lemma testBit_spell {bs : List Bool} {i : Nat} (h : i < bs.length) :
    (spell bs).testBit i = bs[i] := by
  rw [spell, Nat.testBit_ofBits_lt _ _ h]
  rfl

lemma parity_eq_xorBits (bs : List Bool) {a : Nat}
    (h : ∀ i (hi : i < bs.length), a.testBit i = bs[i]) : parity bs.length a = xorBits bs := by
  induction bs using List.reverseRecOn with
  | nil => rfl
  | append_singleton bs b ih =>
    rw [length_append, length_singleton, parity_succ, xorBits_append, ih]
    · rw [h bs.length (by simp)]
      simp
    · intro i hi
      rw [h i (by simp; omega), getElem_append_left hi]

/-- The clause for assignment `a` only bites when the operands spell `a`. -/
theorem clauseHolds_emitXor (a : Nat) :
    ClauseHolds σ ((g.operands.zipIdx.map fun x => withPolarity x.1 (!a.testBit x.2)) ++
        [withPolarity g.out (parity g.operands.length a)]) ↔
      ((∀ i (hi : i < g.operands.length), a.testBit i = g.operands[i].eval σ) →
        g.out.eval σ = parity g.operands.length a) := by
  have hout : (withPolarity g.out (parity g.operands.length a)).Holds σ ↔
      g.out.eval σ = parity g.operands.length a := by
    rw [holds_iff_eval, eval_withPolarity]
    cases g.out.eval σ <;> cases parity g.operands.length a <;> simp
  have hins : (∃ l ∈ g.operands.zipIdx.map fun x => withPolarity x.1 (!a.testBit x.2), l.Holds σ) ↔
      ∃ i, ∃ hi : i < g.operands.length, a.testBit i ≠ g.operands[i].eval σ := by
    constructor
    · rintro ⟨l, hl, hh⟩
      obtain ⟨⟨q, i⟩, hq, rfl⟩ := mem_map.mp hl
      obtain ⟨hi, hqi⟩ := mem_zipIdx' hq
      refine ⟨i, hi, ?_⟩
      rw [holds_iff_eval, eval_withPolarity, hqi] at hh
      intro he
      rw [he] at hh
      simp at hh
    · rintro ⟨i, hi, hne⟩
      refine ⟨_, mem_map.mpr ⟨(g.operands[i], i), ?_, rfl⟩, ?_⟩
      · rw [mem_zipIdx_iff_getElem?]
        simp [hi]
      · rw [holds_iff_eval, eval_withPolarity]
        revert hne
        cases a.testBit i <;> cases g.operands[i].eval σ <;> simp
  simp only [ClauseHolds, mem_append, mem_singleton, or_and_right, exists_or, exists_eq_left]
  rw [hins, hout]
  constructor
  · rintro (⟨i, hi, hne⟩ | h) hall
    · exact absurd (hall i hi) hne
    · exact h
  · intro h
    by_cases hall : ∀ i (hi : i < g.operands.length), a.testBit i = g.operands[i].eval σ
    · exact .inr (h hall)
    · push Not at hall
      exact .inl hall

lemma models_emitXor (h : g.kind = .xor) : Models σ (emitXor g) ↔ g.out.eval σ = g.value σ := by
  have hvalue : ∀ a : Nat, (∀ i (hi : i < g.operands.length), a.testBit i = g.operands[i].eval σ) →
      parity g.operands.length a = g.value σ := by
    intro a ha
    have := parity_eq_xorBits (g.operands.map (eval σ)) (a := a) (by
      intro i hi
      rw [length_map] at hi
      rw [ha i hi, getElem_map])
    simpa [Gate.value, h, gateValue] using this
  simp only [Models, emitXor, mem_map, mem_range, forall_exists_index, and_imp,
    forall_apply_eq_imp_iff₂, clauseHolds_emitXor]
  constructor
  · intro hall
    have hspell : ∀ i (hi : i < g.operands.length),
        (spell (g.operands.map (eval σ))).testBit i = g.operands[i].eval σ := by
      intro i hi
      rw [testBit_spell (by simpa using hi), getElem_map]
    have hlt : spell (g.operands.map (eval σ)) < 2 ^ g.operands.length := by
      have := Nat.ofBits_lt_two_pow fun i : Fin (g.operands.map (eval σ)).length =>
        (g.operands.map (eval σ))[i]
      simpa [spell] using this
    rw [hall _ hlt hspell, hvalue _ hspell]
  · intro he a _ ha
    rw [he, hvalue a ha]

lemma models_emitIte (h : g.kind = .ite) (hf : g.kind.Fits g.operands.length) :
    (Models σ (emitIte g true) ↔ (g.out.eval σ = true → g.value σ = true)) ∧
      (Models σ (emitIte g false) ↔ (g.value σ = true → g.out.eval σ = true)) := by
  rw [h, GateKind.Fits] at hf
  obtain ⟨c, t, e, ho⟩ := length_eq_three.mp hf
  simp only [emitIte, ho, if_true, Bool.false_eq_true, if_false, models_cons, models_nil,
    clauseHolds_cons, clauseHolds_nil, holds_iff_eval, eval_neg, Gate.value, h, gateValue,
    map_cons, map_nil]
  cases g.out.eval σ <;> cases c.eval σ <;> cases t.eval σ <;> cases e.eval σ <;> simp

lemma models_emitMajority (h : g.kind = .majority) (hf : g.kind.Fits g.operands.length) :
    (Models σ (emitMajority g true) ↔ (g.out.eval σ = true → g.value σ = true)) ∧
      (Models σ (emitMajority g false) ↔ (g.value σ = true → g.out.eval σ = true)) := by
  rw [h, GateKind.Fits] at hf
  obtain ⟨a, b, c, ho⟩ := length_eq_three.mp hf
  simp only [emitMajority, ho, if_true, Bool.false_eq_true, if_false, models_cons, models_nil,
    clauseHolds_cons, clauseHolds_nil, holds_iff_eval, eval_neg, Gate.value, h, gateValue,
    map_cons, map_nil]
  cases g.out.eval σ <;> cases a.eval σ <;> cases b.eval σ <;> cases c.eval σ <;> simp

end NeverD.Cnf
