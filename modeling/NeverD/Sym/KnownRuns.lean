import NeverD.Sym.Meaning

namespace NeverD.Sym
open Lib SymKnownBits Nat

section

variable [BlockHash] [ProjectionHash] [KnownTransfer]

/-- The cache of an object after queries of any budgets, in a context that may have grown before
each of them. -/
inductive SymKnownBits.Held : SymBuilder → List (SymRef × KnownBits) → Prop
  | created {s : SymBuilder} (hs : s.Built) : Held s []
  | grown {s t : SymBuilder} {cache : List (SymRef × KnownBits)} (h : Held s cache) (ht : t.Built)
    (he : s.ctx.Extends t.ctx) : Held t cache
  | queried {s : SymBuilder} {cache : List (SymRef × KnownBits)} (h : Held s cache) (r : SymRef)
    (budget : Nat) : Held s (query s.ctx cache r budget).2.1

namespace SymKnownBits

variable {s t : SymBuilder} {cache : List (SymRef × KnownBits)}

lemma Held.built (h : Held s cache) : s.Built := by
  induction h with
  | created hs => exact hs
  | grown _ ht _ _ => exact ht
  | queried _ _ _ ih => exact ih

omit [ProjectionHash] [KnownTransfer] in
lemma at_self (h : s.Valid) (vals : List APInt) : At s.ctx vals s := ⟨h vals, .refl _⟩

omit [ProjectionHash] [KnownTransfer] in
theorem factsOf_grown (h : s.Valid) (he : s.ctx.Extends t.ctx) {vals : List APInt} {r : SymRef}
    {k : KnownBits} (hk : FactsOf s.ctx vals s r k) : FactsOf t.ctx vals t r k := by
  obtain ⟨hr, hk⟩ := hk
  refine ⟨hr.trans_le he.length_le, ?_⟩
  rw [he.width hr, (h vals).typed.num_extend he vals hr]
  exact hk

lemma Held.facts (hT : KnownTransfer.Sound) (h : Held s cache) (vals : List APInt) :
    ∀ p ∈ cache, FactsOf s.ctx vals s p.1 p.2 := by
  induction h with
  | created _ => exact List.forall_mem_nil _
  | grown h _ he ih => exact fun p hp => factsOf_grown (h.built.valid hT) he (ih p hp)
  | queried h r budget ih => exact (query_spec hT (at_self (h.built.valid hT) vals) ih r budget).1

/-- What a query reports is true of the expression for all values of its variables, and no bit is
both known to be clear and known to be set. -/
theorem query_true (hT : KnownTransfer.Sound) (h : Held s cache) {r : SymRef} {budget : Nat}
    {k : KnownBits}
    (hk : (query s.ctx cache r budget).1 = some k) : k.width = s.ctx.width r ∧
      k.zero &&& k.one = 0 ∧ ∀ vals i,
      (k.zero.testBit i = true → (s.ctx.eval r vals).toNat.testBit i = false) ∧
      (k.one.testBit i = true → (s.ctx.eval r vals).toNat.testBit i = true) := by
  have hvalid := h.built.valid hT
  have hr : r < s.ctx.nodes.length := by
    unfold query at hk
    split at hk
    · cases hk
    next hr => exact not_le.mp fun hle => hr (Or.inl hle)
  have hknows : ∀ vals, k.Knows (s.ctx.width r) (s.ctx.eval r vals).toNat := by
    intro vals
    rw [(hvalid vals).typed.toAcyclic.eval_eq vals hr]
    exact (query_spec hT (at_self hvalid vals) (h.facts hT vals) r budget).2 k hk
  refine ⟨(hknows []).width, ?_, fun vals i => ⟨(hknows vals).clear i, (hknows vals).set i⟩⟩
  apply eq_of_testBit_eq
  intro i
  rw [testBit_and, zero_testBit]
  -- A bit on both sides would be clear and set in the word.
  cases hz : k.zero.testBit i with
  | false => rfl
  | true =>
    cases ho : k.one.testBit i with
    | false => rfl
    | true =>
      exact absurd ((hknows []).set i ho) (by rw [(hknows []).clear i hz]; exact Bool.false_ne_true)

end SymKnownBits

end

attribute [local instance] KnownTransfer.silent BlockHash.flat ProjectionHash.sum

/-- The upper half is clear, also after a query of the byte. -/
theorem SymKnownBits.query_true_extended : ∃ cache k, Held extendedByte.2 cache ∧
    (query extendedByte.2.ctx cache extendedByte.1 100).1 = some k ∧ k.zero = 0xff00 ∧
    ∀ vals, (extendedByte.2.ctx.eval extendedByte.1 vals).toNat.testBit 15 = false := by
  have hheld := Held.queried (Held.created extendedByte_built) 0 50
  have hsome :
      (query extendedByte.2.ctx (query extendedByte.2.ctx [] 0 50).2.1 extendedByte.1 100).1 =
      some ⟨16, 0xff00, 0⟩ := rfl
  obtain ⟨-, -, htrue⟩ := query_true KnownTransfer.silent_sound hheld hsome
  exact ⟨_, _, hheld, hsome, rfl, fun vals => (htrue vals 15).1 (by decide)⟩

end NeverD.Sym
