import NeverD.Sym.Meaning

namespace NeverD.Sym
open Lib Words List

section

variable [BlockHash] [ProjectionHash] [KnownTransfer] {s t : SymBuilder} {r : SymRef}

/-- What a slice query returns is the slice of the value under every valuation, for every budget. -/
theorem SymContext.constantWindow_exact (hT : KnownTransfer.Sound) (hs : s.Built) {low w : Nat}
    {c : APInt} (vals : List APInt) :
    (∀ budget, (s.ctx.constantWindowWithin r low w budget).1 = some c →
    c = (s.ctx.eval r vals).extractBits w low) ∧
    (s.ctx.constantWindow r low w = some c → c = (s.ctx.eval r vals).extractBits w low) ∧
    ∀ depth remaining, r < s.ctx.nodes.length → low + w ≤ s.ctx.width r →
      (s.ctx.constantBitSlice depth r low w remaining).1 = some c →
      c = (s.ctx.eval r vals).extractBits w low := by
  have h := hs.valid hT
  have heq : r < s.ctx.nodes.length → c.width = w ∧ slice low w (s.ctx.num vals r) = c.toNat →
      c = (s.ctx.eval r vals).extractBits w low := by
    rintro hr ⟨hcw, hc⟩
    refine APInt.ext hcw ?_
    rw [toNat_extractBits, (h.eval_toNat (.refl _) vals ⟨hr, rfl⟩).2, hc]
  have hwithin : ∀ budget, (s.ctx.constantWindowWithin r low w budget).1 = some c →
      c = (s.ctx.eval r vals).extractBits w low := by
    intro budget hc
    have hr : r < s.ctx.nodes.length := by
      by_contra hr
      rw [constantWindowWithin, if_pos (Or.inl (Nat.not_lt.mp hr))] at hc
      cases hc
    exact heq hr (constantWindowWithin_spec (⟨h vals, .refl _⟩) ⟨hr, rfl⟩ hc)
  refine ⟨hwithin, hwithin _, fun depth remaining hr hw hc => ?_⟩
  exact heq hr (constantBitSlice_spec (⟨h vals, .refl _⟩) ⟨hr, rfl⟩ hw hc)

/-- A comparison that is substituted for a network of signs has its value under every valuation. -/
theorem recoverComparison_exact (hT : KnownTransfer.Sound) (hs : s.Built) (vals : List APInt) :
    (∀ n word, word < s.ctx.nodes.length → (recoverSignComparison (builders n) word).run s =
      some (some r, t) → t.ctx.eval r vals = APInt.ofBool (s.ctx.eval word vals).isNegative) ∧
    ∀ n op (rs : List SymRef) (constant : APInt), (op = .and ∨ op = .or ∨ op = .xor) →
      (∀ q ∈ rs, Has s q constant.width) →
      (recoverObservedComparison (builders n) op rs constant).run s = some (some r, t) →
      (t.ctx.eval r vals).width = constant.width ∧ (t.ctx.eval r vals).toNat =
        combine op constant.width (constant.toNat :: rs.map fun q =>
          (s.ctx.eval q vals).toNat) := by
  have h := hs.valid hT
  have hden : ∀ {m : Build (Option SymRef)} {w x : Nat}, m.run s = some (some r, t) →
      (s.ctx.Extends t.ctx → MeansIf t.ctx vals s m w x) →
      (t.ctx.eval r vals).width = w ∧ (t.ctx.eval r vals).toNat = x := by
    intro m w x hrun hm
    have he := m.grows hrun
    obtain ⟨hok, hres⟩ := hm he (h.ok he vals) _ t hrun (.refl _)
    obtain ⟨hr, hnum⟩ := hres r rfl
    rw [hok.typed.toAcyclic.eval_eq vals hr.1]
    exact ⟨(hok.typed.value_width vals hr.1).trans hr.2, hnum⟩
  refine ⟨fun n word hw hrun => ?_, fun n op rs constant hop hrs hrun => ?_⟩
  · obtain ⟨hwidth, hnum⟩ :=
      hden hrun fun _ => meansIf_recoverSignComparison (builders_sound hT _ _ n) ⟨hw, rfl⟩
    obtain ⟨hword, hval⟩ :=
      h.eval_toNat (t := t) ((recoverSignComparison (builders n) word).grows hrun) vals ⟨hw, rfl⟩
    exact APInt.ext hwidth (by rw [hnum, toNat_ofBool, isNegative_eq, hword, hval])
  · obtain ⟨hwidth, hnum⟩ :=
      hden hrun fun _ => meansIf_recoverObservedComparison (builders_sound hT _ _ n) hop hrs rfl
    refine ⟨hwidth, hnum.trans ?_⟩
    congr 2
    apply map_congr_left
    intro q hq
    exact ((h.eval_toNat ((recoverObservedComparison (builders n) op rs constant).grows hrun) vals
      (hrs q hq)).2).symm

end

attribute [local instance] KnownTransfer.silent BlockHash.flat ProjectionHash.sum

/-- The high byte of a zero-extended byte. -/
theorem SymContext.constantWindow_exact_high :
    APInt.zero 8 = (extendedByte.2.ctx.eval extendedByte.1 [APInt.ofNat 8 0x85]).extractBits 8 8 :=
  (constantWindow_exact KnownTransfer.silent_sound extendedByte_built [APInt.ofNat 8 0x85]).2.1
    (by decide)

/-- The signs of `(x & ~y) | (~(x ^ y) & (x - y))`, which is at 10, and of the two sides of the
union. -/
def signNetwork : SymBuilder :=
  (twoVariables.calls 10 [.logic 8 (.mkXor [0, 1]), .logic 8 (.mkNot 2), .arith 8 (.mkSub 0 1),
    .logic 8 (.mkAnd [3, 6]), .logic 8 (.mkNot 1), .logic 8 (.mkAnd [0, 8]),
    .logic 8 (.mkOr [7, 9]),
    .struct (.mkExtract 7 7 1), .struct (.mkExtract 9 7 1)]).get (by decide +kernel)

lemma signNetwork_built : signNetwork.Built := twoVariables_built.calls (Option.some_get _).symm

/-- The union is recovered from the sign of the word, and from the two signs that are observed
through slices. -/
theorem recoverComparison_exact_signs :
    (∃ r t, (recoverSignComparison (builders 10) 10).run signNetwork = some (some r, t) ∧
      ∀ vals, t.ctx.eval r vals = APInt.ofBool (signNetwork.ctx.eval 10 vals).isNegative) ∧
    ∃ r t, (recoverObservedComparison (builders 10) .xor [11, 12] (APInt.zero 1)).run signNetwork =
      some (some r, t) ∧ ∀ vals, (t.ctx.eval r vals).toNat = combine .xor 1
        [0, (signNetwork.ctx.eval 11 vals).toNat, (signNetwork.ctx.eval 12 vals).toNat] := by
  have hruns : ((((recoverSignComparison (builders 10) 10).run signNetwork).bind (·.1)).isSome =
      true ∧
      (((recoverObservedComparison (builders 10) .xor [11, 12] (APInt.zero 1)).run signNetwork).bind
        (·.1)).isSome = true) ∧
      10 < signNetwork.ctx.nodes.length ∧ ∀ q ∈ [11, 12], Has signNetwork q 1 := by decide +kernel
  obtain ⟨⟨hword, hbits⟩, hlt, hhas⟩ := hruns
  obtain ⟨r, hword⟩ := Option.isSome_iff_exists.mp hword
  obtain ⟨⟨_, t⟩, hrun, rfl⟩ := Option.bind_eq_some_iff.mp hword
  obtain ⟨q, hbits⟩ := Option.isSome_iff_exists.mp hbits
  obtain ⟨⟨_, u⟩, hrun', rfl⟩ := Option.bind_eq_some_iff.mp hbits
  refine ⟨⟨r, t, hrun, fun vals => ?_⟩, q, u, hrun', fun vals => ?_⟩
  · exact (recoverComparison_exact KnownTransfer.silent_sound signNetwork_built vals).1 10
      10 hlt hrun
  · exact ((recoverComparison_exact KnownTransfer.silent_sound signNetwork_built vals).2 10 .xor
      [11, 12] (APInt.zero 1) (.inr (.inr rfl)) hhas hrun').2

end NeverD.Sym
