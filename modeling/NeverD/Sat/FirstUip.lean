import NeverD.Sat.Steps

namespace NeverD.Sat
open Lib List

namespace SatEngine

variable {R : Type} {F : List (List SatLit)} {s : SatEngine R}

/-- Every live clause holds, and so does every literal of the root. -/
def DatabaseHolds (s : SatEngine R) (σ : SatVar → Bool) : Prop :=
  (∀ r c, s.arena r = some c → c.deleted = false → ∃ l ∈ c.lits, l.Holds σ) ∧
    ∀ l ∈ s.trail, s.level l.var = 0 → l.Holds σ

lemma Settled.models_of_database {G : List (List SatLit)} {n : Nat} (h : Settled F G [] n s)
    {σ : SatVar → Bool} (hσ : s.DatabaseHolds σ) : Models σ G := by
  intro C hC
  rcases h.covered C hC with ⟨l, hl, hn⟩ | ⟨l, hl, hm, h0⟩ | ⟨r, hr, c, hc, hsub⟩
  · by_cases hh : l.Holds σ
    · exact ⟨l, hl, hh⟩
    · exact ⟨l.neg, hn, by simpa using hh⟩
  · exact ⟨l, hl, hσ.2 l hm h0⟩
  · obtain ⟨c', hc', hd, -⟩ := h.core.db.input r hr
    rw [hc, Option.some.injEq] at hc'
    subst hc'
    obtain ⟨l, hl, hh⟩ := hσ.1 r c hc hd
    exact ⟨l, hsub l hl, hh⟩

variable [FloatArith R]

/-- The clause that is learned names literals of the clause of the first implication point only. -/
theorem analyze_walk {n fuel : Nat} {s' : SatEngine R} {l : Learned} (h : Settled F [] [] n s)
    (ho : s.order.Ok) (hs : ∀ v, s.seen v = false) (hD : 0 < s.decisionLevel) {r : ClauseRef}
    (hr : Falsifies s r) (he : s.analyze fuel r = some (l, s')) :
    ∃ c a s₁, s.arena r = some c ∧
      analyzeWalk s.trail.length (analyzeClause r c c.lits ({}, s)) = some (l.assert.neg, a, s₁) ∧
      ∀ q ∈ l.others, q ∈ a.learnt := by
  obtain ⟨c, pivot, a, s₁, hc, hwalk, hb, hass⟩ := analyze_start h ho hs hD hr
  refine ⟨c, a, s₁, hc, ?_⟩
  unfold analyze at he
  simp only [hc, hwalk] at he
  split at he
  · cases he
  · rename_i kept m hm
    obtain ⟨-, -, -, hsub⟩ := minimize_spec h.core hb hass hm
    simp only [Option.some.injEq, Prod.mk.injEq] at he
    obtain ⟨rfl, -⟩ := he
    exact ⟨by
      rw [hwalk, Lit.neg_neg], fun q hq => hsub.subset ((latestFirst_spec _ kept).1.subset hq)⟩

/-- At a conflict above the root the analysis ends with an entailed, falsified clause, one literal
of the current level in front. It entails every clause between itself and that of the first
implication point, and all marks are gone. -/
theorem Steps.analyze_first_uip {r : ClauseRef} (h : Steps F (some r) s) (hf : s.falsified = false)
    (ho : s.outOfSpace = false) (hD : 0 < s.decisionLevel) (fuel : Nat)
    (hfuel : s.numVars + 1 < fuel) : ∃ l s', s.analyze fuel r = some (l, s') ∧
      Entails F (l.assert :: l.others) ∧
      (∀ σ, s.DatabaseHolds σ → ∃ q ∈ l.assert :: l.others, q.Holds σ) ∧
      (∀ q ∈ l.assert :: l.others, s.litValue q = some false) ∧
      s.level l.assert.var = s.decisionLevel ∧
      (∀ q ∈ l.others, s.level q.var < s.decisionLevel ∧ s.level q.var ≤ l.backtrackLevel) ∧
      (∀ b rest, l.others = b :: rest → s.level b.var = l.backtrackLevel) ∧
      (l.others = [] → l.backtrackLevel = 0) ∧
      (∃ c a s₁, s.arena r = some c ∧
        analyzeWalk s.trail.length (analyzeClause r c c.lits ({}, s)) = some (l.assert.neg, a, s₁) ∧
        (∀ q ∈ l.others, q ∈ a.learnt) ∧ ∀ L, (∀ q ∈ l.others, q ∈ L) → (∀ q ∈ L, q ∈ a.learnt) →
          ∀ σ, s.DatabaseHolds σ → ∃ q ∈ l.assert :: L, q.Holds σ) ∧
      ∀ v, s'.seen v = false := by
  obtain ⟨n, -, hr⟩ := h.stepping
  obtain ⟨hset, hord, hclean, hfal⟩ := hr hf
  obtain ⟨⟨l, s'⟩, he⟩ := analyze_total hset hord.ok hclean hD hfal hfuel
  obtain ⟨hder, hseen, -⟩ := analyze_spec hset hord.ok hclean hD hfal he
  obtain ⟨c, a, s₁, hc, hwalk, hsub⟩ :=
    analyze_walk (hset.mono (fun _ hC => hC) (by simp)) hord.ok hclean hD hfal he
  have hdb : ∀ σ, s.DatabaseHolds σ → ∃ q ∈ l.assert :: l.others, q.Holds σ := by
    intro σ hσ
    have hm := hset.models_of_database hσ
    rw [held, ho] at hm
    exact hder.implied σ hm
  refine ⟨l, s', he, hder.implied, hdb, fun q hq => ?_, hder.level, fun q hq => ?_, hder.head,
    hder.unit, ⟨c, a, s₁, hc, hwalk, hsub, fun L hL _ σ hσ => ?_⟩, hseen⟩
  · rw [hset.core.trail.value_false]
    rcases mem_cons.mp hq with rfl | hq
    · exact hder.mem
    · exact (hder.others q hq).1
  · obtain ⟨-, -, hle⟩ := hder.others q hq
    exact ⟨lt_of_le_of_lt hle hder.back, hle⟩
  · obtain ⟨q, hq, hh⟩ := hdb σ hσ
    exact ⟨q, (mem_cons.mp hq).elim (fun he => he ▸ mem_cons_self) fun hq =>
      mem_cons_of_mem _ (hL q hq), hh⟩

lemma forcedVar_isSome : (eitherVar.addClause 5 [⟨0, false⟩, ⟨1, true⟩]).isSome := by decide

def forcedVar : SatEngine Rat :=
  ((eitherVar.addClause 5 [⟨0, false⟩, ⟨1, true⟩]).get forcedVar_isSome).2

lemma forcedVar_propagate_isSome :
    (propagate 5 (forcedVar.openLevel.enqueue ⟨0, true⟩ none)).isSome := by decide

def conflicting : Option ClauseRef × SatEngine Rat :=
  (propagate 5 (forcedVar.openLevel.enqueue ⟨0, true⟩ none)).get forcedVar_propagate_isSome

lemma conflicting_steps : Steps [[⟨0, false⟩, ⟨1, false⟩], [⟨0, false⟩, ⟨1, true⟩]]
    (some 5) conflicting.2 := by
  have hadd :=
    Steps.addClause eitherVar_run.steps (by decide) (Option.some_get forcedVar_isSome).symm
  have hprop := Steps.propagate (.assume (l := ⟨0, true⟩) hadd (by decide) (by decide)
    (by decide) (by decide)) (by decide) (Option.some_get forcedVar_propagate_isSome).symm
  have hconflict : conflicting.1 = some 5 := by decide
  rwa [← hconflict]

theorem Steps.analyze_first_uip_conflicting : ∃ l s', conflicting.2.analyze 5 5 = some (l, s') ∧
    Entails [[⟨0, false⟩, ⟨1, false⟩], [⟨0, false⟩, ⟨1, true⟩]] (l.assert :: l.others) ∧
      ∀ v, s'.seen v = false := by
  obtain ⟨l, s', he, hent, -, -, -, -, -, -, -, hseen⟩ := conflicting_steps.analyze_first_uip
    (by decide) (by decide) (by decide) 5 (by decide)
  exact ⟨l, s', he, hent, hseen⟩

end SatEngine

end NeverD.Sat
