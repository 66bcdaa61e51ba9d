import NeverD.Sat.Minimize

namespace NeverD.Sat
open Lib List Function Nat

namespace SatEngine

variable {R : Type} {F G : List (List SatLit)} {as : List SatLit} {n : Nat}

def assuming (F : List (List SatLit)) (as : List SatLit) : List (List SatLit) :=
  F ++ as.map fun a => [a]

lemma models_assuming {σ : SatVar → Bool} : Models σ (assuming F as) ↔ Models σ F ∧
    ∀ a ∈ as, a.Holds σ := by
  rw [assuming, models_append, and_congr_right_iff]
  intro _
  simp [Models]

/-- Under the literals gathered so far, some entry below index `i` that is still marked cannot
hold. -/
structure Tracing (F : List (List SatLit)) (t : TrailState) (as : List SatLit) (failed : SatLit)
    (i : Nat) (seen : SatVar → Bool) (out : List SatLit) : Prop where
  refutes : ∀ σ, Models σ F → (∀ a ∈ out, a.Holds σ) → ∃ l ∈ t.trail, ¬ l.Holds σ ∧
    (t.level l.var = 0 ∨ (l ∈ t.trail.take i ∧ seen l.var = true))
  marks : ∀ v, seen v = true → v = failed.var ∨ ∃ l ∈ t.trail.take i, l.var = v ∧ 0 < t.level v
  given : ∀ a ∈ out, a ∈ as

def Traced (F : List (List SatLit)) (as : List SatLit) (failed : SatLit) (seen : SatVar → Bool)
    (out : List SatLit) : Prop :=
  Unsatisfiable (assuming F out) ∧ (∀ a ∈ out, a ∈ as) ∧ ∀ v, seen v = true → v = failed.var

variable {t : TrailState} {d : ClauseDb} {failed : SatLit} {i : Nat} {seen : SatVar → Bool}
    {out : List SatLit}

lemma Tracing.finish (hcore : Core F t d) (h : Tracing F t as failed i seen out)
    (hroot : ∀ l ∈ t.trail.take i, t.level l.var = 0) : Traced F as failed seen out := by
  refine ⟨fun σ hσ => ?_, h.given, fun v hv => ?_⟩
  · rw [models_assuming] at hσ
    obtain ⟨l, hl, hno, hlev⟩ := h.refutes σ hσ.1 hσ.2
    have h0 : t.level l.var = 0 := by
      rcases hlev with h0 | ⟨hm, -⟩
      · exact h0
      · exact hroot l hm
    have := hcore.root_entailed hl h0 σ hσ.1
    simp only [clauseHolds_cons, clauseHolds_nil, or_false] at this
    exact hno this
  · rcases h.marks v hv with rfl | ⟨l, hl, rfl, hpos⟩
    · rfl
    · have := hroot l hl
      omega

theorem Tracing.skip {l : SatLit} (h : Tracing F t as failed (i + 1) seen out)
    (hi : t.trail[i]? = some l) (hl : seen l.var = false) : Tracing F t as failed i seen out := by
  have htake : t.trail.take (i + 1) = t.trail.take i ++ [l] := by
    rw [take_add_one, hi]
    rfl
  refine ⟨fun σ hσ hout => ?_, fun v hv => ?_, h.given⟩
  · obtain ⟨x, hx, hno, hlev⟩ := h.refutes σ hσ hout
    refine ⟨x, hx, hno, hlev.imp id ?_⟩
    rintro ⟨hm, hs⟩
    rw [htake, mem_append, mem_singleton] at hm
    rcases hm with hm | rfl
    · exact ⟨hm, hs⟩
    · rw [hl] at hs
      cases hs
  · rcases h.marks v hv with rfl | ⟨x, hx, rfl, hpos⟩
    · exact .inl rfl
    · rw [htake, mem_append, mem_singleton] at hx
      rcases hx with hx | rfl
      · exact .inr ⟨x, hx, rfl, hpos⟩
      · rw [hl] at hv
        cases hv

theorem Tracing.step {l : SatLit} {seen' : SatVar → Bool} {out' : List SatLit}
    (ht : t.Ok) (h : Tracing F t as failed (i + 1) seen out) (hi : t.trail[i]? = some l)
    (hmono : ∀ v ≠ l.var, seen v = true → seen' v = true)
    (hmarks : ∀ v, seen' v = true → (v ≠ l.var ∧ seen v = true) ∨ ∃ x ∈ t.trail.take i, x.var = v ∧
    0 < t.level v) (hout : ∀ a ∈ out, a ∈ out') (hgiven : ∀ a ∈ out', a ∈ as)
    (hl : ∀ σ, Models σ F → (∀ a ∈ out', a.Holds σ) → ¬ l.Holds σ → ∃ x ∈ t.trail, ¬ x.Holds σ ∧
      (t.level x.var = 0 ∨ (x ∈ t.trail.take i ∧ seen' x.var = true))) :
        Tracing F t as failed i seen' out' := by
  have htake : t.trail.take (i + 1) = t.trail.take i ++ [l] := by
    rw [take_add_one, hi]
    rfl
  refine ⟨fun σ hσ hσo => ?_, fun v hv => ?_, hgiven⟩
  · obtain ⟨x, hx, hno, hlev⟩ := h.refutes σ hσ fun a ha => hσo a (hout a ha)
    rcases hlev with h0 | ⟨hm, hs⟩
    · exact ⟨x, hx, hno, .inl h0⟩
    · rw [htake, mem_append, mem_singleton] at hm
      rcases hm with hm | rfl
      · have hne : x.var ≠ l.var := by
          intro he
          obtain ⟨j, hj⟩ := mem_iff_getElem?.mp hm
          obtain ⟨hji, hj'⟩ := TrailState.getElem?_take_some hj
          have := ht.index_unique hj' hi he
          omega
        exact ⟨x, hx, hno, .inr ⟨hm, hmono _ hne hs⟩⟩
      · exact hl σ hσ hσo hno
  · rcases hmarks v hv with ⟨hne, hs⟩ | hx
    · rcases h.marks v hs with rfl | ⟨x, hx, rfl, hpos⟩
      · exact .inl rfl
      · rw [htake, mem_append, mem_singleton] at hx
        rcases hx with hx | rfl
        · exact .inr ⟨x, hx, rfl, hpos⟩
        · exact absurd rfl hne
    · exact .inr hx

lemma foldl_marks (level : SatVar → Nat) (lits : List SatLit) (f : SatVar → Bool) (v : SatVar) :
    lits.foldl (fun m q => if 0 < level q.var then Function.update m q.var true else m) f v = true ↔
      f v = true ∨ ∃ q ∈ lits, q.var = v ∧ 0 < level v := by
  induction lits generalizing f with
  | nil => simp
  | cons q lits ih =>
    rw [foldl_cons, ih]
    split
    next hq =>
      by_cases hv : v = q.var
      · subst hv
        simp [hq]
      · have hv' : q.var ≠ v := fun he => hv he.symm
        simp [update_of_ne hv, hv']
    next hq =>
      constructor
      · rintro (h | ⟨x, hx, rfl, hpos⟩)
        · exact .inl h
        · exact .inr ⟨x, mem_cons_of_mem _ hx, rfl, hpos⟩
      · rintro (h | ⟨x, hx, rfl, hpos⟩)
        · exact .inl h
        · rcases mem_cons.mp hx with rfl | hx
          · exact absurd hpos hq
          · exact .inr ⟨x, hx, rfl, hpos⟩

lemma finalWalk_spec {s : SatEngine R} {bound : Nat} {rest : List Nat}
    (hcore : Core F s.toTrailState s.toClauseDb) (hdec : Decided as s.toTrailState)
    (hlim : s.trailLim = bound :: rest) (hD : s.decisionLevel < as.length) (i : Nat)
    (h : Tracing F s.toTrailState as failed i seen out) (hi : i ≤ s.trail.length) :
    ∃ seen' out', s.finalWalk bound i seen out = some (seen', out') ∧
      Traced F as failed seen' out' := by
  have hroot : ∀ k ≤ bound, ∀ l ∈ s.trail.take k, s.level l.var = 0 := by
    intro k hk l hl
    obtain ⟨j, hj⟩ := mem_iff_getElem?.mp hl
    obtain ⟨hjk, hj'⟩ := TrailState.getElem?_take_some hj
    rw [hcore.trail.level j l hj', countP_eq_zero]
    intro x hx
    have hsorted := hcore.trail.sorted
    rw [hlim, pairwise_cons] at hsorted
    rw [hlim] at hx
    have hbx : bound ≤ x := by
      rcases mem_cons.mp hx with rfl | hx
      · exact le_rfl
      · exact hsorted.1 x hx
    simp
    omega
  induction i generalizing seen out with
  | zero => exact ⟨seen, out, rfl, h.finish hcore (hroot 0 (Nat.zero_le _))⟩
  | succ i ih =>
    unfold finalWalk
    split
    next hlt => exact ⟨seen, out, rfl, h.finish hcore (hroot (i + 1) hlt)⟩
    · obtain ⟨l, hl⟩ : ∃ l, s.trail[i]? = some l := ⟨_, getElem?_eq_getElem hi⟩
      have hlt : l ∈ s.trail := mem_iff_getElem?.mpr ⟨i, hl⟩
      simp only [hl]
      cases hs : seen l.var with
      | false =>
        simp only [Bool.not_false, if_true]
        exact ih (h.skip hl hs) (le_of_succ_le hi)
      | true =>
        simp only [Bool.not_true, Bool.false_eq_true, if_false]
        have hkeep : ∀ v ≠ l.var, seen v = true → Function.update seen l.var false v = true := by
          intro v hv hseen
          rw [update_of_ne hv, hseen]
        have hback : ∀ v, Function.update seen l.var false v = true → v ≠ l.var ∧
            seen v = true := by
          intro v hv
          by_cases he : v = l.var
          · rw [he, update_self] at hv
            cases hv
          · rw [update_of_ne he] at hv
            exact ⟨he, hv⟩
        cases hr : s.reason l.var with
        | none =>
          simp only
          refine ih (h.step hcore.trail hl hkeep (fun v hv => .inl (hback v hv)) ?_ ?_ ?_)
            (le_of_succ_le hi)
          · intro a ha
            split
            · exact mem_append_left _ ha
            · exact ha
          · intro a ha
            split at ha
            next hpos =>
              rcases mem_append.mp ha with ha | ha
              · exact h.given a ha
              · rw [mem_singleton] at ha
                subst ha
                -- A decision below the last assumption level is an assumption.
                obtain ⟨k, hk⟩ : ∃ k, s.level a.var = k + 1 := ⟨_, (succ_pred_eq_of_pos hpos).symm⟩
                have hle := hcore.trail.level_le hlt
                have hka : as[k]? = some (as.get ⟨k, by omega⟩) :=
                  getElem?_eq_getElem (by omega)
                rw [hdec.source a hlt hr k _ hk hka]
                exact get_mem _ _
            · exact h.given a ha
          · intro σ hσ hout hno
            split at hout
            · exact absurd (hout l (mem_append_right _ (mem_singleton_self l))) hno
            next hpos => exact ⟨l, hlt, hno, .inl (by omega)⟩
        | some r =>
          obtain ⟨c, hc, -, hl0, hrest⟩ := hcore.reasons.forced i l r hl hr
          simp only [hc]
          refine ih (h.step hcore.trail hl ?_ ?_ (fun a ha => ha) h.given ?_) (le_of_succ_le hi)
          · intro v hv hseen
            rw [foldl_marks]
            exact .inl (hkeep v hv hseen)
          · intro v hv
            rw [foldl_marks] at hv
            rcases hv with hv | ⟨q, hq, rfl, hpos⟩
            · exact .inl (hback v hv)
            · exact .inr ⟨q.neg, hrest q hq, rfl, hpos⟩
          · intro σ hσ _ hno
            obtain ⟨q, hq, hqh⟩ := hcore.stored r c hc σ hσ
            rcases mem_cons.mp hq with rfl | hq
            · exact absurd (hl0 ▸ hqh) hno
            · have hqt := hrest q hq
              refine ⟨q.neg, mem_of_mem_take hqt, by simpa using hqh, ?_⟩
              by_cases h0 : s.level q.var = 0
              · exact .inl h0
              · refine .inr ⟨hqt, ?_⟩
                rw [foldl_marks]
                exact .inr ⟨q, hq, rfl, Nat.pos_of_ne_zero h0⟩

lemma analyzeFinal_spec {s : SatEngine R} (h : Settled F G as n s) (hs : ∀ v, s.seen v = false)
    (hf : failed ∈ as) (hfalse : failed.neg ∈ s.trail) (hD : s.decisionLevel < as.length) :
    ∃ sn out, s.analyzeFinal failed = some { s with seen := sn, failedAssumptions := out } ∧
      (∀ v, sn v = false) ∧ (∀ a ∈ out, a ∈ as) ∧ Unsatisfiable (assuming F out) := by
  unfold analyzeFinal
  split
  next hlim =>
    refine ⟨s.seen, [failed], rfl, hs, by simpa using hf, fun σ hσ => ?_⟩
    rw [models_assuming] at hσ
    have h0 : s.level failed.neg.var = 0 := by
      have := h.core.trail.level_le hfalse
      rw [TrailState.decisionLevel, hlim] at this
      exact le_zero.mp this
    have := h.core.root_entailed hfalse h0 σ hσ.1
    simp only [clauseHolds_cons, clauseHolds_nil, or_false, Lit.holds_neg] at this
    exact this (hσ.2 failed (mem_singleton_self failed))
  next bound rest hlim =>
    have hstart : Tracing F s.toTrailState as failed s.trail.length
        (Function.update s.seen failed.var true) [failed] := by
      refine ⟨fun σ hσ hout => ⟨failed.neg, hfalse, ?_, .inr ⟨?_, ?_⟩⟩,
        fun v hv => ?_, by simpa using hf⟩
      · simpa using hout failed (mem_singleton_self failed)
      · rw [take_length]
        exact hfalse
      · exact update_self ..
      · by_cases hv' : v = failed.var
        · exact .inl hv'
        · rw [update_of_ne hv', hs v] at hv
          cases hv
    obtain ⟨sn, out, he, h1, h2, h3⟩ :=
      finalWalk_spec h.core h.decided hlim hD s.trail.length hstart le_rfl
    rw [he]
    refine ⟨_, out, rfl, fun v => ?_, h2, h1⟩
    by_cases hv : v = failed.var
    · rw [hv, update_self]
    · rw [update_of_ne hv]
      cases hsv : sn v with
      | false => rfl
      | true => exact absurd (h3 v hsv) hv

end SatEngine

end NeverD.Sat
