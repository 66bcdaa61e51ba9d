import NeverD.Cnf.Conserve

namespace NeverD.Cnf
open Lib NeverD.Sat List Growth Lit SatEngine GateKind

namespace CnfEncoder

variable {R : Type} [FloatArith R] {e : CnfEncoder R}

variable {σ : SatVar → Bool} {l a : SatLit} {ins : List SatLit}

lemma Ok.trueLit_eval (h : e.Ok) (hσ : Models σ e.added) : e.trueLit.eval σ = true := by
  have := hσ _ h.trueLit
  simpa [holds_iff_eval] using this

lemma Ok.trueLit_lt (h : e.Ok) : e.trueLit.var < e.numVars :=
  h.solver.bound _ h.trueLit _ (mem_singleton_self _)

lemma Ok.isTrueLit (h : e.Ok) (hσ : Models σ e.added) (hl : e.isTrueLit l = true) :
    l.eval σ = true := by
  unfold CnfEncoder.isTrueLit at hl
  split at hl
  · rw [decide_eq_true_eq] at hl
    rw [hl]
    exact h.trueLit_eval hσ
  · exact (holds_iff_eval σ l).mp ((h.solver.rootValue hσ).1 (by simpa using hl))

lemma Ok.isFalseLit (h : e.Ok) (hσ : Models σ e.added) (hl : e.isFalseLit l = true) :
    l.eval σ = false := by
  unfold CnfEncoder.isFalseLit at hl
  split at hl
  · rw [decide_eq_true_eq] at hl
    rw [hl, eval_neg, h.trueLit_eval hσ]
    rfl
  · have := (h.solver.rootValue hσ).2 (show e.solver.rootValue l = .false by simpa using hl)
    rw [holds_iff_eval, Bool.not_eq_true] at this
    exact this

omit [FloatArith R] in
theorem isFalseLit_of_isConstant (hc : e.isConstant l = true)
    (hl : e.isTrueLit l = false) : e.isFalseLit l = true := by
  unfold CnfEncoder.isTrueLit at hl
  unfold CnfEncoder.isFalseLit
  unfold CnfEncoder.isConstant at hc
  split at hl
  next hv =>
    rw [decide_eq_false_iff_not] at hl
    rw [if_pos hv, decide_eq_true_eq]
    exact (eq_or_eq_neg hv).resolve_left hl
  next hv =>
    rw [if_neg hv]
    simp only [hv, decide_false, Bool.false_or] at hc
    revert hc hl
    cases e.solver.rootValue l <;> simp

lemma Ok.constant (h : e.Ok) {σ : SatVar → Bool} (hσ : Models σ e.added) (b : Bool) :
    (e.constant b).eval σ = b := by
  rw [CnfEncoder.constant, eval_withPolarity, h.trueLit_eval hσ]
  cases b <;> rfl

lemma Ok.isConstant (h : e.Ok) (hσ : Models σ e.added) (hc : e.isConstant l = true) :
    l.eval σ = e.isTrueLit l := by
  cases hl : e.isTrueLit l with
  | true => exact h.isTrueLit hσ hl
  | false => exact h.isFalseLit hσ (isFalseLit_of_isConstant hc hl)

/-- In every model of the clauses the literal has the value `f`. -/
def Computes (e : CnfEncoder R) (l : SatLit) (f : (SatVar → Bool) → Bool) : Prop :=
  l.var < e.numVars ∧ ∀ σ, Models σ e.added → l.eval σ = f σ

variable {f : (SatVar → Bool) → Bool}

omit [FloatArith R] in
lemma yields_both : e.Yields .both l f ↔ e.Computes l f := by
  simp only [Yields, Computes, GatePolarity.agrees_both]

variable (h : e.Computes l f)
include h

omit [FloatArith R] in
lemma Computes.yields (p : GatePolarity) : e.Yields p l f :=
  ⟨h.1, fun σ hσ => GatePolarity.agrees_of_eq (h.2 σ hσ)⟩

omit [FloatArith R] in
lemma Computes.eval (hσ : Models σ e.added) : l.eval σ = f σ := h.2 σ hσ

omit [FloatArith R] in
lemma Computes.congr {g : (SatVar → Bool) → Bool} (hg : ∀ σ, Models σ e.added → f σ = g σ) :
    e.Computes l g :=
  ⟨h.1, fun σ hσ => (h.2 σ hσ).trans (hg σ hσ)⟩

omit h

omit [FloatArith R] in
lemma Computes.grown {e' : CnfEncoder R} (hg : Grown e e') (h : e.Computes l f) : e'.Computes l f :=
  ⟨lt_of_lt_of_le h.1 hg.vars, fun σ hσ => h.2 σ (hg.models hσ)⟩

lemma computes_pure (hl : l.var < e.numVars) (hf : ∀ σ, Models σ e.added → l.eval σ = f σ) :
    requests.Triple e (pure l) fun l e' => e'.Computes l f :=
  triple_pure fun _ => ⟨hl, hf⟩

lemma gate_triple {kind : GateKind} (hf : kind.Fits ins.length)
    (hb : ∀ l ∈ ins, l.var < e.numVars) (p : GatePolarity) :
    requests.Triple e (gate kind ins p) fun l e' => e'.Gated kind ins p l :=
  Requested.triple fun h => gate_spec h hf hb p

def AndTerms (σ : SatVar → Bool) (ls : List SatLit) : Option (List SatLit) → Prop
  | none => ls.all (Lit.eval σ) = false
  | some out => out.all (Lit.eval σ) = ls.all (Lit.eval σ)

lemma all_eq_false {ls : List SatLit} (hl : l ∈ ls) (hv : l.eval σ = false) :
    ls.all (eval σ) = false := by
  rw [Bool.eq_false_iff, ne_eq, all_eq_true]
  intro hall
  rw [hall l hl] at hv
  cases hv

lemma andTerms_spec (h : e.Ok) (hσ : Models σ e.added) (ls : List SatLit)
    {prev : Option SatLit} {kept : List SatLit} (hp : ∀ x, prev = some x → x ∈ kept) :
    AndTerms σ (kept ++ ls) (e.andTerms ls prev kept) := by
  induction ls generalizing prev kept with
  | nil =>
    rw [append_nil]
    exact rfl
  | cons l ls ih =>
    have hdrop : l.eval σ = true ∨ l ∈ kept →
        (kept ++ l :: ls).all (eval σ) = (kept ++ ls).all (eval σ) := by
      intro hl
      rw [all_append, all_append, all_cons]
      cases hv : l.eval σ with
      | true => rw [Bool.true_and]
      | false =>
        have hmem := hl.resolve_left (by simp [hv])
        rw [all_eq_false hmem hv, Bool.false_and, Bool.false_and]
    have hrec := ih hp
    unfold andTerms
    split
    next ht =>
      revert hrec
      cases e.andTerms ls prev kept <;>
        rw [AndTerms, AndTerms, hdrop (Or.inl (h.isTrueLit hσ ht))] <;> exact id
    · split
      next hf => exact all_eq_false (by simp) (h.isFalseLit hσ hf)
      · split
        next hprev =>
          revert hrec
          cases e.andTerms ls prev kept <;> rw [AndTerms, AndTerms, hdrop (Or.inr (hp l hprev))] <;>
            exact id
        · split
          · -- A literal and its complement cannot both hold.
            rename_i hprev
            have hmem := mem_append_left (l :: ls) (hp _ hprev)
            cases hv : l.eval σ with
            | false => exact all_eq_false (by simp) hv
            | true => exact all_eq_false hmem (by simp [hv])
          · have hnext : ∀ x, some l = some x → x ∈ kept ++ [l] := by
              intro x hx
              rw [Option.some.injEq] at hx
              simp [hx]
            have := ih hnext
            rwa [append_assoc, singleton_append] at this

omit [FloatArith R] in
lemma andTerms_mem (ls : List SatLit) {prev : Option SatLit} {kept out : List SatLit}
    (he : e.andTerms ls prev kept = some out) : ∀ l ∈ out, l ∈ kept ∨ l ∈ ls := by
  induction ls generalizing prev kept with
  | nil =>
    rw [andTerms, Option.some.injEq] at he
    rw [← he]
    exact fun l hl => .inl hl
  | cons x ls ih =>
    have hwiden : ∀ l : SatLit, l ∈ kept ∨ l ∈ ls → l ∈ kept ∨ l ∈ x :: ls :=
      fun l hl => hl.imp_right (mem_cons_of_mem x)
    unfold andTerms at he
    split at he
    · exact fun l hl => hwiden l (ih he l hl)
    · split at he
      · cases he
      · split at he
        · exact fun l hl => hwiden l (ih he l hl)
        · split at he
          · cases he
          · intro l hl
            rcases ih he l hl with hk | hk
            · rcases mem_append.mp hk with hk | hk
              · exact .inl hk
              · rw [mem_singleton] at hk
                exact .inr (hk ▸ mem_cons_self)
            · exact .inr (mem_cons_of_mem x hk)

lemma mem_sortLits {ls : List SatLit} : l ∈ sortLits ls ↔ l ∈ ls := mem_insertionSort _

lemma sortLits_perm (ls : List SatLit) : (sortLits ls).Perm ls :=
  perm_insertionSort _ ls

lemma mkAnd_spec (hb : ∀ l ∈ ins, l.var < e.numVars) (p : GatePolarity) :
    requests.Triple e (mkAnd ins p) fun l e' => e'.Yields p l fun σ => ins.all (eval σ) := by
  apply triple_get_bind
  apply triple_of_ok
  intro hok
  have hspec : ∀ σ, Models σ e.added → AndTerms σ ins (e.andTerms (sortLits ins) none []) := by
    intro σ hσ
    have hs : AndTerms σ ([] ++ sortLits ins) (e.andTerms (sortLits ins) none []) :=
      andTerms_spec hok hσ _ (by simp)
    have hall : ([] ++ sortLits ins).all (eval σ) = ins.all (eval σ) := by
      rw [nil_append, Bool.eq_iff_iff, all_eq_true, all_eq_true]
      simp only [mem_sortLits]
    revert hs
    cases e.andTerms (sortLits ins) none [] <;> rw [AndTerms, AndTerms, hall] <;> exact id
  have hmem : ∀ out, e.andTerms (sortLits ins) none [] = some out →
      ∀ l ∈ out, l.var < e.numVars := by
    intro out he l hl
    have := andTerms_mem _ he l hl
    simp only [not_mem_nil, false_or, mem_sortLits] at this
    exact hb l this
  generalize e.andTerms (sortLits ins) none [] = res at hspec hmem
  match res with
  | none =>
    refine triple_pure fun _ => Computes.yields ⟨?_, fun σ hσ => ?_⟩ p
    · exact hok.trueLit_lt
    · have hfalse : ins.all (eval σ) = false := hspec σ hσ
      rw [CnfEncoder.falseLit, eval_neg, hok.trueLit_eval hσ, hfalse]
      rfl
  | some [] =>
    refine triple_pure fun _ => Computes.yields ⟨hok.trueLit_lt, fun σ hσ => ?_⟩ p
    rw [hok.trueLit_eval hσ]
    exact hspec σ hσ
  | some [l] =>
    refine triple_pure fun _ => Computes.yields ⟨?_, fun σ hσ => ?_⟩ p
    · exact hmem [l] rfl l (mem_singleton_self l)
    · have hone : [l].all (eval σ) = ins.all (eval σ) := hspec σ hσ
      rw [← hone, all_cons, all_nil, Bool.and_true]
  | some (a :: b :: rest) =>
    have hfit : Fits .and (a :: b :: rest).length := trivial
    refine (gate_triple hfit (hmem _ rfl) p).mono fun l e' _ hle hg => ⟨hg.1, fun σ hσ => ?_⟩
    have hterms : (a :: b :: rest).all (eval σ) = ins.all (eval σ) :=
      hspec σ (hle.models hσ)
    have := hg.2 σ hσ
    dsimp only at this
    rwa [gateValue_and, all_map, Function.id_comp, hterms] at this

lemma mkOr_spec (hb : ∀ l ∈ ins, l.var < e.numVars) (p : GatePolarity) :
    requests.Triple e (mkOr ins p) fun l e' => e'.Yields p l fun σ => ins.any (eval σ) := by
  have hneg : ∀ l ∈ ins.map neg, l.var < e.numVars := by
    intro l hl
    obtain ⟨q, hq, rfl⟩ := mem_map.mp hl
    exact hb q hq
  apply triple_bind (mkAnd_spec hneg p.flip)
  intro l e' _ _ hl
  refine triple_pure fun _ => ⟨hl.1, fun σ hσ => ?_⟩
  have hany : ins.any (eval σ) = !(ins.map neg).all (eval σ) := by
    simp [all_map, not_all_eq_any_not, Function.comp_def]
  dsimp only
  rw [eval_neg, hany]
  exact GatePolarity.agrees_flip (hl.2 σ hσ)

variable {b : SatLit}

theorem mkAnd2_spec (ha : a.var < e.numVars) (hb : b.var < e.numVars) :
    requests.Triple e (mkAnd [a, b] .both) fun l e' => e'.Computes l fun σ =>
      a.eval σ && b.eval σ := by
  refine (mkAnd_spec (by simp [ha, hb]) .both).mono fun l e' _ _ hl => ?_
  simpa using yields_both.mp hl

lemma mkOr2_spec (ha : a.var < e.numVars) (hb : b.var < e.numVars) :
    requests.Triple e (mkOr [a, b] .both) fun l e' => e'.Computes l fun σ =>
      a.eval σ || b.eval σ := by
  refine (mkOr_spec (by simp [ha, hb]) .both).mono fun l e' _ _ hl => ?_
  simpa using yields_both.mp hl

lemma Ok.xorRootValue (h : e.Ok) (hσ : Models σ e.added)
    (hv : e.xorRootValue l ≠ .unknown) : l.eval σ = (e.xorRootValue l == .true) := by
  revert hv
  unfold CnfEncoder.xorRootValue
  split
  next hvar =>
    split
    next hl =>
      intro _
      rw [hl, h.trueLit_eval hσ]
      rfl
    next hl =>
      intro _
      rw [(eq_or_eq_neg hvar).resolve_left hl, eval_neg, h.trueLit_eval hσ]
      rfl
  · intro hv
    have hroot := h.solver.rootValue hσ (l := l)
    rw [holds_iff_eval] at hroot
    revert hroot hv
    cases e.solver.rootValue l with
    | true =>
      intro hv hroot
      rw [hroot.1 rfl]
      rfl
    | false =>
      intro hv hroot
      rw [Bool.not_eq_true] at hroot
      rw [hroot.2 rfl]
      rfl
    | unknown => intro hv; exact absurd rfl hv

lemma eval_positive (σ : SatVar → Bool) (l : SatLit) :
    eval σ ⟨l.var, false⟩ = (l.eval σ ^^ l.negated) := by
  simp [eval]

lemma mkXor2_spec (ha : a.var < e.numVars) (hb : b.var < e.numVars) :
    requests.Triple e (mkXor2 a b) fun l e' => e'.Computes l fun σ => a.eval σ ^^ b.eval σ := by
  apply triple_get_bind
  apply triple_of_ok
  intro hok
  split
  next he =>
    refine computes_pure hok.trueLit_lt fun σ hσ => ?_
    rw [CnfEncoder.falseLit, eval_neg, hok.trueLit_eval hσ, he, Bool.xor_self]
    rfl
  · split
    next he =>
      refine computes_pure hok.trueLit_lt fun σ hσ => ?_
      rw [hok.trueLit_eval hσ, he, eval_neg]
      simp
    · dsimp only
      split
      next hav =>
        split
        next hbv =>
          refine computes_pure hok.trueLit_lt fun σ hσ => ?_
          rw [hok.constant hσ, hok.xorRootValue hσ hav, hok.xorRootValue hσ hbv]
          revert hav hbv
          cases e.xorRootValue a <;> cases e.xorRootValue b <;> intro hav hbv <;>
            first | rfl | exact absurd rfl hav | exact absurd rfl hbv
        · refine computes_pure hb fun σ hσ => ?_
          rw [eval_withPolarity, hok.xorRootValue hσ hav]
          revert hav
          cases e.xorRootValue a <;> cases b.eval σ <;> simp
      · split
        next hbv =>
          refine computes_pure ha fun σ hσ => ?_
          rw [eval_withPolarity, hok.xorRootValue hσ hbv]
          revert hbv
          cases e.xorRootValue b <;> cases a.eval σ <;> simp
        · generalize hterms : (if SatLit.index ⟨b.var, false⟩ < SatLit.index ⟨a.var, false⟩ then
            [(⟨b.var, false⟩ : SatLit), ⟨a.var, false⟩] else [⟨a.var, false⟩, ⟨b.var, false⟩]) =
              terms
          have hvars : ∀ l ∈ terms, l.var < e.numVars := by
            rw [← hterms]
            split <;> simp [ha, hb]
          have hvalue : ∀ σ, xorBits (terms.map (eval σ)) =
              ((a.eval σ ^^ a.negated) ^^ (b.eval σ ^^ b.negated)) := by
            intro σ
            rw [← hterms, ← eval_positive, ← eval_positive]
            split <;> simp [xorBits, Bool.xor_comm]
          have hfit : Fits .xor terms.length := trivial
          apply triple_bind (gate_triple hfit hvars .both)
          intro l e' _ _ hl
          refine computes_pure hl.1 fun σ hσ => ?_
          rw [eval_withPolarity, (yields_both.mp hl).eval hσ, gateValue_xor, hvalue]
          cases a.eval σ <;> cases b.eval σ <;> cases a.negated <;> cases b.negated <;> rfl

lemma xorBits_cons (b : Bool) (bs : List Bool) : xorBits (b :: bs) = (b ^^ xorBits bs) := by
  have hfold : ∀ (c : Bool) (bs : List Bool), bs.foldl xor c = (c ^^ xorBits bs) := by
    intro c bs
    induction bs generalizing c with
    | nil => simp [xorBits]
    | cons x bs ih =>
      have hx : xorBits (x :: bs) = (x ^^ xorBits bs) := by
        rw [xorBits, foldl_cons, ih, Bool.false_xor]
      rw [foldl_cons, ih, hx, Bool.xor_assoc]
  rw [xorBits, foldl_cons, hfold]
  simp

lemma xorBits_perm {as bs : List Bool} (h : as.Perm bs) : xorBits as = xorBits bs := by
  induction h with
  | nil => rfl
  | cons x _ ih => rw [xorBits_cons, xorBits_cons, ih]
  | swap x y l =>
    simp only [xorBits_cons]
    rw [← Bool.xor_assoc, ← Bool.xor_assoc, Bool.xor_comm y]
  | trans _ _ ih₁ ih₂ => rw [ih₁, ih₂]

lemma xorBits_concat (as bs : List Bool) : xorBits (as ++ bs) = (xorBits as ^^ xorBits bs) := by
  induction as with
  | nil => simp [xorBits]
  | cons x as ih => rw [cons_append, xorBits_cons, xorBits_cons, ih, Bool.xor_assoc]

lemma xorTerms_spec (h : e.Ok) (hσ : Models σ e.added) (ls : List SatLit)
    (complement : Bool) (terms : List SatLit) : ((e.xorTerms ls complement terms).1 ^^
        xorBits ((e.xorTerms ls complement terms).2.map (eval σ))) =
      ((complement ^^ xorBits (terms.map (eval σ))) ^^ xorBits (ls.map (eval σ))) := by
  induction ls generalizing complement terms with
  | nil => simp [xorTerms, xorBits]
  | cons l ls ih =>
    unfold xorTerms
    rw [map_cons, xorBits_cons]
    split
    next hc =>
      rw [ih, h.isConstant hσ hc]
      cases complement <;> cases e.isTrueLit l <;> simp
    · split
      · rw [ih, map_append, xorBits_concat]
        simp only [map_cons, map_nil, xorBits_cons, eval_neg]
        cases complement <;> cases l.eval σ <;> cases xorBits (terms.map (eval σ)) <;>
          cases xorBits (ls.map (eval σ)) <;> rfl
      · rw [ih, map_append, xorBits_concat]
        simp only [map_cons, map_nil, xorBits_cons]
        cases complement <;> cases l.eval σ <;> cases xorBits (terms.map (eval σ)) <;>
          cases xorBits (ls.map (eval σ)) <;> rfl

omit [FloatArith R] in
lemma xorTerms_vars {n : Nat} (ls : List SatLit) (complement : Bool) (terms : List SatLit)
    (ht : ∀ l ∈ terms, l.var < n) (hl : ∀ l ∈ ls, l.var < n) :
    ∀ l ∈ (e.xorTerms ls complement terms).2, l.var < n := by
  induction ls generalizing complement terms with
  | nil => exact ht
  | cons x ls ih =>
    have hx : x.var < n := hl x mem_cons_self
    have hls : ∀ l ∈ ls, l.var < n := fun l h => hl l (mem_cons_of_mem x h)
    unfold xorTerms
    split
    · exact ih _ _ ht hls
    · split
      · refine ih _ _ (fun l h => ?_) hls
        rcases mem_append.mp h with h | h
        · exact ht l h
        · rw [mem_singleton.mp h]
          exact hx
      · refine ih _ _ (fun l h => ?_) hls
        rcases mem_append.mp h with h | h
        · exact ht l h
        · rw [mem_singleton.mp h]
          exact hx

lemma cancelPairs_spec (σ : SatVar → Bool) (ls : List SatLit) :
    xorBits ((cancelPairs ls).map (eval σ)) = xorBits (ls.map (eval σ)) ∧ ∀ l ∈ cancelPairs ls,
      l ∈ ls := by
  induction ls using cancelPairs.induct with
  | case1 => exact ⟨rfl, fun _ h => h⟩
  | case2 l => exact ⟨rfl, fun _ h => h⟩
  | case3 a rest ih =>
    rw [cancelPairs, if_pos rfl]
    refine ⟨?_, fun l hl => mem_cons_of_mem _ (mem_cons_of_mem _ (ih.2 l hl))⟩
    rw [ih.1, map_cons, map_cons, xorBits_cons, xorBits_cons]
    simp
  | case4 a b rest hne ih =>
    rw [cancelPairs, if_neg hne]
    constructor
    · rw [map_cons, xorBits_cons, ih.1, map_cons, xorBits_cons]
      simp [xorBits_cons]
    · intro l hl
      rcases mem_cons.mp hl with rfl | hl
      · exact mem_cons_self
      · exact mem_cons_of_mem a (ih.2 l hl)

lemma foldlM_mkXor2_spec (ts : List SatLit) {e : CnfEncoder R} {t : SatLit}
    (ht : e.Computes t f) (hts : ∀ l ∈ ts, l.var < e.numVars) :
    requests.Triple e (ts.foldlM mkXor2 t) fun l e' =>
      e'.Computes l fun σ => f σ ^^ xorBits (ts.map (eval σ)) := by
  induction ts generalizing e t f with
  | nil =>
    refine computes_pure ht.1 fun σ hσ => ?_
    rw [ht.2 σ hσ]
    simp [xorBits]
  | cons x ts ih =>
    rw [foldlM_cons]
    apply triple_bind (mkXor2_spec ht.1 (hts x mem_cons_self))
    intro a e₁ _ hle ha
    have hstep : e₁.Computes a fun σ => f σ ^^ x.eval σ :=
      ha.congr fun σ hσ => by rw [ht.eval (hle.models hσ)]
    refine (ih hstep fun l hl => lt_of_lt_of_le (hts l (mem_cons_of_mem x hl))
      hle.vars).mono fun l e₂ _ _ hl => hl.congr fun σ _ => ?_
    rw [map_cons, xorBits_cons, Bool.xor_assoc]

lemma mkXor_spec (hb : ∀ l ∈ ins, l.var < e.numVars) : requests.Triple e (mkXor ins) fun l e' =>
      e'.Computes l fun σ => xorBits (ins.map (eval σ)) := by
  unfold mkXor
  split
  next a b =>
    refine (mkXor2_spec (hb a (by simp)) (hb b (by simp))).mono fun l e' _ _ hl =>
      hl.congr fun σ _ => ?_
    simp [xorBits]
  · apply triple_get_bind
    apply triple_of_ok
    intro hok
    have hspec := fun σ (hσ : Models σ e.added) => xorTerms_spec hok hσ ins false []
    have hvars := xorTerms_vars (e := e) ins false [] (n := e.numVars) (by simp) hb
    generalize e.xorTerms ins false [] = x at hspec hvars
    obtain ⟨complement, terms⟩ := x
    have hterms : ∀ σ, Models σ e.added →
          (complement ^^ xorBits ((cancelPairs (sortLits terms)).map (eval σ))) =
          xorBits (ins.map (eval σ)) := by
      intro σ hσ
      rw [(cancelPairs_spec σ _).1, xorBits_perm ((sortLits_perm terms).map (eval σ))]
      have := hspec σ hσ
      simpa [xorBits] using this
    have hmem : ∀ l ∈ cancelPairs (sortLits terms), l.var < e.numVars :=
      fun l hl => hvars l (mem_sortLits.mp ((cancelPairs_spec (fun _ => false) _).2 l hl))
    dsimp only
    generalize cancelPairs (sortLits terms) = ts at hterms hmem
    split
    · refine computes_pure hok.trueLit_lt fun σ hσ => ?_
      rw [hok.constant hσ, ← hterms σ hσ]
      simp [xorBits]
    next l =>
      refine computes_pure (hmem l (mem_singleton_self l)) fun σ hσ => ?_
      rw [eval_withPolarity, ← hterms σ hσ]
      simp [xorBits, Bool.xor_comm]
    next t rest _ =>
      have ht : e.Computes t fun σ => t.eval σ := ⟨hmem t mem_cons_self, fun _ _ => rfl⟩
      split
      · apply triple_bind (foldlM_mkXor2_spec rest ht fun l hl => hmem l (mem_cons_of_mem t hl))
        intro acc e' _ hle hacc
        refine computes_pure hacc.1 fun σ hσ => ?_
        rw [eval_withPolarity, hacc.eval hσ, ← hterms σ (hle.models hσ), map_cons, xorBits_cons]
        cases complement <;> simp
      · have hfit : Fits .xor (t :: rest).length := trivial
        apply triple_bind (gate_triple hfit hmem .both)
        intro l e' _ hle hl
        refine computes_pure hl.1 fun σ hσ => ?_
        rw [eval_withPolarity, (yields_both.mp hl).eval hσ, gateValue_xor,
          ← hterms σ (hle.models hσ)]
        cases complement <;> simp

lemma mkEquiv_spec (ha : a.var < e.numVars) (hb : b.var < e.numVars) :
    requests.Triple e (mkEquiv a b) fun l e' => e'.Computes l fun σ => a.eval σ == b.eval σ := by
  apply triple_bind (mkXor2_spec ha hb)
  intro l e' _ _ hl
  refine computes_pure hl.1 fun σ hσ => ?_
  rw [eval_neg, hl.eval hσ]
  cases a.eval σ <;> cases b.eval σ <;> rfl

lemma computes_mono {m : Encode R SatLit} {g : (SatVar → Bool) → Bool}
    (h : requests.Triple e m fun l e' => e'.Computes l f) (hg : ∀ σ, Models σ e.added → f σ = g σ) :
    requests.Triple e m fun l e' => e'.Computes l g :=
  h.mono fun _ _ _ hle hl => hl.congr fun σ hσ => hg σ (hle.models hσ)

lemma mkIte_spec {c t x : SatLit} (hc : c.var < e.numVars) (ht : t.var < e.numVars)
    (hx : x.var < e.numVars) :
    requests.Triple e (mkIte c t x) fun l e' => e'.Computes l fun σ => if c.eval σ then t.eval σ
      else x.eval σ := by
  apply triple_get_bind
  apply triple_of_ok
  intro hok
  refine triple_ite (fun h => ?_) fun _ => ?_
  · refine computes_pure ht fun σ hσ => ?_
    rw [hok.isTrueLit hσ h, if_pos rfl]
  refine triple_ite (fun h => ?_) fun _ => ?_
  · refine computes_pure hx fun σ hσ => ?_
    rw [hok.isFalseLit hσ h, if_neg (by simp)]
  refine triple_ite (fun h => ?_) fun _ => ?_
  · refine computes_pure ht fun σ hσ => ?_
    rw [h, ite_self]
  refine triple_ite (fun h => ?_) fun _ => ?_
  · refine computes_mono (mkXor2_spec hc hx) fun σ hσ => ?_
    rw [h, eval_neg]
    cases c.eval σ <;> cases x.eval σ <;> rfl
  refine triple_ite (fun h => ?_) fun _ => ?_
  · refine computes_mono (mkOr2_spec hc hx) fun σ hσ => ?_
    rw [hok.isTrueLit hσ h]
    cases c.eval σ <;> rfl
  refine triple_ite (fun h => ?_) fun _ => ?_
  · refine computes_mono (mkAnd2_spec (by simpa using hc) hx) fun σ hσ => ?_
    rw [hok.isFalseLit hσ h, eval_neg]
    cases c.eval σ <;> rfl
  refine triple_ite (fun h => ?_) fun _ => ?_
  · refine computes_mono (mkOr2_spec (by simpa using hc) ht) fun σ hσ => ?_
    rw [hok.isTrueLit hσ h, eval_neg]
    cases c.eval σ <;> rfl
  refine triple_ite (fun h => ?_) fun _ => ?_
  · refine computes_mono (mkAnd2_spec hc ht) fun σ hσ => ?_
    rw [hok.isFalseLit hσ h]
    cases c.eval σ <;> rfl
  refine triple_ite (fun h => ?_) fun _ => ?_
  · refine computes_mono (mkOr2_spec hc hx) fun σ hσ => ?_
    rw [h]
    cases c.eval σ <;> rfl
  refine triple_ite (fun h => ?_) fun _ => ?_
  · refine computes_mono (mkAnd2_spec (by simpa using hc) hx) fun σ hσ => ?_
    rw [h, eval_neg]
    cases c.eval σ <;> rfl
  refine triple_ite (fun h => ?_) fun _ => ?_
  · refine computes_mono (mkAnd2_spec hc ht) fun σ hσ => ?_
    rw [h]
    cases c.eval σ <;> rfl
  refine triple_ite (fun h => ?_) fun _ => ?_
  · refine computes_mono (mkOr2_spec (by simpa using hc) ht) fun σ hσ => ?_
    rw [h, eval_neg]
    cases c.eval σ <;> rfl
  -- The gate itself, with a positive condition first.
  have hgate : ∀ c t x : SatLit, c.var < e.numVars → t.var < e.numVars → x.var < e.numVars →
      requests.Triple e (if t.negated then (do
          let l ← gate .ite [c, t.neg, x.neg] .both
          pure l.neg : Encode R SatLit)
        else gate .ite [c, t, x] .both) fun l e' =>
          e'.Computes l fun σ => if c.eval σ then t.eval σ else x.eval σ := by
    intro c t x hc ht hx
    split
    · have hfit : Fits .ite [c, t.neg, x.neg].length := rfl
      apply triple_bind (gate_triple hfit (by simp [hc, ht, hx]) .both)
      intro l e' _ _ hl
      refine computes_pure hl.1 fun σ hσ => ?_
      rw [eval_neg, (yields_both.mp hl).eval hσ]
      simp only [map_cons, map_nil, gateValue, eval_neg]
      cases c.eval σ <;> simp
    · have hfit : Fits .ite [c, t, x].length := rfl
      refine (gate_triple hfit (by simp [hc, ht, hx]) .both).mono fun l e' _ _ hl =>
        (yields_both.mp hl).congr fun σ hσ => rfl
  dsimp only
  split
  · refine computes_mono (hgate c.neg x t hc hx ht) fun σ hσ => ?_
    rw [eval_neg]
    cases c.eval σ <;> rfl
  · exact hgate c t x hc ht hx

def majority (a b c : Bool) : Bool := a && b || a && c || b && c

lemma mkMajority_spec {c : SatLit} (ha : a.var < e.numVars) (hb : b.var < e.numVars)
    (hc : c.var < e.numVars) : requests.Triple e (mkMajority a b c) fun l e' =>
      e'.Computes l fun σ => majority (a.eval σ) (b.eval σ) (c.eval σ) := by
  apply triple_get_bind
  apply triple_of_ok
  intro hok
  -- With one operand decided the others are joined or met.
  have hfold : ∀ x y z : SatLit, y.var < e.numVars → z.var < e.numVars →
      e.isConstant x = true → (∀ σ : SatVar → Bool, majority (x.eval σ) (y.eval σ) (z.eval σ) =
        majority (a.eval σ) (b.eval σ) (c.eval σ)) →
      requests.Triple e (if e.isTrueLit x then mkOr [y, z] .both else mkAnd [y, z] .both)
        fun l e' => e'.Computes l fun σ => majority (a.eval σ) (b.eval σ) (c.eval σ) := by
    intro x y z hy hz hx heq
    split
    next ht =>
      refine computes_mono (mkOr2_spec hy hz) fun σ hσ => ?_
      rw [← heq, hok.isTrueLit hσ ht]
      cases y.eval σ <;> cases z.eval σ <;> rfl
    next ht =>
      refine computes_mono (mkAnd2_spec hy hz) fun σ hσ => ?_
      rw [← heq, hok.isFalseLit hσ (isFalseLit_of_isConstant hx (by simpa using ht))]
      cases y.eval σ <;> cases z.eval σ <;> rfl
  refine triple_ite (fun h => ?_) fun _ => ?_
  · exact hfold a b c hb hc h fun σ => rfl
  refine triple_ite (fun h => ?_) fun _ => ?_
  · refine hfold b a c ha hc h fun σ => ?_
    cases a.eval σ <;> cases b.eval σ <;> cases c.eval σ <;> rfl
  refine triple_ite (fun h => ?_) fun _ => ?_
  · refine hfold c a b ha hb h fun σ => ?_
    cases a.eval σ <;> cases b.eval σ <;> cases c.eval σ <;> rfl
  refine triple_ite (fun h => ?_) fun _ => ?_
  · refine computes_pure ha fun σ hσ => ?_
    rw [h]
    cases b.eval σ <;> cases c.eval σ <;> rfl
  refine triple_ite (fun h => ?_) fun _ => ?_
  · refine computes_pure ha fun σ hσ => ?_
    rw [h]
    cases b.eval σ <;> cases c.eval σ <;> rfl
  refine triple_ite (fun h => ?_) fun _ => ?_
  · refine computes_pure hb fun σ hσ => ?_
    rw [h]
    cases a.eval σ <;> cases c.eval σ <;> rfl
  refine triple_ite (fun h => ?_) fun _ => ?_
  · refine computes_pure hc fun σ hσ => ?_
    rw [h, eval_neg]
    cases b.eval σ <;> cases c.eval σ <;> rfl
  refine triple_ite (fun h => ?_) fun _ => ?_
  · refine computes_pure hb fun σ hσ => ?_
    rw [h, eval_neg]
    cases b.eval σ <;> cases c.eval σ <;> rfl
  refine triple_ite (fun h => ?_) fun _ => ?_
  · refine computes_pure ha fun σ hσ => ?_
    rw [h, eval_neg]
    cases a.eval σ <;> cases c.eval σ <;> rfl
  have hperm := sortLits_perm [a, b, c]
  have hfit : Fits .majority (sortLits [a, b, c]).length := hperm.length_eq
  have hvars : ∀ l ∈ sortLits [a, b, c], l.var < e.numVars := by
    intro l hl
    have := mem_sortLits.mp hl
    simp only [mem_cons, not_mem_nil, or_false] at this
    rcases this with rfl | rfl | rfl
    · exact ha
    · exact hb
    · exact hc
  refine (gate_triple hfit hvars .both).mono fun l e' _ _ hl =>
    (yields_both.mp hl).congr fun σ hσ => ?_
  -- A majority only counts its operands.
  have hcount : ∀ bs : List Bool, bs.length = 3 →
      gateValue .majority bs = decide (2 ≤ bs.count true) := by
    intro bs hbs
    obtain ⟨x, y, z, rfl⟩ := length_eq_three.mp hbs
    cases x <;> cases y <;> cases z <;> rfl
  have hvalue := hperm.map (eval σ)
  rw [hcount _ (by rw [hvalue.length_eq]; rfl), hvalue.count_eq, ← hcount _ rfl]
  rfl

lemma mkFullAdder_spec {c : SatLit} (ha : a.var < e.numVars) (hb : b.var < e.numVars)
    (hc : c.var < e.numVars) :
    requests.Triple e (mkFullAdder a b c) fun r e' =>
        e'.Computes r.1 (fun σ => a.eval σ ^^ b.eval σ ^^ c.eval σ) ∧
        e'.Computes r.2 fun σ => majority (a.eval σ) (b.eval σ) (c.eval σ) := by
  apply triple_bind (mkXor_spec (by simp [ha, hb, hc] : ∀ l ∈ [a, b, c], l.var < e.numVars))
  intro sum e₁ _ hle hsum
  apply triple_bind (mkMajority_spec (ha.trans_le hle.vars) (hb.trans_le hle.vars)
    (hc.trans_le hle.vars))
  intro carry e₂ _ hle₂ hcarry
  refine triple_pure fun _ => ⟨(hsum.grown hle₂.toGrown).congr fun σ _ => ?_, hcarry⟩
  simp [xorBits]

end CnfEncoder

end NeverD.Cnf
