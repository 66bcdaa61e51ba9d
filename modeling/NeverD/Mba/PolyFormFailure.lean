import NeverD.Mba.PolyFormReject

namespace NeverD.Mba
open Lib NeverD.Sym
open Lib.Minterms Lib.Monomials Spends List Function

variable {α : Type} {coeff : BitVec w} {ms : List Nat} {seen : List PolyTerm} {c : WorkBudget}
  {units : Nat} {b : WorkBudget} {choices : List (List Nat)}

section

variable {ctx : SymContext} {atomIds : List Nat} {w : Nat} {bits : SymRef → Nat → Bool}
    {terms : List PolyTerm}

structure SumReads (n : Nat) (bits : SymRef → Nat → Bool) (check : Bool) (d : Nat)
    (seen : List PolyTerm) (st : Admission w) : Prop where
  first : check = true → ExtremeOf (fun a b => decide (a < b)) n bits seen st.first
  last : check = true → ExtremeOf (fun a b => decide (b < a)) n bits seen st.last
  diagonal : check = true →
    ∀ m < 2 ^ n, st.diagonal m = coefficientMap w n bits seen (List.replicate d m)

lemma sumReads_start {n d : Nat} {check : Bool} :
    SumReads n bits check d [] ({} : Admission w) where
  first _ := extremeOf_start
  last _ := extremeOf_start
  diagonal _ _ _ := rfl

lemma ends_noteDiagonal {coeff : BitVec w} {ms : List Nat} (hms : ms.Nodup) (out : Row w) :
    Ends (noteDiagonal w coeff ms out) fun out' => ∀ m, out' m = out m + if m ∈ ms then coeff
      else 0 := by
  induction ms generalizing out with
  | nil =>
    apply ends_pure
    intro m
    rw [if_neg not_mem_nil, add_zero]
  | cons x ms ih =>
    obtain ⟨hx, hms⟩ := nodup_cons.mp hms
    refine ends_bind ends_any ?_
    intro _ _ budget out' left hrun m
    rw [ih hms _ budget out' left hrun m]
    by_cases hm : m = x
    · rw [hm, update_self, if_neg hx, if_pos mem_cons_self, add_zero]
    · rw [update_of_ne hm]
      congr 1
      exact if_congr (by rw [mem_cons, or_iff_right hm]) rfl rfl

lemma fails_noteDiagonal {coeff : BitVec w} {ms : List Nat} (out : Row w) :
    Fails (noteDiagonal w coeff ms out) fun c => c.exhausted = true := by
  induction ms generalizing out with
  | nil => exact fails_pure
  | cons x ms ih => exact fails_bind (fails_consume _) ends_any fun _ _ => ih _

variable {t : PolyTerm} {st : Admission w}

lemma fails_noteTerm {check : Bool} {scan : FactorScan} :
    Fails (noteTerm w check t scan st) fun c => c.exhausted = true := by
  refine fails_ite (fun _ => ?_) fun _ => fails_pure
  exact fails_bind (fails_noteDiagonal _) ends_any fun _ _ =>
    fails_bind (fails_consume _) ends_any fun _ _ => fails_pure

theorem productMap_replicate {n : Nat} {c : BitVec w} (m : Nat) :
    productMap c (choicesOf n bits t) (List.replicate t.factors.length m) =
      if ∀ f ∈ t.factors, m ∈ mintermsOf n bits f then c else 0 := by
  have hlen : t.factors.length = (choicesOf n bits t).length := (length_map ..).symm
  have hnodup : ∀ s ∈ choicesOf n bits t, s.Nodup :=
    fun s hs => (choicesOf_lt s hs).imp fun h => h.ne
  have hcount := count_replicate hnodup m
  have hall : (∀ s ∈ choicesOf n bits t, m ∈ s) ↔ ∀ f ∈ t.factors, m ∈ mintermsOf n bits f :=
    forall_mem_map
  rw [hlen, productMap, hcount]
  by_cases h : ∀ f ∈ t.factors, m ∈ mintermsOf n bits f
  · rw [if_pos (hall.mpr h), if_pos h]
    exact mul_one c
  · rw [if_neg (mt hall.mp h), if_neg h]
    exact mul_zero c

lemma SumReads.skip {n d : Nat} {check : Bool} {seen : List PolyTerm} {st : Admission w}
    (h : SumReads n bits check d seen st) {t : PolyTerm}
    (ht : monomials (choicesOf n bits t) = []) : SumReads n bits check d (seen ++ [t]) st where
  first hc := (h.first hc).skip ht
  last hc := (h.last hc).skip ht
  diagonal hc m hm := by
    rw [h.diagonal hc m hm, coefficientMap_append,
      productMap_of_notMem (by rw [ht]; exact not_mem_nil), add_zero]

lemma ends_noteTerm {n d : Nat} {check : Bool} {seen : List PolyTerm}
    {scan : FactorScan} (h : SumReads n bits check d seen st)
    (hscan : ScanReads n bits check t.factors scan)
    (hzero : scan.zeroProduct = false) (hd : check = true → t.factors.length = d ∧ 2 ≤ d ∧
    2 ^ n ≤ 64) : Ends (noteTerm w check t scan st) fun st' =>
      st'.pending = st.pending ∧ SumReads n bits check d (seen ++ [t]) st' := by
  apply ends_ite
  · intro hc
    obtain ⟨hlen, hd2, hn⟩ := hd hc
    have hne : t.factors ≠ [] := by
      rintro hnil
      rw [hnil] at hlen
      simp only [length_nil] at hlen
      omega
    have hfull : ∀ s ∈ choicesOf n bits t, s ≠ [] := forall_mem_map.mpr (hscan.full hzero)
    have hkey : ∀ {xs : List Nat}, xs.length = t.factors.length → sorted xs ≠ [] := by
      intro xs hxs hnil
      have hlength := (sorted_perm xs).length_eq
      rw [hnil, hxs] at hlength
      exact hne (length_eq_zero_iff.mp hlength.symm)
    refine ends_bind (ends_noteDiagonal (nodup_range.filter _) _) ?_
    intro diagonal hdiag
    refine ends_bind ends_any fun _ _ => ends_pure ⟨rfl, ?_, ?_, ?_⟩
    · intro _
      have hfirst := extreme_first hfull choicesOf_lt
      apply (h.first hc).note strict_lt
      · exact hkey (by rw [hscan.low hc hzero, length_map])
      · rw [hscan.low hc hzero]
        simpa [choicesOf, mintermsOf, map_map, comp_def] using hfirst
    · intro _
      have hlast := extreme_last hfull choicesOf_lt
      apply (h.last hc).note strict_gt
      · exact hkey (by rw [hscan.high hc hzero, length_map])
      · rw [hscan.high hc hzero]
        simpa [choicesOf, mintermsOf, map_map, comp_def] using hlast
    · intro _ m hm
      dsimp only
      rw [hdiag, h.diagonal hc m hm, coefficientMap_append, ← hlen, productMap_replicate]
      congr 1
      apply if_congr _ rfl rfl
      rw [mem_filter, mem_range, hscan.diagonal hc hzero m hm]
      exact and_iff_right (hm.trans_le hn)
  · intro hc
    exact ends_pure ⟨rfl, fun h => absurd h hc, fun h => absurd h hc, fun h => absurd h hc⟩

/-- The work is more than the budget has left, or more than can be counted. -/
def DoesNotFit (size : Nat) (c : WorkBudget) : Prop :=
  sizeMax < size ∨ (c.unlimited = false ∧ c.remaining < size)

def RunsOut (size : Nat) (c : WorkBudget) : Prop := c.exhausted = true ∨ DoesNotFit size c

lemma RunsOut.mono {m n : Nat} (hmn : m ≤ n) (h : RunsOut m c) : RunsOut n c :=
  h.imp_right fun h => h.imp (fun hm => hm.trans_le hmn) fun hm => ⟨hm.1, hm.2.trans_le hmn⟩

lemma fails_imp {m : Spends α} {P Q : WorkBudget → Prop} (h : Fails m P) (hPQ : ∀ c, P c → Q c) :
    Fails m Q := fun b c hrun => hPQ c (h b c hrun)

lemma fails_runsOut {m : Spends α} (h : Fails m fun c => c.exhausted = true) (size : Nat) :
    Fails m (RunsOut size) := fails_imp h fun _ hc => .inl hc

theorem fails_budget {f : WorkBudget → Spends α} {P : WorkBudget → Prop}
    (h : ∀ b c, (f b).run b = (none, c) → P c) : Fails (budget >>= f) P := by
  intro b c hrun
  rw [run_bind] at hrun
  exact h b c hrun

lemma run_rejectWork {optional : Bool} {units : Nat}
    (h : (rejectWork optional units : Spends α).run b = (none, c)) :
    c = b ∨ c = (b.consume units).2 := by
  unfold rejectWork at h
  cases optional with
  | true =>
    rw [if_pos rfl] at h
    cases h
    exact .inl rfl
  | false =>
    rw [if_neg Bool.false_ne_true, run_bind] at h
    cases h
    exact .inr rfl

lemma canConsume_false (h : ¬ b.canConsume units = true) :
    b.unlimited = false ∧ b.remaining < units := by
  rw [WorkBudget.canConsume, Bool.or_eq_true, not_or, decide_eq_true_eq, Bool.not_eq_true] at h
  exact ⟨h.1, not_le.mp h.2⟩

theorem runsOut_reject {size need : Nat} (hneed : need ≤ size)
    (hb : b.unlimited = false ∧ b.remaining < need) (hunits : need ≤ units ∨ sizeMax ≤ units)
    (hc : c = b ∨ c = (b.consume units).2) : RunsOut size c := by
  rcases hc with rfl | rfl
  · exact .inr (.inr ⟨hb.1, hb.2.trans_le hneed⟩)
  · by_cases hmore : units > b.remaining
    · left
      rw [WorkBudget.consume, if_neg (by rw [hb.1]; exact Bool.false_ne_true), if_pos hmore]
    · right
      left
      omega

variable {n d : Nat} {check optional : Bool}

/-- The products of a term fit, and what is known of the sum grows by the term. -/
structure AdmissionReads (n : Nat) (bits : SymRef → Nat → Bool) (check : Bool) (d : Nat)
    (seen : List PolyTerm) (st : Admission w) : Prop extends SumReads n bits check d seen st where
  pending : st.pending ≤ expansionSize n bits seen

lemma Bitwise.ends_scan (h : Bitwise ctx atomIds w bits terms) (hids : atomIds.Nodup)
    (hn : atomIds.length ≤ kMaxTruthTableAtoms) (ht : t ∈ terms) (hmany : ¬ t.factors.length < 2)
    (pending : Nat) : Ends (t.factors.foldlM (scanFactor ctx atomIds check pending t) {})
      (ScanReads atomIds.length bits check t.factors) := by
  apply ends_foldlM_along
  · intro seen f rest heq scan hscan
    exact h.ends_scanFactor hids hn ht hmany (heq ▸ mem_append_right _ mem_cons_self) pending hscan
  · exact scanReads_start

lemma Bitwise.fails_scan (h : Bitwise ctx atomIds w bits terms)
    (hn : atomIds.length ≤ kMaxTruthTableAtoms) (check : Bool) (ht : t ∈ terms) (pending : Nat) :
    Fails (t.factors.foldlM (scanFactor ctx atomIds check pending t) {}) fun c => c.exhausted =
      true := by
  refine fails_foldlM_along (I := fun _ _ => True) t.factors (fun _ _ _ _ _ _ => ends_any)
    ?_ trivial
  intro seen f rest heq scan _
  exact h.fails_scanFactor hn ht (heq ▸ mem_append_right _ mem_cons_self) pending scan

lemma expansionSize_single (hmany : ¬ t.factors.length < 2) : expansionSize n bits [t] =
    (t.factors.map fun f => (mintermsOf n bits f).length).prod := by
  rw [expansionSize, map_singleton, sum_singleton, if_neg hmany, choicesOf, map_map]
  rfl

lemma choicesOf_empty (h : ∃ f ∈ t.factors, mintermsOf n bits f = []) :
    monomials (choicesOf n bits t) = [] := by
  obtain ⟨f, hf, hnil⟩ := h
  exact monomials_eq_nil (mem_map.mpr ⟨f, hf, hnil⟩)

lemma Bitwise.ends_admitTerm (h : Bitwise ctx atomIds w bits terms) (hids : atomIds.Nodup)
    (hn : atomIds.length ≤ kMaxTruthTableAtoms)
    (hd : check = true → ∀ t ∈ terms, t.factors.length = d ∧ 2 ≤ d ∧ 2 ^ atomIds.length ≤ 64)
    (ht : t ∈ terms) (hst : AdmissionReads atomIds.length bits check d seen st) :
    Ends (admitTerm ctx atomIds w check optional st t)
      (AdmissionReads atomIds.length bits check d (seen ++ [t])) := by
  -- A term that is not a product cannot be among those that are checked.
  have hfew : t.factors.length < 2 → ¬ check = true := by
    intro hlt hc
    have hlen := hd hc t ht
    omega
  have hgrow : expansionSize atomIds.length bits seen ≤ expansionSize atomIds.length bits
      (seen ++ [t]) := by
    rw [expansionSize_append]
    exact Nat.le_add_right _ _
  have hstill : t.factors.length < 2 →
      AdmissionReads atomIds.length bits check d (seen ++ [t]) st := fun hlt =>
    ⟨⟨fun hc =>
      absurd hc (hfew hlt), fun hc => absurd hc (hfew hlt), fun hc => absurd hc (hfew hlt)⟩,
      hst.pending.trans hgrow⟩
  apply ends_ite
  · intro hnil
    exact ends_pure (hstill (by rw [hnil]; exact Nat.zero_lt_two))
  · intro _
    by_cases hmany : t.factors.length < 2
    · refine ends_bind ends_any ?_
      intro scan _
      rw [if_pos (Or.inl hmany)]
      exact ends_pure (hstill hmany)
    · refine ends_bind (h.ends_scan hids hn ht hmany st.pending) ?_
      intro scan hscan
      cases hzero : scan.zeroProduct with
      | true =>
        rw [if_pos (Or.inr rfl)]
        exact ends_pure ⟨hst.skip (choicesOf_empty (hscan.empty hzero)), hst.pending.trans hgrow⟩
      | false =>
        rw [if_neg (not_or.mpr ⟨hmany, Bool.false_ne_true⟩)]
        refine ends_bind (ends_noteTerm hst.toSumReads hscan hzero fun hc => hd hc t ht) ?_
        intro st' ⟨hpending, hsum⟩
        refine ends_bind ends_any ?_
        intro b _
        apply ends_ite
        · intro _
          exact ends_ite (fun _ => ends_refuse) fun _ => ends_bind ends_any fun _ _ => ends_refuse
        · intro _
          apply ends_pure
          refine ⟨⟨hsum.first, hsum.last, hsum.diagonal⟩, ?_⟩
          rw [expansionSize_append, expansionSize_single hmany, hpending]
          exact Nat.add_le_add hst.pending (hscan.size hzero).2

lemma Bitwise.fails_admitTerm (h : Bitwise ctx atomIds w bits terms) (hids : atomIds.Nodup)
    (hn : atomIds.length ≤ kMaxTruthTableAtoms)
    (hd : check = true → ∀ t ∈ terms, t.factors.length = d ∧ 2 ≤ d ∧ 2 ^ atomIds.length ≤ 64)
    {rest : List PolyTerm} (heq : seen ++ t :: rest = terms)
    (hst : AdmissionReads atomIds.length bits check d seen st) :
    Fails (admitTerm ctx atomIds w check optional st t)
      (RunsOut (expansionSize atomIds.length bits terms)) := by
  have ht : t ∈ terms := heq ▸ mem_append_right _ mem_cons_self
  refine fails_ite (fun _ => fails_pure) fun _ => ?_
  have hscans :=
    fails_runsOut (h.fails_scan hn check ht st.pending) (expansionSize atomIds.length bits terms)
  by_cases hmany : t.factors.length < 2
  · refine fails_bind hscans ends_any ?_
    intro scan _
    rw [if_pos (Or.inl hmany)]
    exact fails_pure
  · refine fails_bind hscans (h.ends_scan hids hn ht hmany st.pending) ?_
    intro scan hscan
    refine fails_ite (fun _ => fails_pure) ?_
    intro hfull
    have hzero : scan.zeroProduct = false := Bool.eq_false_of_not_eq_true (not_or.mp hfull).2
    refine fails_bind (fails_runsOut fails_noteTerm _)
      (ends_noteTerm hst.toSumReads hscan hzero fun hc => hd hc t ht) ?_
    intro st' ⟨hpending, _⟩
    apply fails_budget
    intro b c hrun
    have hsize : st'.pending + scan.productSize ≤ expansionSize atomIds.length bits terms := by
      have happend : terms = (seen ++ [t]) ++ rest := by rw [← heq, append_assoc]; rfl
      rw [happend, expansionSize_append, expansionSize_append, expansionSize_single hmany, hpending]
      have hle := Nat.add_le_add hst.pending (hscan.size hzero).2
      omega
    by_cases hover : scan.productSize > sizeMax - st'.pending ∨
      ¬ b.canConsume (st'.pending + scan.productSize) = true
    · rw [if_pos hover] at hrun
      by_cases hcount : scan.productSize > sizeMax - st'.pending
      · exact .inr (.inl (by omega))
      · exact runsOut_reject hsize (canConsume_false (hover.resolve_left hcount)) (.inr le_rfl)
          (run_rejectWork hrun)
    · rw [if_neg hover] at hrun
      cases hrun

end

section

variable {ctx : SymContext} {atomIds : List Nat} {w : Nat} {bits : SymRef → Nat → Bool}
    {terms : List PolyTerm}

/-- The minterms of some functions of the atoms. -/
def functionChoices (n : Nat) (fs : List (Nat → Bool)) : List (List Nat) :=
  fs.map fun g => (List.range (2 ^ n)).filter g

/-- The sum has the coefficients of one scaled product of functions of the atoms. -/
def IsProduct (w n : Nat) (bits : SymRef → Nat → Bool) (terms : List PolyTerm) : Prop :=
  ∃ (c : BitVec w) (fs : List (Nat → Bool)), ∀ k,
    coefficientMap w n bits terms k = productMap c (functionChoices n fs) k

lemma functionChoices_lt {n : Nat} {fs : List (Nat → Bool)} :
    ∀ s ∈ functionChoices n fs, s.Pairwise (· < ·) := by
  intro s hs
  obtain ⟨g, _, rfl⟩ := mem_map.mp hs
  exact filter_range_lt _ _

/-- In a single product the nonzero coefficients of the powers are the scale. -/
theorem productMap_power {c : BitVec w} (h : ∀ s ∈ choices, s.Pairwise (· < ·)) {d m : Nat}
    (hne : productMap c choices (List.replicate d m) ≠ 0) :
    productMap c choices (List.replicate d m) = c := by
  have hmem : List.replicate d m ∈ monomials choices := by
    by_contra hnot
    exact hne (productMap_of_notMem hnot)
  have hlen : d = choices.length := by
    have hlength := length_of_mem_monomials hmem
    rwa [length_replicate] at hlength
  subst hlen
  have hcount := count_replicate (fun s hs => (h s hs).imp fun hlt => hlt.ne) m
  apply productMap_of_once
  rw [hcount]
  apply if_pos
  by_contra hnot
  rw [if_neg hnot] at hcount
  exact count_eq_zero.mp hcount hmem

lemma fails_checkDiagonal {diagonal : Row w} {all : List Nat} {scale : Option (BitVec w)}
    (hms : ∀ m ∈ ms, m ∈ all)
    (hscale : ∀ c, scale = some c → ∀ x, (∀ m ∈ all, diagonal m ≠ 0 → diagonal m = x) → c = x) :
    Fails (checkDiagonal w diagonal ms scale) fun c =>
      c.exhausted = true ∨ ¬ ∃ x, ∀ m ∈ all, diagonal m ≠ 0 → diagonal m = x := by
  induction ms generalizing scale with
  | nil => exact fails_pure
  | cons m ms ih =>
    have hrest : ∀ k ∈ ms, k ∈ all := fun k hk => hms k (mem_cons_of_mem m hk)
    have hm := hms m mem_cons_self
    refine fails_bind (fails_imp (fails_consume _) fun _ hc => .inl hc) ends_any ?_
    intro _ _
    apply fails_ite
    · exact fun _ => ih hrest hscale
    · intro hne
      cases scale with
      | none =>
        apply ih hrest
        intro c hc x hx
        cases hc
        exact hx m hm hne
      | some c₀ =>
        apply fails_ite
        · intro hother b c hrun
          right
          intro ⟨x, hx⟩
          exact hother ((hx m hm hne).trans (hscale c₀ rfl x hx).symm)
        · exact fun _ => ih hrest hscale

lemma fails_rejectSums {d : Nat} {st : Admission w}
    (h : SumReads atomIds.length bits true d terms st) :
    Fails (rejectSums atomIds w st) fun c => c.exhausted = true ∨
      ¬ IsProduct w atomIds.length bits terms := by
  have hdiag : ∀ c fs, (∀ k, coefficientMap w atomIds.length bits terms k =
      productMap c (functionChoices atomIds.length fs) k) →
      ∀ m ∈ List.range (2 ^ atomIds.length), st.diagonal m ≠ 0 → st.diagonal m = c := by
    intro c fs hall m hm hne
    rw [h.diagonal rfl m (mem_range.mp hm), hall] at hne ⊢
    exact productMap_power functionChoices_lt hne
  refine fails_bind (fails_imp (fails_checkDiagonal (fun m hm => hm) fun c hc => nomatch hc) ?_)
    ends_any ?_
  · intro c hc
    refine hc.imp_right fun hnot hproduct => hnot ?_
    obtain ⟨x, fs, hall⟩ := hproduct
    exact ⟨x, hdiag x fs hall⟩
  · intro _ _
    apply fails_ite
    · intro ⟨hfirst, hlast, hother⟩ b c hrun
      right
      intro ⟨x, fs, hall⟩
      have hf : st.first.2 = x := (h.first rfl).eq_scale strict_lt hfirst hall fun hfull =>
        ⟨_, by simpa using extreme_first hfull functionChoices_lt⟩
      have hl : st.last.2 = x := (h.last rfl).eq_scale strict_gt hlast hall fun hfull =>
        ⟨_, by simpa using extreme_last hfull functionChoices_lt⟩
      exact hother (hf.trans hl.symm)
    · exact fun _ => fails_pure

def Refused (w n : Nat) (bits : SymRef → Nat → Bool) (terms : List PolyTerm) (singleProduct : Bool)
    (c : WorkBudget) : Prop :=
  RunsOut (expansionSize n bits terms) c ∨ (singleProduct = true ∧ ¬ IsProduct w n bits terms)

lemma Bitwise.fails_admitTerms (h : Bitwise ctx atomIds w bits terms) (hids : atomIds.Nodup)
    (hn : atomIds.length ≤ kMaxTruthTableAtoms) (optional singleProduct : Bool) :
    Fails (admitTerms ctx terms atomIds w optional singleProduct)
      (Refused w atomIds.length bits terms singleProduct) := by
  generalize hcheck : checksExtremes terms atomIds singleProduct = check
  -- Where the sums are checked, all terms have one degree.
  obtain ⟨d, hd⟩ : ∃ d, check = true → ∀ t ∈ terms, t.factors.length = d ∧ 2 ≤ d ∧
      2 ^ atomIds.length ≤ 64 := by
    refine ⟨((terms.head?.map fun u => u.factors.length).getD 0), ?_⟩
    intro hc t ht
    rw [← hcheck, checksExtremes, Bool.and_eq_true, decide_eq_true_eq] at hc
    obtain ⟨_, hcorners, _, _, hall⟩ := hc
    obtain ⟨h2, _, hlen⟩ := hall t ht
    rw [← hlen]
    exact ⟨rfl, h2, hcorners⟩
  have hsingle : check = true → singleProduct = true := by
    intro hc
    rw [← hcheck, checksExtremes, Bool.and_eq_true] at hc
    exact hc.1
  unfold admitTerms payDiagonal
  rw [hcheck]
  refine fails_bind ?_ ends_any ?_
  · refine fails_ite (fun _ => ?_) fun _ => fails_pure
    exact fails_imp (fails_consume _) fun _ hc => .inl (.inl hc)
  · intro _ _
    apply fails_budget
    intro b
    apply fails_ite
    · exact fun _ => fails_pure
    · intro _
      have hstart : AdmissionReads atomIds.length bits check d [] ({} : Admission w) :=
        ⟨sumReads_start, Nat.zero_le _⟩
      have hends := ends_foldlM_along (I := AdmissionReads atomIds.length bits check d) terms
        (g := admitTerm ctx atomIds w check optional)
        (fun seen t rest heq st hst =>
          h.ends_admitTerm hids hn hd (heq ▸ mem_append_right _ mem_cons_self) hst) hstart
      refine fails_bind ?_ hends ?_
      · refine fails_foldlM_along terms (fun seen t rest heq st hst =>
          h.ends_admitTerm hids hn hd (heq ▸ mem_append_right _ mem_cons_self) hst) ?_ hstart
        intro seen t rest heq st hst
        exact fails_imp (h.fails_admitTerm hids hn hd heq hst) fun _ hc => .inl hc
      · intro st hst
        refine fails_ite (fun hc => ?_) fun _ => fails_pure
        have hsum := hst.toSumReads
        rw [hc] at hsum
        refine fails_imp (fails_rejectSums hsum) ?_
        intro c hc'
        exact hc'.imp Or.inl fun hnot => ⟨hsingle hc, hnot⟩

end

variable {ctx : SymContext} {atomIds : List Nat} {w : Nat} {bits : SymRef → Nat → Bool}
    {terms : List PolyTerm}

lemma saturatingProduct_le (h : ∀ s ∈ choices, s ≠ []) {a c : Nat} (ha : 0 < a)
    (hac : a ≤ c) : saturatingProduct choices a ≤ c * (choices.map List.length).prod := by
  induction choices generalizing a c with
  | nil =>
    simpa [saturatingProduct] using hac
  | cons s choices ih =>
    have hs : 0 < s.length := length_pos_iff.mpr (h s mem_cons_self)
    have hrest : ∀ t ∈ choices, t ≠ [] := fun t ht => h t (mem_cons_of_mem s ht)
    rw [map_cons, prod_cons, ← mul_assoc]
    unfold saturatingProduct
    split
    next hover =>
      have hsat : saturatingMul a s.length = sizeMax := if_pos hover
      have hle := saturatingMul_le (b := s.length) ha hac
      rw [hsat] at hle
      have hpos : 0 < (choices.map List.length).prod := by
        apply Nat.pos_of_ne_zero
        intro hzero
        obtain ⟨t, ht, hlen⟩ := mem_map.mp (prod_eq_zero_iff.mp hzero)
        exact hrest t ht (length_eq_zero_iff.mp hlen)
      exact hle.trans (Nat.le_mul_of_pos_right _ hpos)
    · exact ih hrest (Nat.mul_pos ha hs) (Nat.mul_le_mul_right _ hac)

lemma fails_forEachFrom {visit : α → List Nat → α} {picks : List Nat}
    {rest : List (List Nat)} (h : Steps (advance choices) (picks :: rest) none) {fuel : Nat}
    (hfuel : rest.length < fuel) (a : α) :
    Fails (forEachFrom choices visit fuel picks a) fun c => c.exhausted = true := by
  obtain ⟨fuel, rfl⟩ := Nat.exists_eq_succ_of_ne_zero (Nat.ne_zero_of_lt hfuel)
  induction rest generalizing picks fuel a with
  | nil =>
    refine fails_bind (fails_consume 1) ends_any ?_
    intro _ _
    rw [h.1]
    exact fails_pure
  | cons next rest ih =>
    refine fails_bind (fails_consume 1) ends_any ?_
    intro _ _
    rw [h.1]
    rw [length_cons] at hfuel
    obtain ⟨fuel, rfl⟩ := Nat.exists_eq_succ_of_ne_zero (show fuel ≠ 0 by omega)
    exact ih h.2 _ fuel (by omega)

lemma fails_forEachMonomial {selected : List (List Nat)} (h : ∀ s ∈ selected, s ≠ [])
    (hne : selected ≠ [])
    (visit : α → List Nat → α) (a : α) :
    Fails (forEachMonomial selected visit a) fun c => c.exhausted = true := by
  have hrev : ∀ s ∈ selected.reverse, s ≠ [] := fun s hs => h s (mem_reverse.mp hs)
  have hall := allPicks_cons h
  have hsteps := steps_allPicks hrev
  have hlength := length_allPicks selected.reverse
  rw [hall] at hsteps hlength
  rw [length_cons, map_reverse, prod_reverse] at hlength
  unfold forEachMonomial
  rw [if_neg hne]
  exact fails_forEachFrom hsteps (by omega) a

lemma fails_expandProduct {optional : Bool} {coeff : BitVec w} {selected : List (List Nat)}
    (hne : selected ≠ []) (form : PolyForm w) : Fails (expandProduct optional coeff selected form)
      (RunsOut (selected.map List.length).prod) := by
  apply fails_ite
  · exact fun _ => fails_pure
  · intro hfull
    have hfull : ∀ s ∈ selected, s ≠ [] := by
      intro s hs hnil
      exact hfull (any_eq_true.mpr ⟨s, hs, by rw [hnil]; rfl⟩)
    apply fails_budget
    intro b c hrun
    by_cases hover : ¬ b.canConsume (saturatingProduct selected 1) = true
    · rw [if_pos hover] at hrun
      have hle := saturatingProduct_le hfull one_pos le_rfl
      rw [one_mul] at hle
      exact runsOut_reject hle (canConsume_false hover) (.inl le_rfl) (run_rejectWork hrun)
    · rw [if_neg hover] at hrun
      refine fails_bind (fails_runsOut (fails_forEachMonomial hfull hne _ _) _) ends_any ?_ b c hrun
      intro higher _
      apply fails_budget
      intro b c hrun
      by_cases hout : b.exhausted = true
      · rw [if_pos hout] at hrun
        cases hrun
        exact .inl hout
      · rw [if_neg hout] at hrun
        cases hrun

variable (h : Bitwise ctx atomIds w bits terms)
include h

variable (hids : atomIds.Nodup)
include hids

lemma Bitwise.selected (hn : atomIds.length ≤ kMaxTruthTableAtoms) {t : PolyTerm} (ht : t ∈ terms) :
    (t.factors.mapM fun f => (bitwiseTable ctx f atomIds).map TruthTable.patterns) =
      some (choicesOf atomIds.length bits t) := by
  have hall : ∀ fs : List SymRef, (∀ f ∈ fs, f ∈ t.factors) →
      (fs.mapM fun f => (bitwiseTable ctx f atomIds).map TruthTable.patterns) =
        some (fs.map (mintermsOf atomIds.length bits)) := by
    intro fs
    induction fs with
    | nil => exact fun _ => rfl
    | cons f fs ih =>
      intro hmem
      obtain ⟨table, htable⟩ := h.table hn ht (hmem f mem_cons_self)
      rw [mapM_cons, ih fun g hg => hmem g (mem_cons_of_mem f hg), htable, Option.map_some,
        h.patterns_eq hids ht (hmem f mem_cons_self) htable]
      rfl
  exact hall t.factors fun f hf => hf

lemma Bitwise.fails_expandTerm
    (hn : atomIds.length ≤ kMaxTruthTableAtoms) {t : PolyTerm} (ht : t ∈ terms) (optional : Bool)
    (form : PolyForm w) :
    Fails (expandTerm ctx atomIds w optional form t)
      (RunsOut (expansionSize atomIds.length bits [t])) := by
  refine fails_ite (fun _ => fails_pure) ?_
  intro hnil
  rw [h.selected hids hn ht]
  refine fails_ite (fun _ => fails_pure) ?_
  intro hone
  have hpos := length_pos_iff.mpr hnil
  have hmany : ¬ t.factors.length < 2 := by omega
  have hne : choicesOf atomIds.length bits t ≠ [] := fun hempty => hnil (map_eq_nil_iff.mp hempty)
  have hsize : expansionSize atomIds.length bits [t] =
      ((choicesOf atomIds.length bits t).map List.length).prod := by
    rw [expansionSize, map_singleton, sum_singleton, if_neg hmany]
  rw [hsize]
  exact fails_expandProduct hne _

/-- An expansion fails only for want of budget, or because the sum is not a single product. -/
theorem Bitwise.fails_expandOverMinterms (hn : atomIds.length ≤ kMaxTruthTableAtoms)
    (optional singleProduct : Bool) :
    Fails (expandOverMinterms ctx terms atomIds w optional singleProduct)
      (Refused w atomIds.length bits terms singleProduct) := by
  unfold expandOverMinterms
  rw [if_neg (by omega)]
  refine fails_bind (h.fails_admitTerms hids hn optional singleProduct) ends_any ?_
  intro _ _
  refine fails_bind ?_ ends_any fun _ _ => fails_pure
  refine fails_foldlM_along (I := fun _ _ => True) terms (fun _ _ _ _ _ _ => ends_any) ?_ trivial
  intro seen t rest heq form _
  have ht : t ∈ terms := heq ▸ mem_append_right _ mem_cons_self
  refine fails_imp (h.fails_expandTerm hids hn ht optional form) ?_
  intro c hc
  refine .inl (hc.mono ?_)
  have happend : terms = seen ++ ([t] ++ rest) := heq.symm
  rw [happend, expansionSize_append, expansionSize_append]
  omega

omit hids

end NeverD.Mba
