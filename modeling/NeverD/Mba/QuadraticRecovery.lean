import NeverD.Mba.QuadraticRows

namespace NeverD.Mba
open Lib.Minterms Spends List Function

variable {s : Split} {a : Nat} {diagonal : Row w} {scan : Scan w}

section

variable {w : Nat} {rows : Nat} {terms : List (ClassTerm w)}

def Fits (rows : Nat) (terms : List (ClassTerm w)) (c : BitVec w) (s : Split) : Prop :=
  ∀ a < rows, ∀ b < rows, entryOf terms a b = productEntry c s a b

variable (c : BitVec w)
include c

lemma productEntry_comm (s : Split) (a b : Nat) : productEntry c s a b = productEntry c s b a :=
  paired_comm _ a b

lemma productEntry_self (s : Split) (a : Nat) :
    productEntry c s a a = c * ind w (s.left a && s.right a) := by
  rw [productEntry, paired, if_pos rfl, add_zero]

lemma productEntry_ne (s : Split) {b : Nat} (h : a ≠ b) :
    productEntry c s a b = c * ind w (s.left a && s.right b) + c *
      ind w (s.left b && s.right a) := by
  rw [productEntry, paired, if_neg h]

lemma productEntry_swap (s : Split) (a b : Nat) :
    productEntry c ⟨s.right, s.left⟩ a b = productEntry c s a b := by
  by_cases h : a = b
  · rw [h, productEntry_self, productEntry_self, Bool.and_comm]
  · rw [productEntry_ne c _ h, productEntry_ne c _ h, add_comm]
    rw [Bool.and_comm (s.right b), Bool.and_comm (s.right a)]

omit c

lemma Fits.swap {c : BitVec w} (h : Fits rows terms c s) : Fits rows terms c ⟨s.right, s.left⟩ := by
  intro a ha b hb
  rw [productEntry_swap]
  exact h a ha b hb

lemma productEntry_congr {c : BitVec w} {s' : Split} {b : Nat}
    (ha : s.left a = s'.left a ∧ s.right a = s'.right a)
    (hb : s.left b = s'.left b ∧ s.right b = s'.right b) :
    productEntry c s a b = productEntry c s' a b := by
  unfold productEntry paired
  dsimp only
  rw [ha.1, ha.2, hb.1, hb.2]

lemma shiftLeft_one_add (c : BitVec w) : c <<< 1 = c + c := by
  rw [BitVec.shiftLeft_eq_mul_twoPow]
  apply BitVec.eq_of_toNat_eq
  rw [BitVec.toNat_mul, BitVec.toNat_twoPow, BitVec.toNat_add, Nat.mul_mod_mod]
  congr 1
  omega

lemma expected_eq (c : BitVec w) (s : Split) (a b : Nat) :
    expected c s a b = productEntry c s a b := by
  unfold expected
  by_cases h : a = b
  · subst h
    rw [productEntry_self, if_neg (not_not_intro rfl), add_zero]
    cases s.left a && s.right a with
    | true => simp [ind]
    | false => simp [ind]
  · rw [productEntry_ne c s h, if_pos h]
    cases s.left a && s.right b with
    | true =>
      cases s.left b && s.right a with
      | true => simp [ind, shiftLeft_one_add]
      | false => simp [ind]
    | false =>
      cases s.left b && s.right a with
      | true => simp [ind]
      | false => simp [ind]

end

section

variable {w : Nat} {rows : Nat} {terms : List (ClassTerm w)}

lemma entryOf_self (a : Nat) :
    entryOf terms a a = (terms.map fun t => t.coeff * ind w (t.left a && t.right a)).sum := by
  unfold entryOf
  congr 1
  apply map_congr_left
  intro t _
  exact productEntry_self _ _ a

lemma ends_readDiagonal : Ends (readDiagonal rows terms) fun row => ∀ m < rows,
    row m = entryOf terms m m := by
  have hfold : ∀ (ts : List (ClassTerm w)) (out : Row w),
    Ends (ts.foldlM (addDiagonal rows) out) fun row =>
      ∀ m < rows, row m = out m + entryOf ts m m := by
    intro ts
    induction ts with
    | nil =>
      intro out
      apply ends_pure
      intro m _
      exact (add_zero _).symm
    | cons t ts ih =>
      intro out
      rw [foldlM_cons]
      have hstep : Ends (addDiagonal rows out t) fun row => ∀ m < rows,
          row m = out m + t.coeff * ind w (t.left m && t.right m) := by
        refine ends_bind ends_any fun _ _ => ends_pure ?_
        intro m hm
        dsimp only
        rw [ind]
        by_cases hboth : (t.left m && t.right m) = true
        · rw [if_pos hboth, mul_one, if_pos ⟨hm, (Bool.and_eq_true _ _).mp hboth⟩]
        · rw [if_neg hboth, mul_zero, add_zero,
            if_neg fun h => hboth ((Bool.and_eq_true _ _).mpr h.2)]
      refine ends_bind hstep ?_
      intro row hrow budget row' left hrun m hm
      rw [ih row budget row' left hrun m hm, hrow m hm, add_assoc, entryOf_self, entryOf_self,
        map_cons, sum_cons]
  intro budget row left hrun m hm
  rw [hfold terms _ budget row left hrun m hm, zero_add]

structure ScanOk (diagonal : Row w) (seen : List Nat) (scan : Scan w) : Prop where
  shared : ∀ s, scan.shared = some s → s ∈ seen ∧ diagonal s = scan.coefficient ∧
    scan.coefficient ≠ 0
  equal : ∀ m ∈ seen, diagonal m ≠ 0 → scan.shared.isSome = true ∧ diagonal m = scan.coefficient
  members : ∀ m, scan.members m = true ↔ m ∈ seen ∧ diagonal m ≠ 0

lemma scanDiagonal_ok (ms : List Nat) {seen : List Nat}
    (h : ScanOk diagonal seen scan) :
    match scanDiagonal diagonal ms scan with
    | none => ∃ m ∈ seen ++ ms, ∃ k ∈ seen ++ ms, diagonal m ≠ 0 ∧ diagonal k ≠ 0 ∧
      diagonal m ≠ diagonal k
    | some scan' => ScanOk diagonal (seen ++ ms) scan' := by
  induction ms generalizing seen scan with
  | nil =>
    rw [append_nil]
    exact h
  | cons m ms ih =>
    have hsplit : seen ++ m :: ms = (seen ++ [m]) ++ ms := by rw [append_assoc]; rfl
    rw [hsplit]
    unfold scanDiagonal
    have hmem : ∀ k, k ∈ seen ++ [m] ↔ k ∈ seen ∨ k = m := by
      intro k
      rw [mem_append, mem_singleton]
    by_cases hzero : diagonal m = 0
    · rw [if_pos hzero]
      apply ih
      refine ⟨?_, ?_, ?_⟩
      · intro s hs
        exact ⟨(hmem s).mpr (.inl (h.shared s hs).1), (h.shared s hs).2⟩
      · intro k hk hne
        rcases (hmem k).mp hk with hk | rfl
        · exact h.equal k hk hne
        · exact absurd hzero hne
      · intro k
        rw [h.members, hmem]
        constructor
        · intro hk
          exact ⟨.inl hk.1, hk.2⟩
        · intro ⟨hk, hne⟩
          exact ⟨hk.resolve_right fun heq => hne (heq ▸ hzero), hne⟩
    · rw [if_neg hzero]
      have hmembers : ∀ k, Function.update scan.members m true k = true ↔ k ∈ seen ++ [m] ∧
          diagonal k ≠ 0 := by
        intro k
        rw [hmem]
        by_cases hk : k = m
        · rw [hk, update_self]
          exact iff_of_true rfl ⟨.inr rfl, hzero⟩
        · rw [update_of_ne hk, h.members, or_iff_left hk]
      cases hshared : scan.shared with
      | none =>
        apply ih
        refine ⟨?_, ?_, hmembers⟩
        · intro s hs
          cases hs
          exact ⟨(hmem m).mpr (.inr rfl), rfl, hzero⟩
        · intro k hk hne
          rcases (hmem k).mp hk with hk | rfl
          · have hsome := (h.equal k hk hne).1
            rw [hshared] at hsome
            cases hsome
          · exact ⟨rfl, rfl⟩
      | some s =>
        obtain ⟨hsmem, hsval, hsne⟩ := h.shared s hshared
        by_cases hne : diagonal m = scan.coefficient
        · rw [if_neg (not_not_intro hne)]
          apply ih
          refine ⟨?_, ?_, hmembers⟩
          · intro s' hs'
            cases hs'
            exact ⟨(hmem s).mpr (.inl hsmem), hsval, hsne⟩
          · intro k hk hk'
            rcases (hmem k).mp hk with hk | rfl
            · exact ⟨rfl, (h.equal k hk hk').2⟩
            · exact ⟨rfl, hne⟩
        · rw [if_pos hne]
          refine ⟨m, mem_append_left _ ((hmem m).mpr (.inr rfl)), s,
            mem_append_left _ ((hmem s).mpr (.inl hsmem)), hzero, hsval ▸ hsne, ?_⟩
          rw [hsval]
          exact hne

lemma scanOk_start (diagonal : Row w) : ScanOk diagonal [] {} where
  shared _ h := nomatch h
  equal _ h := nomatch h
  members _ := ⟨fun h => (nomatch h), fun h => (nomatch h.1)⟩

lemma findAnchor_ok (diagonal rowA : Row w) (c : BitVec w) (ms : List Nat) (anchor : Option Nat) :
    match findAnchor diagonal rowA c ms anchor with
    | none => ∃ m ∈ ms, diagonal m = 0 ∧ rowA m ≠ 0 ∧ rowA m ≠ c
    | some none => anchor = none ∧ ∀ m ∈ ms, diagonal m = 0 → rowA m = 0
    | some (some a) => anchor = some a ∨ a ∈ ms ∧ diagonal a = 0 ∧ rowA a ≠ 0 := by
  induction ms generalizing anchor with
  | nil =>
    cases anchor with
    | none => exact ⟨rfl, fun m hm => (nomatch hm)⟩
    | some a => exact .inl rfl
  | cons m ms ih =>
    unfold findAnchor
    by_cases hskip : diagonal m ≠ 0 ∨ rowA m = 0
    · rw [if_pos hskip]
      have h := ih anchor
      revert h
      cases findAnchor diagonal rowA c ms anchor with
      | none =>
        intro ⟨k, hk, hrest⟩
        exact ⟨k, mem_cons_of_mem m hk, hrest⟩
      | some o =>
        cases o with
        | none =>
          intro ⟨hnone, hall⟩
          refine ⟨hnone, ?_⟩
          intro k hk hzero
          rcases mem_cons.mp hk with rfl | hk
          · exact hskip.resolve_left (not_not_intro hzero)
          · exact hall k hk hzero
        | some a => exact fun h => h.imp_right fun h => ⟨mem_cons_of_mem m h.1, h.2⟩
    · rw [if_neg hskip]
      rw [not_or, not_not] at hskip
      by_cases hne : rowA m ≠ c
      · rw [if_pos hne]
        exact ⟨m, mem_cons_self, hskip.1, hskip.2, hne⟩
      · rw [if_neg hne]
        have h := ih (anchor.orElse fun _ => some m)
        revert h
        cases findAnchor diagonal rowA c ms (anchor.orElse fun _ => some m) with
        | none =>
          intro ⟨k, hk, hrest⟩
          exact ⟨k, mem_cons_of_mem m hk, hrest⟩
        | some o =>
          cases o with
          | none =>
            intro ⟨hnone, _⟩
            cases anchor with
            | none => cases hnone
            | some a => cases hnone
          | some a =>
            intro h
            rcases h with h | h
            · cases anchor with
              | none =>
                cases h
                exact .inr ⟨mem_cons_self, hskip.1, hskip.2⟩
              | some a' => exact .inl h
            · exact .inr ⟨mem_cons_of_mem m h.1, h.2⟩

lemma ends_findPair (as : List Nat) (rowA : Row w) : Ends (findPair rows terms as rowA) fun found =>
    match found.1 with
    | none => ∀ a ∈ as, ∀ b, a < b → b < rows → entryOf terms a b = 0
    | some (a, b, c) => a ∈ as ∧ a < b ∧ b < rows ∧ c = entryOf terms a b ∧ c ≠ 0 := by
  induction as generalizing rowA with
  | nil =>
    apply ends_pure
    exact fun a ha => nomatch ha
  | cons a as ih =>
    refine ends_bind (ends_readRow a (a + 1) rowA) ?_
    intro row hrow
    refine ends_bind ends_any ?_
    intro _ _
    have hrange : ∀ b, b ∈ List.range' (a + 1) (rows - (a + 1)) ↔ a < b ∧ b < rows := by
      intro b
      rw [mem_range'_1]
      omega
    cases hfind : (List.range' (a + 1) (rows - (a + 1))).find? fun b => row b ≠ 0 with
    | some b =>
      apply ends_pure
      obtain ⟨hlt, hb⟩ := (hrange b).mp (mem_of_find?_eq_some hfind)
      have hne := find?_some hfind
      exact ⟨mem_cons_self, hlt, hb, hrow b hlt hb, of_decide_eq_true hne⟩
    | none =>
      intro budget ⟨o, row'⟩ left hrun
      have hrest := ih row budget (o, row') left hrun
      cases o with
      | none =>
        intro x hx b hlt hb
        rcases mem_cons.mp hx with rfl | hx
        · have hzero := find?_eq_none.mp hfind b ((hrange b).mpr ⟨hlt, hb⟩)
          rw [decide_eq_true_eq, not_not] at hzero
          rw [← hrow b hlt hb, hzero]
        · exact hrest x hx b hlt hb
      | some p => exact ⟨mem_cons_of_mem a hrest.1, hrest.2⟩

lemma ends_verify {c : BitVec w} (as : List Nat) (has : ∀ a ∈ as, a < rows) (row : Row w) :
    Ends (verify rows terms c s as row) fun ok =>
      ok = true ↔ ∀ a ∈ as, ∀ b, a ≤ b → b < rows → entryOf terms a b = productEntry c s a b := by
  induction as generalizing row with
  | nil =>
    apply ends_pure
    exact iff_of_true rfl fun a ha => nomatch ha
  | cons a as ih =>
    refine ends_bind (ends_readRow a a row) ?_
    intro row hrow
    refine ends_bind ends_any ?_
    intro _ _
    have hrange : ∀ b, b ∈ List.range' a (rows - a) ↔ a ≤ b ∧ b < rows := by
      intro b
      have ha := has a mem_cons_self
      rw [mem_range'_1]
      omega
    have hrow' : (∀ b ∈ List.range' a (rows - a), row b = expected c s a b) ↔
        ∀ b, a ≤ b → b < rows → entryOf terms a b = productEntry c s a b := by
      constructor
      · intro h b hle hlt
        rw [← hrow b hle hlt, ← expected_eq]
        exact h b ((hrange b).mpr ⟨hle, hlt⟩)
      · intro h b hb
        obtain ⟨hle, hlt⟩ := (hrange b).mp hb
        rw [hrow b hle hlt, expected_eq]
        exact h b hle hlt
    apply ends_ite
    · intro hall budget ok left hrun
      have hrest : ok = true ↔ ∀ x ∈ as, ∀ b, x ≤ b → b < rows →
          entryOf terms x b = productEntry c s x b :=
        ih (fun x hx => has x (mem_cons_of_mem a hx)) row budget ok left hrun
      rw [hrest, forall_mem_cons]
      exact (and_iff_right (hrow'.mp hall)).symm
    · intro hnot
      apply ends_pure
      refine iff_of_false Bool.false_ne_true ?_
      intro h
      exact hnot (hrow'.mpr (h a mem_cons_self))

lemma fits_iff {c : BitVec w} : Fits rows terms c s ↔
    ∀ a ∈ List.range rows, ∀ b, a ≤ b → b < rows → entryOf terms a b = productEntry c s a b := by
  constructor
  · intro h a ha b _ hb
    exact h a (mem_range.mp ha) b hb
  · intro h a ha b hb
    rcases Nat.le_total a b with hle | hle
    · exact h a (mem_range.mpr ha) b hle hb
    · rw [entryOf_comm, productEntry_comm]
      exact h b (mem_range.mpr hb) a hle ha

def Exact (rows : Nat) (terms : List (ClassTerm w)) : Recovery w → Prop
  | .impossible => ∀ c s, ¬ Fits rows terms c s
  | .product c s => Fits rows terms c s

lemma ends_finish {c : BitVec w} {proposal : Option Split}
    (honly : ∀ c' s', Fits rows terms c' s' → ∃ s, proposal = some s ∧ Fits rows terms c s) :
    Ends (finish rows terms c proposal) (Exact rows terms) := by
  cases proposal with
  | none =>
    apply ends_pure
    intro c' s' hfits
    obtain ⟨s, hs, -⟩ := honly c' s' hfits
    cases hs
  | some s =>
    refine ends_bind (ends_verify _ (fun a ha => mem_range.mp ha) _) ?_
    intro ok hok
    apply ends_pure
    rw [← fits_iff] at hok
    cases ok with
    | true => exact hok.mp rfl
    | false =>
      intro c' s' hfits
      obtain ⟨s'', hs, hfits'⟩ := honly c' s' hfits
      cases hs
      exact Bool.false_ne_true (hok.mpr hfits')

end

variable {w : Nat} {rows : Nat} {terms : List (ClassTerm w)}

def AgreeAt (s t : Split) (m : Nat) : Prop := s.left m = t.left m ∧ s.right m = t.right m

variable {c : BitVec w} {t : Split}

lemma Fits.of_agree (h : Fits rows terms c t) (hagree : ∀ m < rows, AgreeAt s t m) :
    Fits rows terms c s := by
  intro a ha b hb
  rw [productEntry_congr (hagree a ha) (hagree b hb)]
  exact h a ha b hb

lemma mul_ind (c : BitVec w) (b : Bool) : c * ind w b = if b then c else 0 := by
  cases b with
  | true => exact mul_one c
  | false => exact mul_zero c

/-- What both rows say about a class when the anchor is in the left factor only. -/
structure SharedAt (t : Split) (c : BitVec w) (rowA rowB : Row w) (m : Nat) : Prop where
  single : (t.left m && t.right m) = false
  reached : rowA m = if t.left m || t.right m then c else 0
  opposite : rowB m = if t.right m then c else 0

lemma classify_shared {diagonal rowA : Row w} (rowB : Row w) (hc : c ≠ 0) {ms : List Nat}
    (hat : ∀ m ∈ ms, diagonal m = 0 → SharedAt t c rowA rowB m) {s : Split}
    (hsub : ∀ m, (s.left m = true → t.left m = true) ∧ (s.right m = true → t.right m = true))
    (hdone : ∀ m ∈ ms, diagonal m ≠ 0 → AgreeAt s t m) :
    ∃ s', classify (some diagonal) rowA rowB c ms s = some s' ∧ ∀ m, AgreeAt s t m ∨ m ∈ ms →
      AgreeAt s' t m := by
  induction ms generalizing s with
  | nil => exact ⟨s, rfl, fun m h => h.resolve_right not_mem_nil⟩
  | cons m ms ih =>
    have hat' : ∀ k ∈ ms, diagonal k = 0 → SharedAt t c rowA rowB k :=
      fun k hk => hat k (mem_cons_of_mem m hk)
    -- Whatever happens at this class, the rest is sorted as before.
    have hrest : ∀ s₁ : Split, AgreeAt s₁ t m →
        (∀ k, k ≠ m → s₁.left k = s.left k ∧ s₁.right k = s.right k) →
        ∃ s', classify (some diagonal) rowA rowB c ms s₁ = some s' ∧
          ∀ k, AgreeAt s t k ∨ k ∈ m :: ms → AgreeAt s' t k := by
      intro s₁ hm hoff
      have hagree : ∀ k, AgreeAt s t k → AgreeAt s₁ t k := by
        intro k hk
        by_cases heq : k = m
        · rw [heq]
          exact hm
        · exact ⟨(hoff k heq).1.trans hk.1, (hoff k heq).2.trans hk.2⟩
      have hsub₁ : ∀ k, (s₁.left k = true → t.left k = true) ∧
          (s₁.right k = true → t.right k = true) := by
        intro k
        by_cases heq : k = m
        · rw [heq, hm.1, hm.2]
          exact ⟨id, id⟩
        · rw [(hoff k heq).1, (hoff k heq).2]
          exact hsub k
      obtain ⟨s', hs', hall⟩ :=
        ih hat' hsub₁ fun k hk hne => hagree k (hdone k (mem_cons_of_mem m hk) hne)
      refine ⟨s', hs', ?_⟩
      intro k hk
      apply hall
      rcases hk with hk | hk
      · exact .inl (hagree k hk)
      · rcases mem_cons.mp hk with rfl | hk
        · exact .inl hm
        · exact .inr hk
    unfold classify
    have hany : (Option.any (fun diagonal => decide (diagonal m ≠ 0)) (some diagonal) = true) ↔
        diagonal m ≠ 0 := by
      rw [Option.any_some, decide_eq_true_eq]
    by_cases hzero : diagonal m = 0
    · rw [if_neg (mt hany.mp (not_not_intro hzero))]
      have h := hat m mem_cons_self hzero
      rw [h.reached, h.opposite]
      cases hl : t.left m with
      | true =>
        have hr : t.right m = false := by
          have hsingle := h.single
          rwa [hl, Bool.true_and] at hsingle
        have hright : s.right m = false := by
          by_contra hne
          rw [(hsub m).2 (Bool.eq_true_of_not_eq_false hne)] at hr
          cases hr
        rw [hr]
        simp only [Bool.or_false, if_true, if_false, hc, ne_eq, not_true_eq_false, and_false,
          false_and, or_false, Bool.false_eq_true, Option.isSome_some, not_false_eq_true]
        apply hrest
        · exact ⟨(update_self ..).trans hl.symm, hright.trans hr.symm⟩
        · exact fun k hk => ⟨update_of_ne hk _ _, rfl⟩
      | false =>
        have hleft : s.left m = false := by
          by_contra hne
          rw [(hsub m).1 (Bool.eq_true_of_not_eq_false hne)] at hl
          cases hl
        cases hr : t.right m with
        | true =>
          simp only [Bool.false_or, if_true, if_false, hc, ne_eq, not_true_eq_false, and_false,
            false_and, or_false, Option.isSome_some]
          apply hrest
          · exact ⟨hleft.trans hl.symm, (update_self ..).trans hr.symm⟩
          · exact fun k hk => ⟨rfl, update_of_ne hk _ _⟩
        | false =>
          have hright : s.right m = false := by
            by_contra hne
            rw [(hsub m).2 (Bool.eq_true_of_not_eq_false hne)] at hr
            cases hr
          simp only [Bool.or_false, if_true, if_false, ne_eq, not_true_eq_false, and_false,
            false_and, or_false, Bool.false_eq_true, Option.isSome_some]
          exact hrest s ⟨hleft.trans hl.symm, hright.trans hr.symm⟩ fun k _ => ⟨rfl, rfl⟩
    · rw [if_pos (hany.mpr hzero)]
      exact hrest s (hdone m mem_cons_self hzero) fun k _ => ⟨rfl, rfl⟩

/-- What both rows say about a class when the anchors are in different factors. -/
structure DisjointAt (t : Split) (c : BitVec w) (rowA rowB : Row w) (m : Nat) : Prop where
  single : (t.left m && t.right m) = false
  reached : rowA m = if t.right m then c else 0
  opposite : rowB m = if t.left m then c else 0

lemma classify_disjoint (rowA rowB : Row w) (t : Split) (hc : c ≠ 0) (ms : List Nat)
    (hat : ∀ m ∈ ms, DisjointAt t c rowA rowB m) (s : Split) :
    ∃ s', classify none rowA rowB c ms s = some s' ∧ ∀ m, AgreeAt s t m ∨ m ∈ ms →
      AgreeAt s' t m := by
  induction ms generalizing s with
  | nil => exact ⟨s, rfl, fun m h => h.resolve_right not_mem_nil⟩
  | cons m ms ih =>
    have h := hat m mem_cons_self
    have hpick : ∀ b : Bool, (decide ((if b = true then c else 0) ≠ 0)) = b := by
      intro b
      cases b with
      | true => exact decide_eq_true hc
      | false => exact decide_eq_false (not_not_intro rfl)
    have hvalue : ∀ b : Bool, ¬ ((if b = true then c else 0) ≠ 0 ∧
        (if b = true then c else 0) ≠ c) := by
      intro b
      cases b with
      | true => exact fun hb => hb.2 rfl
      | false => exact fun hb => hb.1 rfl
    have hboth : ¬ ((if t.right m = true then c else 0) ≠ 0 ∧
        (if t.left m = true then c else 0) ≠ 0) := by
      have hsingle := h.single
      cases hr : t.right m with
      | true =>
        rw [hr, Bool.and_true] at hsingle
        rw [hsingle]
        exact fun hb => hb.2 rfl
      | false => exact fun hb => hb.1 rfl
    obtain ⟨s', hs', hall⟩ := ih (fun k hk => hat k (mem_cons_of_mem m hk))
      { left := Function.update s.left m (rowB m ≠ 0),
        right := Function.update s.right m (rowA m ≠ 0) }
    refine ⟨s', ?_, ?_⟩
    · unfold classify
      rw [if_neg (by rw [Option.any_none]; exact Bool.false_ne_true), h.reached, h.opposite,
        if_neg (not_or.mpr ⟨hvalue _, hvalue _⟩), if_neg (by exact Bool.false_ne_true),
        if_neg hboth]
      rw [h.reached, h.opposite] at hs'
      exact hs'
    · intro k hk
      apply hall
      by_cases heq : k = m
      · refine .inl ⟨?_, ?_⟩
        · rw [heq, h.opposite]
          exact (update_self ..).trans (hpick _)
        · rw [heq, h.reached]
          exact (update_self ..).trans (hpick _)
      · rcases hk with hk | hk
        · exact .inl ⟨(update_of_ne heq _ _).trans hk.1, (update_of_ne heq _ _).trans hk.2⟩
        · exact .inr ((mem_cons.mp hk).resolve_left heq)

lemma ite_ne_zero_iff (hc : c ≠ 0) (b : Bool) : (if b = true then c else 0) ≠ 0 ↔ b = true := by
  cases b with
  | true => exact iff_of_true hc rfl
  | false => exact iff_of_false (not_not_intro rfl) Bool.false_ne_true

variable (h : Fits rows terms c t)
include h

lemma Fits.self {m : Nat} (hm : m < rows) :
    entryOf terms m m = if (t.left m && t.right m) = true then c else 0 := by
  rw [h m hm m hm, productEntry_self, mul_ind]

lemma Fits.pair {b : Nat} (ha : a < rows) (hb : b < rows) (hne : a ≠ b) : entryOf terms a b =
      (if (t.left a && t.right b) = true then c else 0) + if (t.left b && t.right a) = true then c
      else 0 := by
  rw [h a ha b hb, productEntry_ne c t hne, mul_ind, mul_ind]

theorem Fits.sharedRow {s m : Nat} (hs : s < rows) (hm : m < rows)
    (hleft : t.left s = true) (hright : t.right s = true)
    (hsingle : (t.left m && t.right m) = false) :
    entryOf terms s m = if (t.left m || t.right m) = true then c else 0 := by
  have hne : s ≠ m := by
    rintro rfl
    rw [hleft, hright] at hsingle
    cases hsingle
  rw [h.pair hs hm hne, hleft, hright, Bool.true_and, Bool.and_true]
  cases hl : t.left m with
  | true =>
    rw [hl, Bool.true_and] at hsingle
    rw [hsingle, if_neg Bool.false_ne_true, if_pos rfl, zero_add]
    rfl
  | false =>
    rw [if_neg Bool.false_ne_true, add_zero, Bool.false_or]

theorem Fits.leftRow {m : Nat} (ha : a < rows) (hm : m < rows)
    (hleft : t.left a = true) (hright : t.right a = false) :
    entryOf terms a m = if t.right m = true then c else 0 := by
  by_cases hne : a = m
  · subst hne
    rw [h.self ha, hleft, Bool.true_and]
  · rw [h.pair ha hm hne, hleft, hright, Bool.true_and, Bool.and_false, if_neg Bool.false_ne_true,
      add_zero]

lemma Fits.rightRow {m : Nat} (ha : a < rows) (hm : m < rows)
    (hleft : t.left a = false) (hright : t.right a = true) :
    entryOf terms a m = if t.left m = true then c else 0 := h.swap.leftRow ha hm hright hleft

/-- What the diagonal and the row of the shared class say of every product with these
coefficients. -/
theorem Fits.shared {diagonal rowA : Row w} {scan : Scan w} {s : Nat}
    (hdiag : ∀ m < rows, diagonal m = entryOf terms m m)
    (hscan : ScanOk diagonal (List.range rows) scan) (hs : scan.shared = some s)
    (hrow : ∀ m < rows, rowA m = entryOf terms s m) :
    c = scan.coefficient ∧ (∀ m < rows, diagonal m ≠ 0 ↔ (t.left m && t.right m) = true) ∧
      ∀ m < rows, diagonal m = 0 → rowA m = if (t.left m || t.right m) = true then c else 0 := by
  obtain ⟨hmem, hval, hne⟩ := hscan.shared s hs
  have hlt := mem_range.mp hmem
  have hself := h.self hlt
  rw [← hdiag s hlt, hval] at hself
  have hboth : (t.left s && t.right s) = true := by
    by_contra hnot
    rw [if_neg hnot] at hself
    exact hne hself
  rw [if_pos hboth] at hself
  have hc : c ≠ 0 := hself ▸ hne
  have hiff : ∀ m < rows, diagonal m ≠ 0 ↔ (t.left m && t.right m) = true := by
    intro m hm
    rw [hdiag m hm, h.self hm]
    exact ite_ne_zero_iff hc _
  refine ⟨hself.symm, hiff, ?_⟩
  intro m hm hzero
  obtain ⟨hleft, hright⟩ := (Bool.and_eq_true _ _).mp hboth
  rw [hrow m hm]
  apply h.sharedRow hlt hm hleft hright
  exact Bool.eq_false_of_not_eq_true fun htrue => (hiff m hm).mpr htrue hzero

omit h

lemma ends_recoverShared {diagonal : Row w} {scan : Scan w} {s : Nat}
    (hdiag : ∀ m < rows, diagonal m = entryOf terms m m)
    (hscan : ScanOk diagonal (List.range rows) scan)
    (hs : scan.shared = some s) : Ends (recoverShared rows terms diagonal scan s)
    (Exact rows terms) := by
  have hne := (hscan.shared s hs).2.2
  refine ends_bind (ends_readRow s 0 _) ?_
  intro rowA hrowA
  have hrowA' : ∀ m < rows, rowA m = entryOf terms s m := fun m hm => hrowA m (Nat.zero_le m) hm
  refine ends_bind ends_any ?_
  intro _ _
  -- The classes with a nonzero diagonal are the ones that both factors share.
  have hmembers : ∀ {c t}, Fits rows terms c t →
      ∀ m < rows, scan.members m = (t.left m && t.right m) := by
    intro c t h m hm
    rw [Bool.eq_iff_iff, hscan.members, mem_range, ← (h.shared hdiag hscan hs hrowA').2.1 m hm]
    exact and_iff_right hm
  have hanchor := findAnchor_ok diagonal rowA scan.coefficient (List.range rows) none
  revert hanchor
  cases findAnchor diagonal rowA scan.coefficient (List.range rows) none with
  | none =>
    intro ⟨m, hm, hzero, hreached, hother⟩
    apply ends_pure
    intro c t h
    obtain ⟨hc, _, hrow⟩ := h.shared hdiag hscan hs hrowA'
    rw [hrow m (mem_range.mp hm) hzero, hc] at hreached hother
    rw [if_pos ((ite_ne_zero_iff hne _).mp hreached)] at hother
    exact hother rfl
  | some o =>
    cases o with
    | none =>
      intro ⟨_, hnone⟩
      apply ends_finish
      intro c t h
      refine ⟨_, rfl, ?_⟩
      obtain ⟨rfl, hiff, hrow⟩ := h.shared hdiag hscan hs hrowA'
      apply h.of_agree
      intro m hm
      have hmem := hmembers h m hm
      by_cases hzero : diagonal m = 0
      · -- No class outside of both factors is reached, so that the factors are the same.
        have hout : (t.left m || t.right m) = false := by
          apply Bool.eq_false_of_not_eq_true
          intro htrue
          apply (ite_ne_zero_iff hne _).mpr htrue
          rw [← hrow m hm hzero]
          exact hnone m (mem_range.mpr hm) hzero
        obtain ⟨hl, hr⟩ := (Bool.or_eq_false_iff).mp hout
        rw [hl, hr] at hmem
        exact ⟨hmem.trans hl.symm, hmem.trans hr.symm⟩
      · obtain ⟨hl, hr⟩ := (Bool.and_eq_true _ _).mp ((hiff m hm).mp hzero)
        rw [hl, hr] at hmem
        exact ⟨hmem.trans hl.symm, hmem.trans hr.symm⟩
    | some a =>
      intro ha
      obtain ⟨ha, hzero, hreached⟩ := ha.resolve_left (fun heq => nomatch heq)
      have hlt := mem_range.mp ha
      refine ends_bind (ends_readRow a 0 _) ?_
      intro rowB hrowB
      refine ends_bind ends_any ?_
      intro _ _
      apply ends_finish
      -- The factor that the anchor is in may be called the left one.
      have hpropose : ∀ c t, Fits rows terms c t → t.left a = true →
          ∃ s', classify (some diagonal) rowA rowB
          scan.coefficient (List.range rows) ⟨scan.members, scan.members⟩ = some s' ∧
          Fits rows terms scan.coefficient s' := by
        intro c t h hleft
        obtain ⟨rfl, hiff, hrow⟩ := h.shared hdiag hscan hs hrowA'
        have hsingle : ∀ m < rows, diagonal m = 0 → (t.left m && t.right m) = false :=
          fun m hm hz => Bool.eq_false_of_not_eq_true fun htrue => (hiff m hm).mpr htrue hz
        have hright : t.right a = false := by
          have hboth := hsingle a hlt hzero
          rwa [hleft, Bool.true_and] at hboth
        have hboth : ∀ m < rows, scan.members m = true → t.left m = true ∧ t.right m = true := by
          intro m hm htrue
          rw [hmembers h m hm] at htrue
          exact (Bool.and_eq_true _ _).mp htrue
        obtain ⟨s', hs', hagree⟩ := classify_shared rowB (s := ⟨scan.members, scan.members⟩) hne
          (fun m hm hz => ⟨hsingle m (mem_range.mp hm) hz, hrow m (mem_range.mp hm) hz,
            (hrowB m (Nat.zero_le m) (mem_range.mp hm)).trans
            (h.leftRow hlt (mem_range.mp hm) hleft hright)⟩)
          (fun m => ⟨fun htrue => (hboth m (mem_range.mp ((hscan.members m).mp htrue).1) htrue).1,
            fun htrue => (hboth m (mem_range.mp ((hscan.members m).mp htrue).1) htrue).2⟩)
          (fun m hm hz => by
            have hmem := hmembers h m (mem_range.mp hm)
            obtain ⟨hl, hr⟩ := (Bool.and_eq_true _ _).mp ((hiff m (mem_range.mp hm)).mp hz)
            rw [hl, hr] at hmem
            exact ⟨hmem.trans hl.symm, hmem.trans hr.symm⟩)
        exact ⟨s', hs', h.of_agree fun m hm => hagree m (.inr (mem_range.mpr hm))⟩
      intro c t h
      obtain ⟨hc, _, hrow⟩ := h.shared hdiag hscan hs hrowA'
      rw [hrow a hlt hzero, hc] at hreached
      rcases (Bool.or_eq_true _ _).mp ((ite_ne_zero_iff hne _).mp hreached) with hleft | hright
      · exact hpropose c t h hleft
      · exact hpropose c _ h.swap hright

lemma ends_recoverDisjoint (hdiag : ∀ m < rows, entryOf terms m m = 0) :
    Ends (recoverDisjoint rows terms) (Exact rows terms) := by
  refine ends_bind (ends_findPair _ _) ?_
  intro ⟨o, row⟩ hfound
  cases o with
  | none =>
    apply ends_pure
    intro a ha b hb
    have hzero : productEntry (0 : BitVec w) Split.empty a b = 0 := by
      rw [productEntry, paired, zero_mul, zero_mul, ite_self, add_zero]
    rw [hzero]
    rcases Nat.lt_trichotomy a b with hlt | rfl | hlt
    · exact hfound a (mem_range.mpr ha) b hlt hb
    · exact hdiag a ha
    · rw [entryOf_comm]
      exact hfound b (mem_range.mpr hb) a hlt ha
  | some p =>
    obtain ⟨a, b, c⟩ := p
    obtain ⟨ha, hab, hb, hval, hne⟩ := hfound
    have ha := mem_range.mp ha
    refine ends_bind (ends_readRow a 0 row) ?_
    intro rowA hrowA
    refine ends_bind (ends_readRow b 0 _) ?_
    intro rowB hrowB
    refine ends_bind ends_any ?_
    intro _ _
    apply ends_finish
    -- The factor that the first of the pair is in may be called the left one.
    have hpropose : ∀ c' t, Fits rows terms c' t → (t.left a && t.right b) = true → ∃ s',
        classify none rowA rowB c (List.range rows) Split.empty = some s' ∧
        Fits rows terms c s' := by
      intro c' t h hboth
      have hzero : ∀ m < rows, (if (t.left m && t.right m) = true then c' else 0) = 0 :=
        fun m hm => (h.self hm).symm.trans (hdiag m hm)
      obtain ⟨hleft, hright⟩ := (Bool.and_eq_true _ _).mp hboth
      have hc' : c' ≠ 0 := by
        rintro rfl
        rw [h.pair ha hb hab.ne, ite_self, ite_self, add_zero] at hval
        exact hne hval
      have hsingle : ∀ m < rows, (t.left m && t.right m) = false := fun m hm =>
        Bool.eq_false_of_not_eq_true fun htrue => (ite_ne_zero_iff hc' _).mpr htrue (hzero m hm)
      have hra : t.right a = false := by
        have hboth := hsingle a ha
        rwa [hleft, Bool.true_and] at hboth
      have hlb : t.left b = false := by
        have hboth := hsingle b hb
        rwa [hright, Bool.and_true] at hboth
      have hc : c = c' := by
        rw [hval, h.leftRow ha hb hleft hra, if_pos hright]
      subst hc
      obtain ⟨s', hs', hagree⟩ := classify_disjoint rowA rowB t hne (List.range rows)
        (fun m hm => ⟨hsingle m (mem_range.mp hm),
          (hrowA m (Nat.zero_le m) (mem_range.mp hm)).trans
          (h.leftRow ha (mem_range.mp hm) hleft hra),
          (hrowB m (Nat.zero_le m) (mem_range.mp hm)).trans
            (h.rightRow hb (mem_range.mp hm) hlb hright)⟩)
        Split.empty
      exact ⟨s', hs', h.of_agree fun m hm => hagree m (.inr (mem_range.mpr hm))⟩
    intro c' t h
    rw [h.pair ha hb hab.ne] at hval
    by_cases hboth : (t.left a && t.right b) = true
    · exact hpropose c' t h hboth
    · rw [if_neg hboth, zero_add] at hval
      by_cases hboth' : (t.left b && t.right a) = true
      · rw [Bool.and_comm] at hboth'
        exact hpropose c' _ h.swap hboth'
      · rw [if_neg hboth'] at hval
        exact absurd hval hne

lemma ends_recoverClasses : Ends (recoverClasses rows terms) (Exact rows terms) := by
  refine ends_bind ends_readDiagonal ?_
  intro diagonal hdiag
  refine ends_bind ends_any ?_
  intro _ _
  have hscan := scanDiagonal_ok (List.range rows) (scanOk_start diagonal)
  revert hscan
  rw [nil_append]
  cases scanDiagonal diagonal (List.range rows) {} with
  | none =>
    intro ⟨m, hm, k, hk, hm0, hk0, hmk⟩
    apply ends_pure
    intro c t h
    rw [hdiag m (mem_range.mp hm), h.self (mem_range.mp hm)] at hm0 hmk
    rw [hdiag k (mem_range.mp hk), h.self (mem_range.mp hk)] at hk0 hmk
    have hpos : ∀ b : Bool, (if b = true then c else 0) ≠ 0 → (if b = true then c else 0) = c := by
      intro b
      cases b with
      | true => exact fun _ => rfl
      | false => exact fun h => absurd rfl h
    exact hmk ((hpos _ hm0).trans (hpos _ hk0).symm)
  | some scan =>
    intro hscan
    dsimp only
    cases hs : scan.shared with
    | some s => exact ends_recoverShared hdiag hscan hs
    | none =>
      apply ends_recoverDisjoint
      intro m hm
      rw [← hdiag m hm]
      by_contra hne
      have hsome := (hscan.equal m (mem_range.mpr hm) hne).1
      rw [hs] at hsome
      cases hsome

end NeverD.Mba
