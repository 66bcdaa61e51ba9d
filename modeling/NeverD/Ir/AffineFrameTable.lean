import NeverD.Ir.AffineFrameState
import NeverD.Lib.WordOps

namespace NeverD.Ir.AffineFrameState
open List Nat NeverD.Ir.Frame

open NeverD.Lib

def terms (anchors : List Origin) : List Frame.Anchor :=
  anchors.foldl (fun ts o => ts ++ [.aligned (ts.getD o.anchor .sp) o.offset o.alignment]) [.sp]

def term (anchors : List Origin) (a : Nat) : Frame.Anchor := (terms anchors).getD a .sp

section

variable {anchors : List Origin}

lemma terms_snoc (anchors : List Origin) (o : Origin) :
    terms (anchors ++ [o]) = terms anchors ++
      [.aligned (term anchors o.anchor) o.offset o.alignment] := by
  unfold terms
  rw [foldl_append]
  rfl

lemma length_terms (anchors : List Origin) : (terms anchors).length = anchors.length + 1 := by
  induction anchors using List.reverseRecOn with
  | nil => rfl
  | append_singleton anchors o ih => rw [terms_snoc, length_append, length_append, ih]; rfl

lemma term_append (more : List Origin) {a : Nat} (h : a ≤ anchors.length) :
    term (anchors ++ more) a = term anchors a := by
  induction more using List.reverseRecOn with
  | nil => rw [append_nil]
  | append_singleton more o ih =>
    rw [← ih, ← append_assoc]
    unfold term
    rw [terms_snoc]
    apply getD_append
    rw [length_terms, length_append]
    omega

lemma term_stable {anchors' : List Origin} (hpre : anchors <+: anchors') {a : Nat}
    (h : a ≤ anchors.length) : term anchors' a = term anchors a := by
  obtain ⟨more, rfl⟩ := hpre
  exact term_append more h

lemma term_zero (anchors : List Origin) : term anchors 0 = .sp :=
  term_stable ( nil_prefix) (Nat.le_refl 0)

lemma term_last (anchors : List Origin) (o : Origin) :
    term (anchors ++ [o]) (anchors.length + 1) = .aligned (term anchors o.anchor)
      o.offset o.alignment := by
  have hget : ∀ a (ts : List Anchor) (n : Nat), ts.length = n → (ts ++ [a]).getD n .sp = a := by
    intro a ts n hn
    subst hn
    rw [getD_append_right _ _ _ _ le_rfl, Nat.sub_self]
    rfl
  unfold term
  rw [terms_snoc]
  exact hget _ _ _ (length_terms anchors)

/-- Each origin is interned once, after the anchor that it starts from. -/
structure Interned (anchors : List Origin) : Prop where
  nodup : anchors.Nodup
  origin : ∀ (k : Nat) (o : Origin), anchors[k]? = some o → o.anchor ≤ k ∧ IsAlignment o.alignment

lemma interned_nil : Interned [] := ⟨nodup_nil, fun k o h => by cases h⟩

lemma Interned.term_succ (h : Interned anchors) {k : Nat} {o : Origin} (ho : anchors[k]? = some o) :
    term anchors (k + 1) = .aligned (term anchors o.anchor) o.offset o.alignment := by
  obtain ⟨hk, hget⟩ := List.getElem?_eq_some_iff.mp ho
  have htake : anchors.take (k + 1) = anchors.take k ++ [o] := by rw [take_add_one, ho]; rfl
  have hlen : (anchors.take k).length = k := length_take_of_le (le_of_lt hk)
  have hlast := term_last (anchors.take k) o
  rw [hlen, ← htake] at hlast
  have hpre := take_prefix (k + 1) anchors
  have hsucc : term anchors (k + 1) = term (anchors.take (k + 1)) (k + 1) :=
    term_stable hpre (by rw [length_take_of_le hk])
  have hbase : term anchors o.anchor = term (anchors.take k) o.anchor :=
    term_stable ( take_prefix k anchors) (by rw [hlen]; exact (h.origin k o ho).1)
  rw [hsucc, hlast, hbase]

theorem exists_origin {a : Nat} (h : a ≤ anchors.length) : a = 0 ∨ ∃ k o, a = k + 1 ∧
    anchors[k]? = some o := by
  cases a with
  | zero => exact .inl rfl
  | succ k =>
    have hk : k < anchors.length := h
    exact .inr ⟨k, anchors[k], rfl, getElem?_eq_getElem hk⟩

variable (h : Interned anchors)
include h

lemma Interned.anchor_le {k : Nat} {o : Origin} (ho : anchors[k]? = some o) :
    o.anchor ≤ anchors.length := by
  have hk := (List.getElem?_eq_some_iff.mp ho).1
  have := (h.origin k o ho).1
  omega

lemma Interned.term_inj (i : Nat) :
    ∀ j, i ≤ anchors.length → j ≤ anchors.length → term anchors i = term anchors j → i = j := by
  -- the anchor that an origin starts from has a smaller number
  induction i using Nat.strong_induction_on with
  | _ i ih =>
    intro j hi hj heq
    rcases exists_origin hi with rfl | ⟨k, o, rfl, ho⟩
    · rcases exists_origin hj with rfl | ⟨l, p, rfl, hp⟩
      · rfl
      · rw [term_zero, h.term_succ hp] at heq
        cases heq
    · rcases exists_origin hj with rfl | ⟨l, p, rfl, hp⟩
      · rw [term_zero, h.term_succ ho] at heq
        cases heq
      · rw [h.term_succ ho, h.term_succ hp] at heq
        injection heq with hbase hoffset halign
        have hanchor := ih o.anchor (lt_succ_of_le (h.origin k o ho).1) p.anchor (h.anchor_le ho)
          (h.anchor_le hp) hbase
        have hop : o = p := by
          cases o
          cases p
          dsimp only at hanchor hoffset halign
          rw [hanchor, hoffset, halign]
        rw [hop] at ho
        obtain ⟨hk, hgetk⟩ := List.getElem?_eq_some_iff.mp ho
        obtain ⟨hl, hgetl⟩ := List.getElem?_eq_some_iff.mp hp
        have hkl : k = l := (List.Nodup.getElem_inj_iff h.nodup).mp (hgetk.trans hgetl.symm)
        rw [hkl]

lemma Interned.term_legal (a : Nat) : a ≤ anchors.length → (term anchors a).Legal := by
  induction a using Nat.strong_induction_on with
  | _ a ih =>
    intro ha
    rcases exists_origin ha with rfl | ⟨k, o, rfl, ho⟩
    · rw [term_zero]
      trivial
    · rw [h.term_succ ho]
      have hle := (h.origin k o ho).1
      exact ⟨ih o.anchor (lt_succ_of_le hle) (h.anchor_le ho), (h.origin k o ho).2⟩

lemma Interned.snoc {o : Origin} (hnew : o ∉ anchors) (hbase : o.anchor ≤ anchors.length)
    (hal : IsAlignment o.alignment) : Interned (anchors ++ [o]) := by
  refine ⟨?_, ?_⟩
  · rw [nodup_append]
    refine ⟨h.nodup, nodup_singleton o, ?_⟩
    intro a ha b hb hab
    rw [mem_singleton.mp hb] at hab
    exact hnew (hab ▸ ha)
  · intro k p hp
    rcases lt_or_ge k anchors.length with hk | hk
    · rw [getElem?_append_left hk] at hp
      exact h.origin k p hp
    · rw [getElem?_append_right hk] at hp
      have hzero : k - anchors.length = 0 := by
        have := (List.getElem?_eq_some_iff.mp hp).1
        simp only [length_singleton] at this
        omega
      rw [hzero] at hp
      injection hp with hp
      rw [← hp]
      exact ⟨by omega, hal⟩

end

def Shows (anchors : List Origin) (c : Nat × Int) (d : Frame.Coordinate) : Prop :=
  c.1 ≤ anchors.length ∧ d = (term anchors c.1, c.2)

lemma Shows.mono {anchors anchors' : List Origin} (hpre : anchors <+: anchors') (c : Nat × Int)
    (d : Coordinate) (h : Shows anchors c d) : Shows anchors' c d :=
  ⟨h.1.trans hpre.length_le, by rw [term_stable hpre h.1]; exact h.2⟩

lemma Interned.shows_iff {anchors : List Origin} (h : Interned anchors) (v : Nat × Int)
    (w : Coordinate)
    (v' : Nat × Int) (w' : Coordinate) (hv : Shows anchors v w) (hv' : Shows anchors v' w') :
    v = v' ↔ w = w' := by
  obtain ⟨hle, rfl⟩ := hv
  obtain ⟨hle', rfl⟩ := hv'
  constructor
  · intro heq
    rw [heq]
  · intro heq
    injection heq with hterm hoffset
    exact Prod.ext (h.term_inj v.1 v'.1 hle hle' hterm) hoffset

section

lemma ldiff_add_and (m n : Nat) : Nat.ldiff m n + (m &&& n) = m := by
  rw [Words.add_eq_or]
  · apply eq_of_testBit_eq
    intro i
    rw [testBit_or, testBit_ldiff, testBit_and]
    cases m.testBit i <;> cases n.testBit i <;> rfl
  · apply eq_of_testBit_eq
    intro i
    rw [testBit_and, testBit_ldiff, testBit_and, zero_testBit]
    cases m.testBit i <;> cases n.testBit i <;> rfl

lemma or_eq_ldiff_add (m n : Nat) : m ||| n = Nat.ldiff m n + n := by
  rw [Words.add_eq_or]
  · apply eq_of_testBit_eq
    intro i
    rw [testBit_or, testBit_or, testBit_ldiff]
    cases m.testBit i <;> cases n.testBit i <;> rfl
  · apply eq_of_testBit_eq
    intro i
    rw [testBit_and, testBit_ldiff, zero_testBit]
    cases m.testBit i <;> cases n.testBit i <;> rfl

theorem land_neg {a : Nat} (ha : IsAlignment a) (o : Int) : Int.land o (-a) = alignOffset a o := by
  have hpos := ha.pos
  obtain ⟨k, _, _, rfl⟩ := ha
  have hneg : -((2 ^ k : Nat) : Int) = Int.negSucc (2 ^ k - 1) := by
    rw [Int.negSucc_eq]
    omega
  have hlow : ∀ m : Nat, Nat.ldiff m (2 ^ k - 1) + m % 2 ^ k = m := by
    intro m
    rw [← and_two_pow_sub_one_eq_mod]
    exact ldiff_add_and m (2 ^ k - 1)
  rw [hneg]
  unfold alignOffset
  cases o with
  | ofNat m =>
    show ((Nat.ldiff m (2 ^ k - 1) : Nat) : Int) = (m : Int) - (m : Int) % ((2 ^ k : Nat) : Int)
    have h := hlow m
    omega
  | negSucc m =>
    show Int.negSucc (m ||| (2 ^ k - 1)) = _
    have h := hlow m
    have hmod : (Int.negSucc m) % ((2 ^ k : Nat) : Int) =
        ((2 ^ k : Nat) : Int) - 1 - ((m % 2 ^ k : Nat) : Int) := by
      rw [Int.negSucc_emod m (by omega)]
      omega
    rw [hmod, or_eq_ldiff_add, Int.negSucc_eq, Int.negSucc_eq]
    omega

end

theorem step_spec {anchors : List Origin} (h : Interned anchors) {s : State} {t : Flat Coordinate}
    (hs : Flat.Rel (Shows anchors) s t) (ht : t ≠ .unknown) {e : FrameStep} (he : e.Legal) :
    anchors <+: (step anchors s e).1 ∧ Interned (step anchors s e).1 ∧
      Flat.Rel (Shows (step anchors s e).1) (step anchors s e).2 (Flat.pass (transfer e) t) := by
  cases hs with
  | unknown => exact absurd rfl ht
  | invalid => exact ⟨prefix_rfl, h, .invalid⟩
  | @value c d hc =>
    obtain ⟨anchor, offset⟩ := c
    obtain ⟨hle, rfl⟩ := hc
    unfold step Flat.pass transfer
    dsimp only at hle ⊢
    by_cases hzero : e.alignment = 0
    · rw [if_pos hzero, if_pos hzero]
      cases hoff : checkedAffineOffset offset e.delta e.subtract with
      | none => exact ⟨prefix_rfl, h, .invalid⟩
      | some o => exact ⟨prefix_rfl, h, .value ⟨hle, rfl⟩⟩
    · have hal := he.resolve_left hzero
      have hiff : (anchor ≠ 0 ∧ ∃ origin ∈ anchors[anchor - 1]?, e.alignment ≤ origin.alignment) ↔
          e.alignment ≤ (term anchors anchor).alignment := by
        rcases exists_origin hle with rfl | ⟨k, o, rfl, ho⟩
        · rw [term_zero]
          exact ⟨fun hcon => absurd rfl hcon.1, fun hcon => absurd hal.pos (Nat.not_lt_of_le hcon)⟩
        · rw [h.term_succ ho, Nat.add_sub_cancel, ho]
          constructor
          · intro hcon
            obtain ⟨-, p, hp, hcmp⟩ := hcon
            rw [Option.mem_some_iff.mp hp]
            exact hcmp
          · intro hcmp
            exact ⟨succ_ne_zero k, o, rfl, hcmp⟩
      rw [if_neg hzero, if_neg hzero]
      by_cases hcmp : e.alignment ≤ (term anchors anchor).alignment
      · rw [if_pos (hiff.mpr hcmp), if_pos hcmp]
        refine ⟨prefix_rfl, h, .value ⟨hle, ?_⟩⟩
        rw [land_neg hal]
      · rw [if_neg fun hcon => hcmp (hiff.mp hcon), if_neg hcmp]
        by_cases hmem : (⟨anchor, offset, e.alignment⟩ : Origin) ∈ anchors
        · rw [if_pos hmem]
          have hlt := idxOf_lt_length_of_mem hmem
          have hget : anchors[anchors.idxOf (⟨anchor, offset, e.alignment⟩ : Origin)]? =
              some ⟨anchor, offset, e.alignment⟩ := by
            rw [getElem?_eq_getElem hlt, getElem_idxOf hlt]
          refine ⟨prefix_rfl, h, .value ⟨hlt, ?_⟩⟩
          rw [h.term_succ hget]
        · rw [if_neg hmem]
          refine ⟨prefix_append _ _, h.snoc hmem hle hal, .value ⟨?_, ?_⟩⟩
          · rw [length_append]
            exact le_rfl
          · rw [term_last]

lemma meet_fst (target input : State) : (meet target input).1 = target.meet input := by
  cases input with
  | unknown => cases target <;> rfl
  | invalid => cases target <;> rfl
  | value w =>
    cases target with
    | unknown => rfl
    | invalid => rfl
    | value v =>
      unfold meet Flat.meet
      dsimp only
      by_cases hvw : v = w
      · rw [if_neg fun hne => hne hvw, if_pos hvw]
      · rw [if_pos hvw, if_neg hvw]

lemma meet_snd (target input : State) : (meet target input).2 = true ↔
    target.meet input ≠ target := by
  cases input with
  | unknown | invalid => cases target <;> simp [meet, Flat.meet]
  | value w =>
    cases target with
    | unknown => simp [meet, Flat.meet]
    | invalid => simp [meet, Flat.meet]
    | value v =>
      unfold meet Flat.meet
      dsimp only
      by_cases hvw : v = w
      · rw [if_neg fun hne => hne hvw, if_pos hvw]
        simp
      · rw [if_pos hvw, if_neg hvw]
        simp

/-- Where an anchor lies: its address is the address of the anchor it starts from, moved within the
bounds. -/
theorem boundsFrom_sound {anchors : List Origin} (h : Interned anchors) (sp : Address)
    (fuel : Nat) :
    ∀ {a : Nat} {low high lo hi : Int}, a ≤ anchors.length →
      boundsFrom anchors fuel a low high = some (lo, hi) →
      ∀ {x : Address} {d : Int}, x = (term anchors a).address sp + BitVec.ofInt 64 d → low ≤ d →
        d ≤ high → ∃ d', lo ≤ d' ∧ d' ≤ hi ∧ x = sp + BitVec.ofInt 64 d' := by
  induction fuel with
  | zero =>
    intro a low high lo hi ha hb x d hx hlow hhigh
    unfold boundsFrom at hb
    split at hb
    next hzero =>
      rw [hzero, term_zero] at hx
      injection hb with hb
      injection hb with hlo hhi
      exact ⟨d, hlo ▸ hlow, hhi ▸ hhigh, hx⟩
    · cases hb
  | succ fuel ih =>
    intro a low high lo hi ha hb x d hx hlow hhigh
    unfold boundsFrom at hb
    split at hb
    next hzero =>
      rw [hzero, term_zero] at hx
      injection hb with hb
      injection hb with hlo hhi
      exact ⟨d, hlo ▸ hlow, hhi ▸ hhigh, hx⟩
    next hne =>
      rcases exists_origin ha with hzero | ⟨k, o, rfl, ho⟩
      · exact absurd hzero hne
      · rw [Nat.add_sub_cancel, ho] at hb
        dsimp only at hb
        split at hb
        next newHigh newLow hnewHigh hnewLow =>
          obtain ⟨shifted, hshifted, hnewLow⟩ := Option.bind_eq_some_iff.mp hnewLow
          have heqHigh := checkedAffineOffset_eq hnewHigh
          have heqShifted := checkedAffineOffset_eq hshifted
          have heqLow := checkedAffineOffset_eq hnewLow
          rw [if_neg (by decide)] at heqHigh heqShifted
          rw [if_pos rfl] at heqLow
          -- aligning takes off the residue, which is less than the alignment
          let y := (term anchors o.anchor).address sp + BitVec.ofInt 64 o.offset
          have hres : y.toNat % o.alignment < o.alignment := mod_lt _ (h.origin k o ho).2.pos
          apply ih (h.anchor_le ho) hb (x := x)
            (d := o.offset + d - ((y.toNat % o.alignment : Nat) : Int))
          · rw [hx, h.term_succ ho]
            show alignDown o.alignment y + BitVec.ofInt 64 d = _
            rw [alignDown_eq, Int.sub_eq_add_neg, BitVec.ofInt_add, BitVec.ofInt_add]
            show (term anchors o.anchor).address sp + BitVec.ofInt 64 o.offset + _ + _ = _
            ring
          · omega
          · omega
        · cases hb

end NeverD.Ir.AffineFrameState
