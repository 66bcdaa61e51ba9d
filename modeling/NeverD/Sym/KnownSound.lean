import NeverD.Sym.Known

namespace NeverD.Sym
open Lib
open Words List Nat Bool

structure KnownBits.Knows (k : KnownBits) (w x : Nat) : Prop where
  width : k.width = w
  bounded : k.zero < 2 ^ w
  clear : ∀ i, k.zero.testBit i = true → x.testBit i = false
  set : ∀ i, k.one.testBit i = true → x.testBit i = true

namespace KnownBits

variable {k k' : KnownBits} {v w x y : Nat}

lemma knows_unknown (w x : Nat) : (unknown w).Knows w x :=
  ⟨rfl, Nat.two_pow_pos w, fun i h => by simp [unknown] at h, fun i h => by simp [unknown] at h⟩

lemma knows_const (a : APInt) : (makeConstant a).Knows a.width a.toNat := by
  refine ⟨rfl, a.not.toNat_lt, fun i h => ?_, fun i h => h⟩
  change a.not.toNat.testBit i = true at h
  rw [toNat_not, testBit_notOf a.toNat_lt] at h
  simpa using (and_eq_true_iff.mp h).2

lemma Knows.one_lt (h : k.Knows w x) (hx : x < 2 ^ w) : k.one < 2 ^ w :=
  lt_of_le_of_lt (le_of_bits h.set) hx

lemma Knows.min_le (h : k.Knows w x) : k.getMinValue ≤ x := le_of_bits h.set

lemma Knows.le_max (h : k.Knows w x) (hx : x < 2 ^ w) : x ≤ k.getMaxValue := by
  unfold getMaxValue
  apply le_of_bits
  intro i hi
  rw [h.width, testBit_notOf h.bounded]
  have hlt := lt_of_testBit_true hx hi
  cases hz : k.zero.testBit i with
  | false => simp [hlt]
  | true => rw [h.clear i hz] at hi; cases hi

lemma Knows.constant (h : k.Knows w x) (hx : x < 2 ^ w) (hc : k.isConstant = true) : k.one = x := by
  have hsum : k.zero + k.one = ones k.width := of_decide_eq_true hc
  rw [h.width] at hsum
  have h1 : k.one ≤ x := h.min_le
  have h2 : x ≤ ones w - k.zero := by
    have h3 := h.le_max hx
    unfold getMaxValue notOf at h3
    rwa [h.width] at h3
  omega

lemma Knows.zext (h : k.Knows v x) (hx : x < 2 ^ v) (hw : v ≤ w) : (k.zext w).Knows w x := by
  refine ⟨rfl, ?_, fun i hi => ?_, h.set⟩
  · exact or_lt_two_pow (h.bounded.trans_le (Nat.pow_le_pow_right two_pos hw)) (notOf_lt ..)
  · change (k.zero ||| notOf w (ones k.width)).testBit i = true at hi
    have hle : ones k.width < 2 ^ w := by
      rw [h.width]
      exact (ones_lt v).trans_le (Nat.pow_le_pow_right two_pos hw)
    rw [testBit_or, testBit_notOf hle, testBit_ones, h.width] at hi
    cases hz : k.zero.testBit i with
    | true => exact h.clear i hz
    | false =>
      rw [hz] at hi
      apply testBit_of_lt hx
      simp at hi
      exact hi.2

lemma Knows.sext (h : k.Knows v x) (hx : x < 2 ^ v) (hw : v ≤ w) :
    (k.sext w).Knows w (sextOf v w x) := by
  have h1 := h.one_lt hx
  refine ⟨rfl, ?_, fun i hi => ?_, fun i hi => ?_⟩
  · show sextOf k.width w k.zero < 2 ^ w
    rw [h.width]
    exact sextOf_lt h.bounded hw
  · change (sextOf k.width w k.zero).testBit i = true at hi
    rw [h.width, testBit_sextOf h.bounded hw] at hi
    rw [testBit_sextOf hx hw]
    split
    next hlt =>
      rw [if_pos hlt] at hi
      exact h.clear i hi
    next hlt =>
      rw [if_neg hlt] at hi
      rw [and_eq_true_iff] at hi
      rw [msb, h.clear _ hi.2]
      simp
  · change (sextOf k.width w k.one).testBit i = true at hi
    rw [h.width, testBit_sextOf h1 hw] at hi
    rw [testBit_sextOf hx hw]
    split
    next hlt =>
      rw [if_pos hlt] at hi
      exact h.set i hi
    next hlt =>
      rw [if_neg hlt] at hi
      rw [and_eq_true_iff] at hi
      rw [msb, h.set _ hi.2, hi.1]
      rfl

lemma Knows.extract (h : k.Knows v x) (low w : Nat) :
    (k.extractBits w low).Knows w (slice low w x) := by
  refine ⟨rfl, slice_lt .., fun i hi => ?_, fun i hi => ?_⟩
  · change (slice low w k.zero).testBit i = true at hi
    rw [testBit_slice, and_eq_true_iff] at hi
    rw [testBit_slice, h.clear _ hi.2]
    simp
  · change (slice low w k.one).testBit i = true at hi
    rw [testBit_slice, and_eq_true_iff] at hi
    rw [testBit_slice, h.set _ hi.2, hi.1]
    rfl

lemma Knows.concat (h : k.Knows v x) (h' : k'.Knows w y) (hy : y < 2 ^ w) :
    (k.concat k').Knows (v + w) (x * 2 ^ w + y) := by
  have h1 := h'.one_lt hy
  refine ⟨?_, ?_, fun i hi => ?_, fun i hi => ?_⟩
  · show k.width + k'.width = _
    rw [h.width, h'.width]
  · show k.zero * 2 ^ k'.width + k'.zero < _
    rw [h'.width, pow_add]
    have h2 := h'.bounded
    have h3 : (k.zero + 1) * 2 ^ w ≤ 2 ^ v * 2 ^ w := Nat.mul_le_mul_right _ h.bounded
    rw [add_mul, one_mul] at h3
    omega
  · change (k.zero * 2 ^ k'.width + k'.zero).testBit i = true at hi
    rw [h'.width, mul_comm, testBit_two_pow_mul_add _ h'.bounded] at hi
    rw [mul_comm, testBit_two_pow_mul_add _ hy]
    split
    next hlt =>
      rw [if_pos hlt] at hi
      exact h'.clear i hi
    next hlt =>
      rw [if_neg hlt] at hi
      exact h.clear _ hi
  · change (k.one * 2 ^ k'.width + k'.one).testBit i = true at hi
    rw [h'.width, mul_comm, testBit_two_pow_mul_add _ h1] at hi
    rw [mul_comm, testBit_two_pow_mul_add _ hy]
    split
    next hlt =>
      rw [if_pos hlt] at hi
      exact h'.set i hi
    next hlt =>
      rw [if_neg hlt] at hi
      exact h.set _ hi

lemma knows_intersect_left (hw : k.width = w) (hz : k.zero < 2 ^ w)
    (h : ∀ i, k.zero.testBit i = true → k'.zero.testBit i = true → x.testBit i = false)
    (h1 : ∀ i, k.one.testBit i = true → k'.one.testBit i = true → x.testBit i = true) :
    (k.intersectWith k').Knows w x := by
  refine ⟨hw, lt_of_le_of_lt and_le_left hz, fun i hi => ?_, fun i hi => ?_⟩
  · change (k.zero &&& k'.zero).testBit i = true at hi
    rw [testBit_and, and_eq_true_iff] at hi
    exact h i hi.1 hi.2
  · change (k.one &&& k'.one).testBit i = true at hi
    rw [testBit_and, and_eq_true_iff] at hi
    exact h1 i hi.1 hi.2

variable (h : k.Knows w x)
include h

lemma Knows.not (hx : x < 2 ^ w) : k.not.Knows w (notOf w x) := by
  refine ⟨h.width, h.one_lt hx, fun i hi => ?_, fun i hi => ?_⟩
  · rw [testBit_notOf hx, h.set i hi]
    simp
  · rw [testBit_notOf hx, h.clear i hi]
    simpa using lt_of_testBit_true h.bounded hi

lemma Knows.and (h' : k'.Knows w y) : (k.and k').Knows w (x &&& y) := by
  refine ⟨h.width, or_lt_two_pow h.bounded h'.bounded, fun i hi => ?_, fun i hi => ?_⟩
  · change (k.zero ||| k'.zero).testBit i = true at hi
    rw [testBit_or, or_eq_true_iff] at hi
    rw [testBit_and]
    rcases hi with hi | hi
    · rw [h.clear i hi]; rfl
    · rw [h'.clear i hi, Bool.and_false]
  · change (k.one &&& k'.one).testBit i = true at hi
    rw [testBit_and, and_eq_true_iff] at hi
    rw [testBit_and, h.set i hi.1, h'.set i hi.2]
    rfl

lemma Knows.or (h' : k'.Knows w y) : (k.or k').Knows w (x ||| y) := by
  refine ⟨h.width, lt_of_le_of_lt and_le_left h.bounded, fun i hi => ?_, fun i hi => ?_⟩
  · change (k.zero &&& k'.zero).testBit i = true at hi
    rw [testBit_and, and_eq_true_iff] at hi
    rw [testBit_or, h.clear i hi.1, h'.clear i hi.2]
    rfl
  · change (k.one ||| k'.one).testBit i = true at hi
    rw [testBit_or, or_eq_true_iff] at hi
    rw [testBit_or]
    rcases hi with hi | hi
    · rw [h.set i hi]; rfl
    · rw [h'.set i hi, Bool.or_true]

lemma Knows.xor (h' : k'.Knows w y) (hx : x < 2 ^ w) : (k.xor k').Knows w (x ^^^ y) := by
  refine ⟨h.width, ?_, fun i hi => ?_, fun i hi => ?_⟩
  · exact or_lt_two_pow (lt_of_le_of_lt and_le_left h.bounded)
      (lt_of_le_of_lt and_le_left (h.one_lt hx))
  · change ((k.zero &&& k'.zero) ||| (k.one &&& k'.one)).testBit i = true at hi
    rw [testBit_or, testBit_and, testBit_and, or_eq_true_iff, and_eq_true_iff,
      and_eq_true_iff] at hi
    rw [testBit_xor]
    rcases hi with hi | hi
    · rw [h.clear i hi.1, h'.clear i hi.2]; rfl
    · rw [h.set i hi.1, h'.set i hi.2]; rfl
  · change ((k.zero &&& k'.one) ||| (k.one &&& k'.zero)).testBit i = true at hi
    rw [testBit_or, testBit_and, testBit_and, or_eq_true_iff, and_eq_true_iff,
      and_eq_true_iff] at hi
    rw [testBit_xor]
    rcases hi with hi | hi
    · rw [h.clear i hi.1, h'.set i hi.2]; rfl
    · rw [h.set i hi.1, h'.clear i hi.2]; rfl

lemma Knows.merge (h' : k'.Knows w x) :
    (⟨k.width, k.zero ||| k'.zero, k.one ||| k'.one⟩ : KnownBits).Knows w x := by
  refine ⟨h.width, or_lt_two_pow h.bounded h'.bounded, fun i hi => ?_, fun i hi => ?_⟩
  · rw [testBit_or, or_eq_true_iff] at hi
    exact hi.elim (h.clear i) (h'.clear i)
  · rw [testBit_or, or_eq_true_iff] at hi
    exact hi.elim (h.set i) (h'.set i)

end KnownBits

structure KnownTransfer.Sound [KnownTransfer] : Prop where
  add : ∀ {a b : KnownBits} {w x y : Nat}, a.Knows w x → b.Knows w y → x < 2 ^ w → y < 2 ^ w →
    (KnownTransfer.add a b).Knows w ((x + y) % 2 ^ w)
  mul : ∀ {a b : KnownBits} {w x y : Nat}, a.Knows w x → b.Knows w y → x < 2 ^ w → y < 2 ^ w →
    (KnownTransfer.mul a b).Knows w (x * y % 2 ^ w)
  udiv : ∀ {a b : KnownBits} {w x y : Nat}, a.Knows w x → b.Knows w y → x < 2 ^ w →
    y < 2 ^ w → y ≠ 0 → (KnownTransfer.udiv a b).Knows w (x / y)
  urem : ∀ {a b : KnownBits} {w x y : Nat}, a.Knows w x → b.Knows w y → x < 2 ^ w →
    y < 2 ^ w → y ≠ 0 → (KnownTransfer.urem a b).Knows w (x % y)
  urem_width : ∀ {a b : KnownBits}, a.width = b.width → (KnownTransfer.urem a b).width = a.width
  urem_bounded : ∀ {a b : KnownBits}, a.width = b.width →
    (KnownTransfer.urem a b).zero < 2 ^ a.width
  eq : ∀ {a b : KnownBits} {w x y : Nat} {v : Bool}, a.Knows w x → b.Knows w y → x < 2 ^ w →
    y < 2 ^ w → KnownTransfer.eq a b = some v → v = decide (x = y)
  ult : ∀ {a b : KnownBits} {w x y : Nat} {v : Bool}, a.Knows w x → b.Knows w y → x < 2 ^ w →
    y < 2 ^ w → KnownTransfer.ult a b = some v → v = decide (x < y)
  ule : ∀ {a b : KnownBits} {w x y : Nat} {v : Bool}, a.Knows w x → b.Knows w y → x < 2 ^ w →
    y < 2 ^ w → KnownTransfer.ule a b = some v → v = decide (x ≤ y)
  slt : ∀ {a b : KnownBits} {w x y : Nat} {v : Bool}, a.Knows w x → b.Knows w y → x < 2 ^ w →
    y < 2 ^ w → KnownTransfer.slt a b = some v → v = decide (toInt w x < toInt w y)
  sle : ∀ {a b : KnownBits} {w x y : Nat} {v : Bool}, a.Knows w x → b.Knows w y → x < 2 ^ w →
    y < 2 ^ w → KnownTransfer.sle a b = some v → v = decide (toInt w x ≤ toInt w y)

section

variable [BlockHash] (last : SymContext) (vals : List APInt) (s : SymBuilder)

def FactsOf (r : SymRef) (k : KnownBits) : Prop :=
  r < s.ctx.nodes.length ∧ k.Knows (s.ctx.width r) (last.num vals r)

structure Learned (st : KnownState) : Prop where
  cache : ∀ p ∈ st.cache, FactsOf last vals s p.1 p.2
  facts : ∀ p ∈ st.facts, FactsOf last vals s p.1 p.2.facts

def Learns {α : Type} (m : KnownM α) (Q : α → Prop) : Prop :=
  ∀ st, Learned last vals s st → Learned last vals s (m st).2 ∧ ∀ a, (m st).1 = some a → Q a

end

open KnownM

variable {last : SymContext} {vals : List APInt} {s : SymBuilder}
variable {α β : Type} {P : α → Prop} {Q : β → Prop}

lemma learns_pure {a : α} (h : P a) : Learns last vals s (pure a) P := by
  intro st hst
  refine ⟨hst, ?_⟩
  intro b hb
  cases hb
  exact h

lemma learns_bind {m : KnownM α} {f : α → KnownM β} (hm : Learns last vals s m P)
    (hf : ∀ a, P a → Learns last vals s (f a) Q) : Learns last vals s (m >>= f) Q := by
  intro st hst
  obtain ⟨h1, h2⟩ := hm st hst
  rw [KnownM.bind_apply]
  generalize m st = res at h1 h2
  obtain ⟨a, st'⟩ := res
  cases a with
  | none =>
    refine ⟨h1, fun b hb => ?_⟩
    cases hb
  | some a => exact hf a (h2 a rfl) st' h1

lemma learns_mono {m : KnownM α} {P' : α → Prop} (hm : Learns last vals s m P)
    (h : ∀ a, P a → P' a) : Learns last vals s m P' :=
  fun st hst => ⟨(hm st hst).1, fun a ha => h a ((hm st hst).2 a ha)⟩

lemma learns_giveUp : Learns last vals s (giveUp : KnownM α) P :=
  fun _ hst => ⟨hst, fun _ ha => (nomatch ha)⟩

lemma learns_ite {c : Prop} [Decidable c] {m m' : KnownM α} (ht : c → Learns last vals s m P)
    (hf : ¬ c → Learns last vals s m' P) : Learns last vals s (if c then m else m') P := by
  by_cases h : c
  · rw [if_pos h]
    exact ht h
  · rw [if_neg h]
    exact hf h

lemma learns_read : Learns last vals s KnownM.read fun st => Learned last vals s st := by
  intro st hst
  refine ⟨hst, ?_⟩
  intro a ha
  cases ha
  exact hst

lemma learns_truncate : Learns last vals s truncate fun _ => True :=
  fun _ hst => ⟨⟨hst.cache, hst.facts⟩, fun _ _ => trivial⟩

lemma learns_spend (n : Nat) : Learns last vals s (spend n) fun _ => True := by
  intro st hst
  refine ⟨?_, fun _ _ => trivial⟩
  unfold spend
  split
  · exact ⟨hst.cache, hst.facts⟩
  · exact ⟨hst.cache, hst.facts⟩

lemma learns_charge (n : Nat) : Learns last vals s (charge n) fun _ => True := by
  intro st hst
  refine ⟨?_, fun _ _ => trivial⟩
  unfold charge
  split
  · exact ⟨hst.cache, hst.facts⟩
  · exact ⟨hst.cache, hst.facts⟩

lemma learns_attempt {m : KnownM α} (h : Learns last vals s m P) :
    Learns last vals s (attempt m) fun a => ∀ x, a = some x → P x := by
  intro st hst
  refine ⟨(h st hst).1, ?_⟩
  intro a ha x hx
  cases ha
  exact (h st hst).2 x hx

lemma learns_each {f : α → KnownM β} {R : α → β → Prop} (xs : List α)
    (h : ∀ x ∈ xs, Learns last vals s (f x) (R x)) : Learns last vals s (KnownM.each f xs)
    (List.Forall₂ R xs) := by
  induction xs with
  | nil => exact learns_pure List.Forall₂.nil
  | cons x xs ih =>
    refine learns_bind (h x (mem_cons_self ..)) ?_
    intro y hy
    refine learns_bind (ih fun z hz => h z (mem_cons_of_mem _ hz)) ?_
    intro ys hys
    exact learns_pure (List.Forall₂.cons hy hys)

def unused (bs : List (Bool × β)) : List β := (bs.filter fun b => !b.1).map Prod.snd

lemma learns_findUnused {same : β → KnownM Bool} {R : β → Prop} (bs : List (Bool × β))
    (h : ∀ b ∈ bs, Learns last vals s (same b.2) fun hit => hit = true → R b.2) :
    Learns last vals s (findUnused same bs) fun found => ∀ bs', found = some bs' →
      ∃ b, R b ∧ (unused bs).Perm (b :: unused bs') ∧ bs'.map Prod.snd = bs.map Prod.snd := by
  induction bs with
  | nil => exact learns_pure (fun bs' h => (nomatch h))
  | cons x rest ih =>
    obtain ⟨used, b⟩ := x
    refine learns_bind (learns_spend 1) ?_
    intro _ _
    have hhit : Learns last vals s (unlessUsed used (same b)) fun hit => hit = true → used = false ∧
        R b := by
      apply learns_ite
      · intro _
        exact learns_pure (fun hn => (nomatch hn))
      · intro hu
        refine learns_mono (h (used, b) (mem_cons_self ..)) ?_
        intro hit hr ht
        exact ⟨by simpa using hu, hr ht⟩
    refine learns_bind hhit ?_
    intro hit hh
    apply learns_ite
    · intro ht
      apply learns_pure
      intro bs' hbs'
      cases hbs'
      obtain ⟨rfl, hr⟩ := hh ht
      exact ⟨b, hr, by simp [unused], rfl⟩
    · intro _
      refine learns_bind (ih fun b' hb' => h b' (mem_cons_of_mem _ hb')) ?_
      intro found hfound
      apply learns_pure
      intro bs' hbs'
      obtain ⟨bs₁, rfl, rfl⟩ := Option.map_eq_some_iff.mp hbs'
      obtain ⟨c, hc, hp, hm⟩ := hfound bs₁ rfl
      refine ⟨c, hc, ?_, by rw [map_cons, map_cons, hm]⟩
      cases used with
      | true => simpa [unused] using hp
      | false =>
        have : (unused ((false, b) :: rest)).Perm (b :: c :: unused bs₁) := by
          simpa [unused] using hp
        exact this.trans (.swap ..)

/-- When every term finds a candidate of its own, the terms match a part of the candidates. -/
theorem learns_matchAll {same : α → β → KnownM Bool} {R : α → β → Prop} (as : List α)
    (bs : List (Bool × β))
    (h : ∀ a ∈ as, ∀ b ∈ bs.map Prod.snd, Learns last vals s (same a b) fun hit => hit = true →
    R a b) : Learns last vals s (matchAll same as bs) fun all => all = true →
      ∃ cs rest, (unused bs).Perm (cs ++ rest) ∧ List.Forall₂ R as cs := by
  induction as generalizing bs with
  | nil => exact learns_pure (fun _ => ⟨[], unused bs, .refl _, List.Forall₂.nil⟩)
  | cons a as ih =>
    refine learns_bind (learns_findUnused bs fun b hb => h a (mem_cons_self ..) b.2
      (mem_map_of_mem hb)) ?_
    intro found hfound
    cases found with
    | none => exact learns_pure (fun hn => (nomatch hn))
    | some bs' =>
      obtain ⟨b, hb, hp, hm⟩ := hfound bs' rfl
      refine learns_mono (ih bs' ?_) ?_
      · intro a' ha' b' hb'
        exact h a' (mem_cons_of_mem _ ha') b' (hm ▸ hb')
      · intro all hall ht
        obtain ⟨cs, rest, hperm, hf⟩ := hall ht
        exact ⟨b :: cs, rest, hp.trans (hperm.cons b), List.Forall₂.cons hb hf⟩

end NeverD.Sym
