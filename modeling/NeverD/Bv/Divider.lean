import NeverD.Bv.Literals

namespace NeverD.Bv
open Lib NeverD.Sat Cnf List Growth CnfEncoder
open BitVec (ofInt ofInt_natCast eq_of_toNat_eq toNat_ofInt toNat_ofNat)

variable {R : Type} [FloatArith R]

def selectBits (cond : SatLit) : List SatLit → List SatLit → Encode R (List SatLit)
  | t :: ts, x :: xs => do
    let l ← mkIte cond t x
    return l :: (← selectBits cond ts xs)
  | _, _ => pure []

/-- Complement and increment; the carry of an increment is a conjunction. -/
def incrementNot : List SatLit → SatLit → Encode R (List SatLit)
  | [], _ => pure []
  | a :: as, carry => do
    let l ← mkXor2 a.neg carry
    let next ← (if as.isEmpty then pure carry else mkAnd [a.neg, carry] .both : Encode R SatLit)
    return l :: (← incrementNot as next)

def negateBits (as : List SatLit) : Encode R (List SatLit) := do
  let e ← get
  incrementNot as e.trueLit

def subtractBits : List SatLit → List SatLit → SatLit → Encode R (List SatLit × SatLit)
  | s :: ss, o :: os, carry => do
    let (sum, next) ← mkFullAdder s o carry
    let (difference, last) ← subtractBits ss os next
    return (sum :: difference, last)
  | _, _, carry => pure ([], carry)

/-- Shift a bit of the dividend in and subtract the divisor if nothing is borrowed. -/
def divideStep (bs rest : List SatLit) (a : SatLit) : Encode R (SatLit × List SatLit) := do
  let e ← get
  let shifted := a :: rest.dropLast
  let (difference, carry) ← subtractBits shifted (bs.map Lit.neg ++ [e.trueLit]) e.trueLit
  return (carry, ← selectBits carry difference shifted)

def divideFrom (bs : List SatLit) : List SatLit → List SatLit → List SatLit →
    Encode R (List SatLit × List SatLit)
  | [], rest, quot => pure (quot, rest)
  | a :: as, rest, quot => do
    let (carry, rest) ← divideStep bs rest a
    divideFrom bs as rest (carry :: quot)

def divideBits (as bs : List SatLit) : Encode R (List SatLit × List SatLit) := do
  let e ← get
  let (quot, rest) ← divideFrom bs as.reverse (replicate (as.length + 1) e.falseLit) []
  return (quot, rest.take as.length)

/-- The negation where the condition holds, which is built after it. -/
def negateIf (as : List SatLit) (cond : Encode R SatLit) : Encode R (List SatLit) := do
  let negated ← negateBits as
  selectBits (← cond) negated as

def whenAsked {α : Type} (asked : Bool) (m : Encode R α) : Encode R (Option α) :=
  if asked then do return some (← m) else pure none

/-- The code asserts that the width is not zero. -/
def divideSignedBits (as bs : List SatLit) (quotient remainder : Bool) :
    Encode R (Option (List SatLit) × Option (List SatLit)) :=
  match as.getLast?, bs.getLast? with
  | some signA, some signB => do
    let magnitudeA ← negateIf as (pure signA)
    let magnitudeB ← negateIf bs (pure signB)
    let (quot, rest) ← divideBits magnitudeA magnitudeB
    let quot ← whenAsked quotient (negateIf quot (mkXor2 signA signB))
    return (quot, ← whenAsked remainder (negateIf rest (pure signA)))
  | _, _ => failure

variable {e e' : CnfEncoder R} {as bs rest quot : List SatLit} {c : SatLit}

lemma selectBits_spec (hlen : as.length = bs.length) (hc : c.var < e.numVars)
    (ha : Owns e as) (hb : Owns e bs) :
    requests.Triple e (selectBits c as bs) fun out e' =>
      Word e' as.length out fun σ => if c.eval σ then num σ as else num σ bs := by
  induction as generalizing e bs with
  | nil => exact triple_pure fun _ => word_nil
  | cons t ts ih =>
    obtain ⟨x, xs, rfl⟩ := exists_cons_of_length_eq_add_one hlen.symm
    obtain ⟨ht, hts⟩ := forall_mem_cons.mp ha
    obtain ⟨hx, hxs⟩ := forall_mem_cons.mp hb
    apply triple_bind (mkIte_spec hc ht hx)
    intro l e₁ _ hle hl
    apply triple_bind (ih (Nat.succ.inj hlen) (hc.trans_le hle.vars)
      (.grown hts hle) (.grown hxs hle))
    intro out e₂ _ hle₂ hout
    refine triple_pure fun _ => (word_cons (hl.grown hle₂.toGrown) hout).congr fun σ _ => ?_
    cases c.eval σ <;> rfl

lemma incrementNot_spec (hc : c.var < e.numVars) (ha : Owns e as) :
    requests.Triple e (incrementNot as c) fun out e' =>
      Word e' as.length out fun σ => (c.eval σ).toNat + num σ (as.map Lit.neg) := by
  induction as generalizing e c with
  | nil => exact triple_pure fun _ => word_nil
  | cons a as ih =>
    obtain ⟨ha, has⟩ := forall_mem_cons.mp ha
    have hneg : a.neg.var < e.numVars := ha
    have hadd : ∀ σ,
        (((a.neg.eval σ ^^ c.eval σ).toNat : Nat) + 2 * (((a.neg.eval σ && c.eval σ).toNat : Nat) +
        (num σ (as.map Lit.neg) : Int)) : Int) = (c.eval σ).toNat +
          num σ ((a :: as).map Lit.neg) := by
      intro σ
      have hbit : (a.neg.eval σ ^^ c.eval σ).toNat + 2 * (a.neg.eval σ && c.eval σ).toNat =
          (a.neg.eval σ).toNat + (c.eval σ).toNat := by
        cases a.neg.eval σ <;> cases c.eval σ <;> rfl
      rw [map_cons, num]
      omega
    apply triple_bind (mkXor2_spec hneg hc)
    intro l e₁ _ hle hl
    have hnext : requests.Triple e₁ (if as.isEmpty then pure c else mkAnd [a.neg, c] .both)
      fun next e' =>
        next.var < e'.numVars ∧ (as = [] ∨ ∀ σ, Models σ e'.added →
          next.eval σ = (a.neg.eval σ && c.eval σ)) := by
      refine triple_ite (fun h => ?_) fun _ => ?_
      · exact triple_pure fun _ => ⟨hc.trans_le hle.vars, .inl (List.isEmpty_iff.mp h)⟩
      · exact (mkAnd2_spec (hneg.trans_le hle.vars) (hc.trans_le hle.vars)).mono
          fun _ _ _ _ h => ⟨h.1, .inr h.2⟩
    apply triple_bind hnext
    intro next e₂ _ hle₂ hnext
    apply triple_bind (ih hnext.1 ((Owns.grown has hle).grown hle₂))
    intro out e₃ _ hle₃ hout
    have hl := (hl.grown hle₂.toGrown).grown hle₃.toGrown
    refine triple_pure fun _ => ?_
    rcases hnext.2 with rfl | hnext
    · obtain rfl := length_eq_zero_iff.mp hout.length
      exact (word_cons hl word_nil).congr fun σ _ => hadd σ
    · refine (word_cons hl hout).congr fun σ hσ => ?_
      rw [hnext σ (hle₃.models hσ), hadd]

lemma negateBits_spec (ha : Owns e as) :
    requests.Triple e (negateBits as) fun out e' => Word e' as.length out fun σ => -num σ as := by
  apply triple_get_bind
  apply triple_of_ok
  intro hok
  refine (incrementNot_spec hok.trueLit_lt ha).mono fun out e' _ hle hout => hout.modEq fun σ hσ =>
    ?_
  rw [hok.trueLit_eval (hle.models hσ), Bool.toNat_true, Int.modEq_iff_dvd, num_complement]
  exact ⟨-1, by push_cast; ring⟩

lemma num_take_of_lt (σ : SatVar → Bool) {ls : List SatLit} {k : Nat} (h : k ≤ ls.length)
    (hlt : num σ ls < 2 ^ k) : num σ (ls.take k) = num σ ls := by
  have heq := num_take σ h
  have htake := num_lt σ (ls.take k)
  rw [length_take, min_eq_left h] at htake
  rw [← Nat.cast_two, ← Nat.cast_pow, Int.natCast_modEq_iff] at heq
  exact heq.eq_of_lt_of_lt htake hlt

omit [FloatArith R] in
theorem Word.exact {n : Nat} {out : List SatLit} {f : (SatVar → Bool) → Int} {σ : SatVar → Bool}
    (h : Word e n out f)
    (hσ : Models σ e.added) {x : Nat} (hx : x < 2 ^ n) (hf : f σ ≡ x [ZMOD 2 ^ n]) :
    num σ out = x := by
  have hlt := num_lt σ out
  rw [h.length] at hlt
  have heq := (h.value σ hσ).trans hf
  rw [← Nat.cast_two, ← Nat.cast_pow, Int.natCast_modEq_iff] at heq
  exact heq.eq_of_lt_of_lt hlt hx

lemma subtractBits_spec (hlen : as.length = bs.length) (ha : Owns e as) (hb : Owns e bs)
    (hc : c.var < e.numVars) :
    requests.Triple e (subtractBits as bs c) fun r e' => r.1.length = as.length ∧ Owns e' r.1 ∧
      r.2.var < e'.numVars ∧ ∀ σ, Models σ e'.added →
        num σ r.1 + 2 ^ as.length * (r.2.eval σ).toNat = (c.eval σ).toNat + num σ as +
          num σ bs := by
  induction as generalizing e bs c with
  | nil =>
    rw [length_eq_zero_iff.mp hlen.symm]
    exact triple_pure fun _ => ⟨rfl, nofun, hc, fun σ _ => by simp [num]⟩
  | cons s ss ih =>
    obtain ⟨o, os, rfl⟩ := exists_cons_of_length_eq_add_one hlen.symm
    obtain ⟨hs, hss⟩ := forall_mem_cons.mp ha
    obtain ⟨ho, hos⟩ := forall_mem_cons.mp hb
    apply triple_bind (mkFullAdder_spec hs ho hc)
    intro r e₁ _ hle hr
    apply triple_bind (ih (Nat.succ.inj hlen) (.grown hss hle) (.grown hos hle) hr.2.1)
    intro d e₂ _ hle₂ hd
    refine triple_pure fun _ => ⟨congrArg (· + 1) hd.1,
      forall_mem_cons.mpr ⟨hr.1.1.trans_le hle₂.vars, hd.2.1⟩, hd.2.2.1, fun σ hσ => ?_⟩
    dsimp only
    have hrec := hd.2.2.2 σ hσ
    have hsum := adder_sum (s.eval σ) (o.eval σ) (c.eval σ)
    rw [hr.2.eval (hle₂.models hσ)] at hrec
    rw [num, num, num, hr.1.eval (hle₂.models hσ), length_cons, Nat.pow_succ', mul_assoc]
    omega

lemma divideStep_spec {a : SatLit} (hlen : rest.length = bs.length + 1) (ha : a.var < e.numVars)
    (hb : Owns e bs) (hr : Owns e rest) (hlt : ∀ σ, Models σ e.added → num σ rest < 2 ^ bs.length) :
    requests.Triple e (divideStep bs rest a) fun r e' =>
      r.1.var < e'.numVars ∧ r.2.length = bs.length + 1 ∧ Owns e' r.2 ∧ ∀ σ, Models σ e'.added →
        let shifted := (a.eval σ).toNat + 2 * num σ rest
        r.1.eval σ = decide (num σ bs ≤ shifted) ∧
          num σ r.2 = if num σ bs ≤ shifted then shifted - num σ bs else shifted := by
  apply triple_get_bind
  apply triple_of_ok
  intro hok
  have hshift : Owns e (a :: rest.dropLast) :=
    forall_mem_cons.mpr ⟨ha, fun l hl => hr l (dropLast_subset rest hl)⟩
  have hdivisor : Owns e (bs.map Lit.neg ++ [e.trueLit]) := by
    refine forall_mem_append.mpr ⟨fun l hl => ?_, forall_mem_singleton.mpr hok.trueLit_lt⟩
    obtain ⟨x, hx, rfl⟩ := mem_map.mp hl
    exact hb x hx
  have hlenS : (a :: rest.dropLast).length = bs.length + 1 := by simp [hlen]
  apply triple_bind (subtractBits_spec (by simp [hlen]) hshift hdivisor hok.trueLit_lt)
  intro d e₁ _ hle hd
  rw [hlenS] at hd
  apply triple_bind (selectBits_spec (hd.1.trans hlenS.symm) hd.2.2.1 hd.2.1 (hshift.grown hle))
  intro out e₂ _ hle₂ hout
  rw [hd.1] at hout
  refine triple_pure fun _ => ⟨hd.2.2.1.trans_le hle₂.vars, hout.length, hout.vars, fun σ hσ => ?_⟩
  have hσ₁ := hle₂.models hσ
  have hσ₀ := hle.models hσ₁
  have hnum : num σ (a :: rest.dropLast) = (a.eval σ).toNat + 2 * num σ rest := by
    rw [num, dropLast_eq_take, hlen, Nat.add_sub_cancel, num_take_of_lt σ (by omega) (hlt σ hσ₀)]
  have hsub := hd.2.2.2 σ hσ₁
  have hcompl : num σ (bs.map Lit.neg) + num σ bs + 1 = 2 ^ bs.length :=
    Int.ofNat_inj.mp (by push_cast [num_complement]; ring)
  have hrest := hlt σ hσ₀
  have hbit := Bool.toNat_le (a.eval σ)
  have hdiff := num_lt σ d.1
  rw [hnum, num_append, length_map, hok.trueLit_eval hσ₀, pow_succ] at hsub
  rw [hd.1, pow_succ] at hdiff
  simp only [num, hok.trueLit_eval hσ₀, Bool.toNat_true] at hsub
  -- The sum carries out exactly when the divisor fits.
  have hcarry : d.2.eval σ = decide (num σ bs ≤ (a.eval σ).toNat + 2 * num σ rest) := by
    cases hc : d.2.eval σ <;> simp [hc] at hsub ⊢ <;> omega
  refine ⟨hcarry, hout.exact hσ (by rw [pow_succ]; split <;> omega) ?_⟩
  rw [hnum]
  cases hc : d.2.eval σ with
  | true =>
    have hfit := of_decide_eq_true (hcarry.symm.trans hc)
    have hvalue : num σ d.1 = (a.eval σ).toNat + 2 * num σ rest - num σ bs := by
      simp [hc] at hsub
      omega
    rw [if_pos rfl, if_pos hfit, hvalue]
  | false => rw [if_neg Bool.false_ne_true, if_neg (of_decide_eq_false (hcarry.symm.trans hc))]

/-- The total quotient: all ones when the divisor is zero. -/
def quotient (n x d : Nat) : Nat := if d = 0 then 2 ^ n - 1 else x / d

lemma quotient_step (n x d : Nat) {b : Nat} (hb : b < 2) :
    quotient (n + 1) (b + 2 * x) d = (decide (d ≤ b + 2 * (x % d))).toNat + 2 * quotient n x d ∧
      (b + 2 * x) % d = if d ≤ b + 2 * (x % d) then b + 2 * (x % d) - d else b + 2 * (x % d) := by
  unfold quotient
  by_cases hd : d = 0
  · have := Nat.two_pow_pos n
    subst hd
    simp [pow_succ]
    omega
  · have hmod := Nat.mod_lt x (Nat.pos_of_ne_zero hd)
    have hdiv := Nat.div_add_mod x d
    have hunique := fun q r =>
        (Nat.div_mod_unique (a := b + 2 * x) (c := r) (d := q) (Nat.pos_of_ne_zero hd)).mpr
    rw [if_neg hd, if_neg hd]
    split
    next hle =>
      rw [decide_eq_true hle]
      refine hunique _ _ ⟨?_, by omega⟩
      rw [Bool.toNat_true, mul_add, mul_one, mul_left_comm]
      omega
    next hlt =>
      rw [decide_eq_false hlt]
      refine hunique _ _ ⟨?_, by omega⟩
      rw [Bool.toNat_false, zero_add, mul_left_comm]
      omega

/-- What the loop has found for the bits of the dividend that it has read, lowest bit first. -/
structure Divided (e : CnfEncoder R) (bs quot rest done : List SatLit) : Prop where
  quotLength : quot.length = done.length
  restLength : rest.length = bs.length + 1
  quotVars : Owns e quot
  restVars : Owns e rest
  quot : ∀ σ, Models σ e.added → num σ quot = quotient done.length (num σ done) (num σ bs)
  rest : ∀ σ, Models σ e.added → num σ rest = num σ done % num σ bs

omit [FloatArith R] in
lemma Divided.rest_lt {done : List SatLit} (h : Divided e bs quot rest done)
    (hlen : done.length ≤ bs.length)
    {σ : SatVar → Bool} (hσ : Models σ e.added) : num σ rest < 2 ^ bs.length := by
  have hdone := lt_of_lt_of_le (num_lt σ done) (Nat.pow_le_pow_right two_pos hlen)
  rw [h.rest σ hσ]
  exact lt_of_le_of_lt (Nat.mod_le ..) hdone

lemma divideFrom_spec {done : List SatLit} (h : Divided e bs quot rest done)
    (hlen : as.length + done.length ≤ bs.length) (ha : Owns e as) (hb : Owns e bs) :
    requests.Triple e (divideFrom bs as rest quot) fun r e' =>
      Divided e' bs r.1 r.2 (as.reverse ++ done) := by
  induction as generalizing e rest quot done with
  | nil => exact triple_pure fun _ => h
  | cons a as ih =>
    obtain ⟨ha, has⟩ := forall_mem_cons.mp ha
    rw [length_cons] at hlen
    apply triple_bind (divideStep_spec h.restLength ha hb h.restVars fun σ hσ =>
      h.rest_lt (by omega) hσ)
    intro r e₁ _ hle ⟨hq, hlenR, hvars, hr⟩
    rw [reverse_cons, append_assoc, singleton_append]
    refine ih ⟨congrArg (· + 1) h.quotLength, hlenR, forall_mem_cons.mpr ⟨hq, h.quotVars.grown hle⟩,
      hvars,
      fun σ hσ => ?_, fun σ hσ => ?_⟩ (by rw [length_cons]; omega) (.grown has hle) (hb.grown hle)
    · rw [num, num, (hr σ hσ).1, h.quot σ (hle.models hσ), h.rest σ (hle.models hσ), length_cons,
        (quotient_step _ _ _ (Bool.toNat_lt _)).1]
    · rw [num, (hr σ hσ).2, h.rest σ (hle.models hσ), (quotient_step 0 _ _ (Bool.toNat_lt _)).2]

lemma divideBits_spec (hlen : as.length = bs.length) (ha : Owns e as) (hb : Owns e bs) :
    requests.Triple e (divideBits as bs) fun r e' =>
      Word e' as.length r.1 (fun σ => quotient as.length (num σ as) (num σ bs)) ∧
        Word e' as.length r.2 fun σ => num σ as % num σ bs := by
  apply triple_get_bind
  apply triple_of_ok
  intro hok
  have hzero := word_zero hok (as.length + 1)
  have hstart : Divided e bs [] (replicate (as.length + 1) e.falseLit) [] :=
    ⟨rfl, by rw [length_replicate, hlen], nofun, hzero.vars, fun σ _ => by simp [num, quotient],
      fun σ hσ => by rw [num_zeros hok hσ]; simp [num]⟩
  apply triple_bind (divideFrom_spec hstart (by simp [hlen]) (fun l hl => ha l (mem_reverse.mp hl))
    hb)
  intro r e₁ _ hle hr
  rw [reverse_reverse, append_nil] at hr
  refine triple_pure fun _ => ⟨⟨hr.quotLength, hr.quotVars, fun σ hσ => by rw [hr.quot σ hσ]⟩,
    by simp [hr.restLength, hlen], fun l hl => hr.restVars l (mem_of_mem_take hl), fun σ hσ => ?_⟩
  have hrest := hr.rest_lt (hlen ▸ Nat.le_refl _) hσ
  rw [num_take_of_lt σ (by rw [hr.restLength]; omega) (hlen ▸ hrest), hr.rest σ hσ, Int.natCast_mod]

def bits (σ : SatVar → Bool) (n : Nat) (ls : List SatLit) : BitVec n := BitVec.ofNat n (num σ ls)

structure Gives (e : CnfEncoder R) (n : Nat) (out : List SatLit) (f : (SatVar → Bool) → BitVec n) :
    Prop where
  length : out.length = n
  vars : Owns e out
  value : ∀ σ, Models σ e.added → bits σ n out = f σ

variable {n : Nat} {out : List SatLit} {f : (SatVar → Bool) → Int} {σ : SatVar → Bool}

omit [FloatArith R] in
lemma Word.gives (h : Word e n out f) : Gives e n out fun σ => ofInt n (f σ) := by
  refine ⟨h.length, h.vars, fun σ hσ => ?_⟩
  rw [bits, ← ofInt_natCast]
  apply eq_of_toNat_eq
  rw [toNat_ofInt, toNat_ofInt, Nat.cast_pow, Nat.cast_two]
  exact congrArg Int.toNat (h.value σ hσ)

omit [FloatArith R] in
lemma Gives.congr {f g : (SatVar → Bool) → BitVec n} (h : Gives e n out f)
    (hf : ∀ σ, Models σ e.added → f σ = g σ) : Gives e n out g :=
  ⟨h.length, h.vars, fun σ hσ => (h.value σ hσ).trans (hf σ hσ)⟩

lemma toNat_bits (σ : SatVar → Bool) {ls : List SatLit} (h : ls.length = n) :
    (bits σ n ls).toNat = num σ ls := by
  rw [bits, toNat_ofNat, Nat.mod_eq_of_lt (h ▸ num_lt σ ls)]

lemma msb_bits (σ : SatVar → Bool) {s : SatLit} (hn : as.length = n) (h : as.getLast? = some s) :
    (bits σ n as).msb = s.eval σ := by
  obtain ⟨init, rfl⟩ := getLast?_eq_some_iff.mp h
  have hlt := num_lt σ init
  subst hn
  rw [BitVec.msb_eq_decide, toNat_bits σ rfl, num_append]
  cases hs : s.eval σ <;> simp [num, hs, hlt]

lemma divideBits_gives (hA : as.length = n) (hB : bs.length = n) (ha : Owns e as) (hb : Owns e bs) :
    requests.Triple e (divideBits as bs) fun r e' =>
      Gives e' n r.1 (fun σ => (bits σ n as).smtUDiv (bits σ n bs)) ∧
        Gives e' n r.2 fun σ => bits σ n as % bits σ n bs := by
  subst hA
  refine (divideBits_spec hB.symm ha hb).mono fun r e' _ _ ⟨hq, hr⟩ =>
    ⟨hq.gives.congr fun σ _ => ?_, hr.gives.congr fun σ _ => ?_⟩
  · have hlt := lt_of_le_of_lt (Nat.div_le_self (num σ as) (num σ bs)) (num_lt σ as)
    have hzero : bits σ as.length bs = 0#(as.length) ↔ num σ bs = 0 := by
      rw [← BitVec.toNat_inj, toNat_bits σ hB, toNat_ofNat, Nat.zero_mod]
    rw [ofInt_natCast, BitVec.smtUDiv_eq, quotient]
    apply eq_of_toNat_eq
    by_cases hd : num σ bs = 0
    · rw [if_pos hd, if_pos (hzero.mpr hd)]
      simp
    · rw [if_neg hd, if_neg (mt hzero.mp hd), toNat_ofNat, BitVec.toNat_udiv, toNat_bits σ rfl,
        toNat_bits σ hB, Nat.mod_eq_of_lt hlt]
  · have hlt := lt_of_le_of_lt (Nat.mod_le (num σ as) (num σ bs)) (num_lt σ as)
    rw [← Int.natCast_mod, ofInt_natCast]
    apply eq_of_toNat_eq
    rw [BitVec.toNat_umod, toNat_bits σ rfl, toNat_bits σ hB, toNat_ofNat, Nat.mod_eq_of_lt hlt]

lemma negateIf_gives {cond : Encode R SatLit} {b : (SatVar → Bool) → Bool} (hn : as.length = n)
    (ha : Owns e as)
    (hcond : ∀ e₁, Conserves e e₁ → requests.Triple e₁ cond fun l e' => e'.Computes l b) :
    requests.Triple e (negateIf as cond) fun out e' =>
      Gives e' n out fun σ => if b σ then -bits σ n as else bits σ n as := by
  subst hn
  apply triple_bind (negateBits_spec ha)
  intro negated e₁ _ hle hneg
  apply triple_bind (hcond e₁ hle)
  intro c e₂ _ hle₂ hc
  have ha := (ha.grown hle).grown hle₂
  refine (selectBits_spec hneg.length hc.1 (hneg.vars.grown hle₂) ha).mono fun out e₃ _ hle₃ hout =>
    ?_
  rw [hneg.length] at hout
  refine hout.gives.congr fun σ hσ => ?_
  have hσ₂ := hle₃.models hσ
  have hbits := hneg.gives.value σ (hle₂.models hσ₂)
  rw [BitVec.ofInt_neg, ofInt_natCast] at hbits
  rw [hc.eval hσ₂]
  split
  · exact hbits
  · rfl

lemma whenAsked_spec {α : Type} {asked : Bool} {m : Encode R α} {Q : α → CnfEncoder R → Prop}
    (h : requests.Triple e m Q) :
    requests.Triple e (whenAsked asked m) fun o e' => o.isSome = asked ∧ ∀ a ∈ o, Q a e' := by
  cases asked with
  | true =>
    refine triple_bind h fun a e₁ _ _ ha => triple_pure fun _ => ⟨rfl, fun b hb => ?_⟩
    exact Option.some.inj hb ▸ ha
  | false => exact triple_pure fun _ => ⟨rfl, nofun⟩

lemma divideSignedBits_gives (hA : as.length = n) (hB : bs.length = n) (ha : Owns e as)
    (hb : Owns e bs)
    (quotient remainder : Bool) :
    requests.Triple e (divideSignedBits as bs quotient remainder) fun r e' =>
      r.1.isSome = quotient ∧ r.2.isSome = remainder ∧
      (∀ q ∈ r.1, Gives e' n q fun σ => (bits σ n as).smtSDiv (bits σ n bs)) ∧
        ∀ q ∈ r.2, Gives e' n q fun σ => (bits σ n as).srem (bits σ n bs) := by
  unfold divideSignedBits
  split
  next signA signB hsA hsB =>
    have hvA : signA.var < e.numVars := ha signA (mem_of_getLast? hsA)
    have hvB : signB.var < e.numVars := hb signB (mem_of_getLast? hsB)
    have hsign : ∀ {l : SatLit} {e₁ : CnfEncoder R}, l.var < e₁.numVars → ∀ e₂, Conserves e₁ e₂ →
        requests.Triple e₂ (pure l) fun l' e' => e'.Computes l' fun σ => l.eval σ :=
      fun hl _ hle => computes_pure (hl.trans_le hle.vars) fun _ _ => rfl
    apply triple_bind (negateIf_gives hA ha (hsign hvA))
    intro magnitudeA e₁ _ hle₁ hmagA
    have hvB := hvB.trans_le hle₁.vars
    apply triple_bind (negateIf_gives hB (hb.grown hle₁) (hsign hvB))
    intro magnitudeB e₂ _ hle₂ hmagB
    apply triple_bind (divideBits_gives hmagA.length hmagB.length (hmagA.vars.grown hle₂)
      hmagB.vars)
    intro r e₃ _ hle₃ ⟨hq, hr⟩
    have hvA := ((hvA.trans_le hle₁.vars).trans_le hle₂.vars).trans_le hle₃.vars
    have hvB := (hvB.trans_le hle₂.vars).trans_le hle₃.vars
    apply triple_bind (whenAsked_spec (negateIf_gives hq.length hq.vars fun e₄ hle =>
      mkXor2_spec (hvA.trans_le hle.vars) (hvB.trans_le hle.vars)))
    intro quot e₄ _ hle₄ ⟨hasked, hquot⟩
    apply triple_bind (whenAsked_spec (negateIf_gives hr.length (hr.vars.grown hle₄)
      (hsign (hvA.trans_le hle₄.vars))))
    intro rest e₅ _ hle₅ ⟨hasked', hrest⟩
    have hmag : ∀ σ, Models σ e₃.added →
        bits σ n magnitudeA = (if signA.eval σ then -bits σ n as else bits σ n as) ∧
          bits σ n magnitudeB = if signB.eval σ then -bits σ n bs else bits σ n bs := fun σ hσ =>
      ⟨hmagA.value σ (hle₂.models (hle₃.models hσ)), hmagB.value σ (hle₃.models hσ)⟩
    refine triple_pure fun _ =>
      ⟨hasked, hasked', fun q h => ⟨(hquot q h).length, (hquot q h).vars.grown hle₅,
      fun σ hσ => ?_⟩, fun q h => (hrest q h).congr fun σ hσ => ?_⟩
    · have hσ₃ := hle₄.models (hle₅.models hσ)
      rw [(hquot q h).value σ (hle₅.models hσ), hq.value σ hσ₃, (hmag σ hσ₃).1, (hmag σ hσ₃).2,
        BitVec.smtSDiv_eq, msb_bits σ hA hsA, msb_bits σ hB hsB]
      cases signA.eval σ <;> cases signB.eval σ <;> rfl
    · have hσ₃ := hle₄.models (hle₅.models hσ)
      rw [hr.value σ hσ₃, (hmag σ hσ₃).1, (hmag σ hσ₃).2, BitVec.srem_eq, msb_bits σ hA hsA,
        msb_bits σ hB hsB]
      cases signA.eval σ <;> cases signB.eval σ <;> rfl
  · exact fun _ _ _ h => nomatch h

/-- In every model of the clauses, the literals of a division are the bits of the total quotient and
remainder. -/
theorem divide_exact {h : List (Request × List SatLit)} (hs : Session e h) (hA : as.length = n)
    (hB : bs.length = n) (ha : Owns e as) (hb : Owns e bs) :
    (∀ r e', (divideBits as bs).run e = some (r, e') →
      Gives e' n r.1 (fun σ => (bits σ n as).smtUDiv (bits σ n bs)) ∧
        Gives e' n r.2 fun σ => bits σ n as % bits σ n bs) ∧
      ∀ quotient remainder r e', (divideSignedBits as bs quotient remainder).run e = some (r, e') →
        r.1.isSome = quotient ∧ r.2.isSome = remainder ∧
        (∀ q ∈ r.1, Gives e' n q fun σ => (bits σ n as).smtSDiv (bits σ n bs)) ∧
          ∀ q ∈ r.2, Gives e' n q fun σ => (bits σ n as).srem (bits σ n bs) := by
  refine ⟨fun r e' he => (divideBits_gives hA hB ha hb hs.ok.1 r e' he).2.2,
    fun quotient remainder r e' he => ?_⟩
  exact (divideSignedBits_gives hA hB ha hb quotient remainder hs.ok.1 r e' he).2.2

/-- A division of inputs, and a signed one by minus three. -/
theorem divide_exact_inputs :
      (∃ r e', (divideBits (wordOf [1, 2, 3]) (wordOf [4, 5, 6])).run (inputs 6) = some (r, e') ∧
      Gives e' 3 r.1 (fun σ => (bits σ 3 (wordOf [1, 2, 3])).smtUDiv
      (bits σ 3 (wordOf [4, 5, 6]))) ∧
      Gives e' 3 r.2 fun σ => bits σ 3 (wordOf [1, 2, 3]) % bits σ 3 (wordOf [4, 5, 6])) ∧
    ∃ r e', (divideSignedBits (wordOf [1, 2, 3]) five true true).run (inputs 6) = some (r, e') ∧
      (∀ q ∈ r.1, Gives e' 3 q fun σ => (bits σ 3 (wordOf [1, 2, 3])).smtSDiv (bits σ 3 five)) ∧
      ∀ q ∈ r.2, Gives e' 3 q fun σ => (bits σ 3 (wordOf [1, 2, 3])).srem (bits σ 3 five) := by
  have hsome : ((divideBits (wordOf [1, 2, 3]) (wordOf [4, 5, 6])).run (inputs 6)).isSome ∧
      ((divideSignedBits (wordOf [1, 2, 3]) five true true).run (inputs 6)).isSome := by
    decide +kernel
  have howns : Owns (inputs 6) (wordOf [1, 2, 3]) ∧ Owns (inputs 6) (wordOf [4, 5, 6]) ∧
      Owns (inputs 6) five := by
    unfold Owns
    decide +kernel
  obtain ⟨⟨r, e⟩, he⟩ := Option.isSome_iff_exists.mp hsome.1
  obtain ⟨⟨s, e₁⟩, he₁⟩ := Option.isSome_iff_exists.mp hsome.2
  have hunsigned := (divide_exact (n := 3) (inputs_session 6) rfl rfl howns.1 howns.2.1).1 r e he
  have hsigned :=
    (divide_exact (n := 3) (inputs_session 6) rfl rfl howns.1 howns.2.2).2 true true s e₁ he₁
  exact ⟨⟨r, e, he, hunsigned⟩, s, e₁, he₁, hsigned.2.2⟩

end NeverD.Bv
