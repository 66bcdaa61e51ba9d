import NeverD.Bv.Literals
import Mathlib.Data.List.TakeWhile

namespace NeverD.Bv
open Lib NeverD.Sat Cnf List Growth CnfEncoder

variable {R : Type} [FloatArith R]

/-- The bits from one position on. -/
def addFrom (wantCarry : Bool) : Option (SatLit × SatLit) → List SatLit → List SatLit → SatLit →
    Encode R (List SatLit × Option SatLit)
  | prev, a :: as, b :: bs, carry => do
    if prev = some (a, b) ∨ prev = some (b, a) then
      let sum ← mkXor [a, b, carry]
      let (out, carryOut) ← addFrom wantCarry (some (a, b)) as bs carry
      return (sum :: out, carryOut)
    else if as.isEmpty && !wantCarry then return ([← mkXor [a, b, carry]], none)
    else
      let (sum, next) ← mkFullAdder a b carry
      let (out, carryOut) ← addFrom wantCarry (some (a, b)) as bs next
      return (sum :: out, carryOut)
  | _, _, _, carry => return ([], if wantCarry then some carry else none)

def addBits (as bs : List SatLit) (carryIn : SatLit) (wantCarry : Bool) :
    Encode R (List SatLit × Option SatLit) :=
  addFrom wantCarry none as bs carryIn

/-- Every bit, when all of them are decided. -/
def constantPattern (e : CnfEncoder R) (bits : List SatLit) : Option (List Bool) :=
  if bits.all e.isConstant then some (bits.map e.isTrueLit) else none

structure ProductTerm where
  shift : Nat
  subtract : Bool
deriving DecidableEq, Repr

/-- The copies for a run of `len` set bits. -/
def runTerms (first len : Nat) (top : Bool) : List ProductTerm :=
  if 3 ≤ len then (if top then [] else [⟨first + len, false⟩]) ++ [⟨first, true⟩]
  else (range len).map fun i => ⟨first + i, false⟩

/-- The bits after a run of `len` set bits that began at `first`. -/
def recodeFrom : (first len : Nat) → List Bool → List ProductTerm
  | first, len, [] => runTerms first len true
  | first, len, true :: bits => recodeFrom first (len + 1) bits
  | first, len, false :: bits => runTerms first len false ++ recodeFrom (first + len + 1) 0 bits

def recodeMultiplier (multiplier : List Bool) : List ProductTerm := recodeFrom 0 0 multiplier

/-- Add one shifted copy; one that is subtracted is complemented and comes with a carry. -/
def addTerm (as out : List SatLit) (term : ProductTerm) : Encode R (List SatLit) := do
  let e ← get
  let fill := if term.subtract then e.trueLit else e.falseLit
  let addend := (replicate term.shift fill ++ as.map fun l => if term.subtract then l.neg
    else l).take as.length
  return (← addBits out addend fill false).1

def multiplyByPattern (as : List SatLit) (multiplier : List Bool) : Encode R (List SatLit) := do
  let e ← get
  (recodeMultiplier multiplier).foldlM (addTerm as) (replicate as.length e.falseLit)

def addRow (multiplier : SatLit) : List SatLit → List SatLit → SatLit → Encode R (List SatLit)
  | o :: os, a :: as, carry => do
    let cell ← mkAnd [a, multiplier] .both
    if os.isEmpty then return [← mkXor [o, cell, carry]]
    else
      let (sum, next) ← mkFullAdder o cell carry
      return sum :: (← addRow multiplier os as next)
  | _, _, _ => pure []

/-- The rows from `row` on; a row whose bit is known false adds nothing. -/
def addRows (as : List SatLit) : (row : Nat) → List SatLit → List SatLit → Encode R (List SatLit)
  | _, [], out => pure out
  | row, b :: bs, out => do
    let e ← get
    if e.isFalseLit b then addRows as (row + 1) bs out
    else
      let window ← addRow b (out.drop row) as e.falseLit
      addRows as (row + 1) bs (out.take row ++ window)

/-- Known low zeros shift the result; what is above them is multiplied by a constant or row by
row. -/
def multiplyBits (as bs : List SatLit) : Encode R (List SatLit) := do
  let e ← get
  let aZero := (as.takeWhile e.isFalseLit).length
  let bZero := (bs.takeWhile e.isFalseLit).length
  if _hz : aZero ≠ 0 ∨ bZero ≠ 0 then
    if _hn : as.length - bZero ≤ aZero then return replicate as.length e.falseLit
    else
      let shift := aZero + bZero
      let observed := as.length - shift
      let product ← multiplyBits ((as.drop aZero).take observed) ((bs.drop bZero).take observed)
      return replicate shift e.falseLit ++ product
  else
    match constantPattern e bs, constantPattern e as with
    | some pattern, _ => multiplyByPattern as pattern
    | none, some pattern => multiplyByPattern bs pattern
    | none, none => addRows as 0 bs (replicate as.length e.falseLit)
termination_by as.length
decreasing_by
  simp only [length_take, length_drop]
  omega

variable {e : CnfEncoder R} {as bs out : List SatLit} {f : (SatVar → Bool) → Int} {n : Nat}

omit [FloatArith R] in
lemma word_append {lo hi : List SatLit} (hlo : Owns e lo) (h : Word e n hi f) :
    Word e (lo.length + n) (lo ++ hi) fun σ => num σ lo + 2 ^ lo.length * f σ := by
  refine ⟨by rw [length_append, h.length], forall_mem_append.mpr ⟨hlo, h.vars⟩, fun σ hσ => ?_⟩
  rw [num_append, pow_add, Nat.cast_add, Nat.cast_mul, Nat.cast_pow]
  exact (h.value σ hσ).mul_left'.add_left _

lemma carry_step {s c t : Nat} (h : s + 2 * c = t) (x y : Nat) :
    (s + 2 * (c + x + y) : Int) = t + 2 * x + 2 * y := by
  omega

lemma majority_comm (a b c : Bool) : majority a b c = majority b a c := by
  cases a <;> cases b <;> cases c <;> rfl

lemma majority_majority (a b c : Bool) : majority a b (majority a b c) = majority a b c := by
  cases a <;> cases b <;> cases c <;> rfl

lemma falseLit_lt (hok : e.Ok) : e.falseLit.var < e.numVars := hok.trueLit_lt

lemma mkXor3_spec {a b c : SatLit} (ha : a.var < e.numVars) (hb : b.var < e.numVars)
    (hc : c.var < e.numVars) :
    requests.Triple e (mkXor [a, b, c]) fun l e' => e'.Computes l fun σ =>
      a.eval σ ^^ b.eval σ ^^ c.eval σ :=
  computes_mono (mkXor_spec (by simp [ha, hb, hc])) fun σ _ => by simp [xorBits]

lemma addFrom_spec {wantCarry : Bool} {prev : Option (SatLit × SatLit)} {c : SatLit}
    (hlen : as.length = bs.length) (hc : c.var < e.numVars) (ha : Owns e as)
    (hb : Owns e bs)
    (hp : ∀ a b, prev = some (a, b) → ∀ σ, Models σ e.added → majority (a.eval σ) (b.eval σ)
    (c.eval σ) = c.eval σ) :
    requests.Triple e (addFrom wantCarry prev as bs c) fun r e' => Word e' as.length r.1 fun σ =>
      (c.eval σ).toNat + num σ as + num σ bs := by
  induction as generalizing e bs prev c with
  | nil =>
    rw [length_eq_zero_iff.mp hlen.symm]
    exact triple_pure fun _ => word_nil
  | cons a as ih =>
    obtain ⟨b, bs, rfl⟩ := exists_cons_of_length_eq_add_one hlen.symm
    obtain ⟨ha, has⟩ := forall_mem_cons.mp ha
    obtain ⟨hb, hbs⟩ := forall_mem_cons.mp hb
    have hxor := mkXor3_spec ha hb hc
    have hadd : ∀ σ, (((a.eval σ ^^ b.eval σ ^^ c.eval σ).toNat : Nat) + 2 *
        (((majority (a.eval σ) (b.eval σ)
        (c.eval σ)).toNat : Nat) + (num σ as : Int) + num σ bs) : Int) =
          (c.eval σ).toNat + num σ (a :: as) + num σ (b :: bs) := by
      intro σ
      rw [carry_step (adder_sum ..), num, num]
      omega
    -- The bits above, with a carry that is the majority of this pair.
    have hrest : ∀ {e₁ : CnfEncoder R} {sum next : SatLit}, Conserves e e₁ →
        e₁.Computes sum (fun σ => a.eval σ ^^ b.eval σ ^^ c.eval σ) →
        e₁.Computes next (fun σ => majority (a.eval σ) (b.eval σ) (c.eval σ)) →
        requests.Triple e₁ (do
          let (out, carryOut) ← addFrom wantCarry (some (a, b)) as bs next
          return (sum :: out, carryOut)) fun r e' => Word e' (as.length + 1) r.1 fun σ =>
            (c.eval σ).toNat + num σ (a :: as) + num σ (b :: bs) := by
      intro e₁ sum next hle hsum hnext
      apply triple_bind (ih (Nat.succ.inj hlen) hnext.1 (.grown has hle) (.grown hbs hle)
        fun a' b' hab σ hσ => by
          cases hab
          rw [hnext.eval hσ, majority_majority])
      intro r e₂ _ hle₂ hr
      refine triple_pure fun _ => (word_cons (hsum.grown hle₂.toGrown) hr).congr fun σ hσ => ?_
      rw [hnext.eval (hle₂.models hσ), hadd]
    refine triple_ite (fun hprev => ?_) fun _ => ?_
    · -- The carry already is the majority of the repeated pair.
      apply triple_bind hxor
      intro sum e₁ _ hle hsum
      refine hrest hle hsum ⟨hc.trans_le hle.vars, fun σ hσ => ?_⟩
      rcases hprev with hprev | hprev
      · exact (hp a b hprev σ (hle.models hσ)).symm
      · exact ((majority_comm ..).trans (hp b a hprev σ (hle.models hσ))).symm
    refine triple_ite (fun hlast => ?_) fun _ => ?_
    · rw [Bool.and_eq_true, List.isEmpty_iff] at hlast
      obtain ⟨rfl, -⟩ := hlast
      obtain rfl := length_eq_zero_iff.mp (Nat.succ.inj hlen).symm
      apply triple_bind hxor
      intro sum e₁ _ hle hsum
      exact triple_pure fun _ => (word_cons hsum word_nil).congr fun σ _ => hadd σ
    · apply triple_bind (mkFullAdder_spec ha hb hc)
      exact fun r e₁ _ hle hr => hrest hle hr.1 hr.2

lemma addBits_spec {c : SatLit} (hlen : as.length = bs.length) (hc : c.var < e.numVars)
    (ha : Owns e as) (hb : Owns e bs) (wantCarry : Bool) :
    requests.Triple e (addBits as bs c wantCarry) fun r e' => Word e' as.length r.1 fun σ =>
      (c.eval σ).toNat + num σ as + num σ bs :=
  addFrom_spec hlen hc ha hb nofun

def ProductTerm.value (t : ProductTerm) : Int := if t.subtract then -2 ^ t.shift else 2 ^ t.shift

def digits (ts : List ProductTerm) : Int := (ts.map ProductTerm.value).sum

lemma digits_append (ts us : List ProductTerm) : digits (ts ++ us) = digits ts + digits us := by
  rw [digits, map_append, sum_append]
  rfl

lemma runTerms_value (first len : Nat) (top : Bool) :
    digits (runTerms first len top) ≡ 2 ^ first * (2 ^ len - 1) [ZMOD 2 ^ (first + len)] ∧
      (top = false → digits (runTerms first len top) = 2 ^ first * (2 ^ len - 1)) := by
  unfold runTerms
  split
  · cases top with
    | false =>
      have : digits ([⟨first + len, false⟩] ++ [⟨first, true⟩]) = 2 ^ first * (2 ^ len - 1) := by
        simp [digits, ProductTerm.value]
        ring
      exact ⟨this ▸ Int.ModEq.refl _, fun _ => this⟩
    | true =>
      refine ⟨Int.modEq_iff_dvd.mpr ⟨1, ?_⟩, nofun⟩
      simp [digits, ProductTerm.value]
      ring
  · have : digits ((range len).map fun i => ⟨first + i, false⟩) = 2 ^ first * (2 ^ len - 1) := by
      rcases (by omega : len = 0 ∨ len = 1 ∨ len = 2) with rfl | rfl | rfl <;>
        (simp [digits, ProductTerm.value, range_succ]; try ring)
    exact ⟨this ▸ Int.ModEq.refl _, fun _ => this⟩

/-- The digits carry out of the top only multiples of the width. -/
lemma recodeFrom_value (σ : SatVar → Bool) (bs : List SatLit) (first len : Nat) :
    digits (recodeFrom first len (bs.map (Lit.eval σ))) ≡
      2 ^ first * (2 ^ len - 1) + 2 ^ (first + len) *
        num σ bs [ZMOD 2 ^ (first + len + bs.length)] := by
  induction bs generalizing first len with
  | nil => simpa [num, recodeFrom] using (runTerms_value first len true).1
  | cons b bs ih =>
    rw [map_cons, num, length_cons]
    cases b.eval σ with
    | true =>
      have := ih first (len + 1)
      rw [show first + (len + 1) + bs.length = first + len + (bs.length + 1) by omega] at this
      refine this.trans (congrArg (· % _) ?_)
      rw [Bool.toNat_true]
      push_cast
      ring
    | false =>
      have := (ih (first + len + 1) 0).add_left (2 ^ first * (2 ^ len - 1))
      rw [← (runTerms_value first len false).2 rfl, ← digits_append,
        show first + len + 1 + 0 + bs.length = first + len + (bs.length + 1) by omega] at this
      refine this.trans (congrArg (· % _) ?_)
      rw [(runTerms_value first len false).2 rfl, Bool.toNat_false]
      push_cast
      ring

lemma recodeMultiplier_value (σ : SatVar → Bool) (bs : List SatLit) :
    digits (recodeMultiplier (bs.map (Lit.eval σ))) ≡ num σ bs [ZMOD 2 ^ bs.length] := by
  simpa [recodeMultiplier] using recodeFrom_value σ bs 0 0

lemma addTerm_spec (ha : Owns e as) (hout : Word e as.length out f) (t : ProductTerm) :
    requests.Triple e (addTerm as out t) fun out' e' =>
      Word e' as.length out' fun σ => f σ + t.value * num σ as := by
  apply triple_get_bind
  apply triple_of_ok
  intro hok
  dsimp only
  generalize hfill : (if t.subtract then e.trueLit else e.falseLit) = fill
  have hvar : fill.var < e.numVars := by
    rw [← hfill]
    split <;> exact hok.trueLit_lt
  generalize hall : replicate t.shift fill ++ as.map (fun l => if t.subtract then l.neg else l) =
    all
  have hlen : as.length ≤ all.length := by simp [← hall]
  -- The copy and the carry that comes with it.
  have hvalue : ∀ σ, Models σ e.added →
      (fill.eval σ).toNat + num σ all ≡ t.value * num σ as [ZMOD 2 ^ as.length] := by
    intro σ hσ
    have hones := num_complement σ (replicate t.shift e.falseLit)
    rw [num_zeros hok hσ, map_replicate, length_replicate, falseLit, Lit.neg_neg] at hones
    rw [← hall, ← hfill, num_append, length_replicate, ProductTerm.value]
    cases t.subtract with
    | false => simp [num_zeros hok hσ, falseLit_eval hok hσ]
    | true =>
      have := num_complement σ as
      simp [hok.trueLit_eval hσ, hones, this]
      exact Int.modEq_iff_dvd.mpr ⟨-2 ^ t.shift, by ring⟩
  apply triple_bind (addBits_spec (hout.length.trans (by simp [hlen])) hvar hout.vars ?_ false)
  · intro r e' _ hle hr
    rw [hout.length] at hr
    refine triple_pure fun _ => hr.modEq fun σ hσ => ?_
    have hσ := hle.models hσ
    calc ((fill.eval σ).toNat + num σ out + num σ (all.take as.length) : Int)
        = num σ out + ((fill.eval σ).toNat + num σ (all.take as.length)) := by ring
      _ ≡ f σ + t.value * num σ as [ZMOD 2 ^ as.length] :=
        (hout.value σ hσ).add (((num_take σ hlen).add_left _).trans (hvalue σ hσ))
  · intro l hl
    rw [← hall] at hl
    rcases mem_append.mp (mem_of_mem_take hl) with hl | hl
    · rwa [eq_of_mem_replicate hl]
    · obtain ⟨x, hx, rfl⟩ := mem_map.mp hl
      split <;> exact ha x hx

lemma addTerms_spec (ts : List ProductTerm) (ha : Owns e as) (hout : Word e as.length out f) :
    requests.Triple e (ts.foldlM (addTerm as) out) fun out' e' =>
      Word e' as.length out' fun σ => f σ + digits ts * num σ as := by
  induction ts generalizing e out f with
  | nil => exact triple_pure fun _ => hout.congr fun σ _ => by simp [digits]
  | cons t ts ih =>
    rw [foldlM_cons]
    apply triple_bind (addTerm_spec ha hout t)
    intro out₁ e₁ _ hle hout₁
    refine (ih (.grown ha hle) hout₁).mono fun out' e' _ _ h => h.congr fun σ _ => ?_
    simp only [digits, map_cons, sum_cons]
    ring

lemma multiplyByPattern_spec {pattern : List Bool} (hlen : as.length = bs.length)
    (ha : Owns e as) (hp : ∀ σ, Models σ e.added → pattern = bs.map (Lit.eval σ)) :
    requests.Triple e (multiplyByPattern as pattern) fun out e' =>
      Word e' as.length out fun σ => num σ as * num σ bs := by
  apply triple_get_bind
  apply triple_of_ok
  intro hok
  refine (addTerms_spec _ ha (word_zero hok _)).mono fun out e' _ hle hout => hout.modEq fun σ hσ =>
    ?_
  rw [hp σ (hle.models hσ), zero_add, mul_comm, hlen]
  exact (recodeMultiplier_value σ bs).mul_left _

lemma constantPattern_spec {pattern : List Bool} (hok : e.Ok)
    (h : constantPattern e bs = some pattern) : ∀ σ, Models σ e.added →
    pattern = bs.map (Lit.eval σ) := by
  intro σ hσ
  unfold constantPattern at h
  split at h
  next hall =>
    rw [← Option.some.inj h]
    exact map_congr_left fun l hl => (hok.isConstant hσ (all_eq_true.mp hall l hl)).symm
  · cases h

lemma addRow_spec {m c : SatLit} (hlen : out.length ≤ as.length) (hm : m.var < e.numVars)
    (hc : c.var < e.numVars) (ho : Owns e out) (ha : Owns e as) :
    requests.Triple e (addRow m out as c) fun out' e' => Word e' out.length out' fun σ =>
      (c.eval σ).toNat + num σ out + (m.eval σ).toNat * num σ as := by
  induction out generalizing e as c with
  | nil => exact triple_pure fun _ => word_nil
  | cons o os ih =>
    obtain ⟨a, as, rfl⟩ := exists_cons_of_ne_nil (length_pos_iff.mp (Nat.zero_lt_of_lt hlen))
    obtain ⟨ho, hos⟩ := forall_mem_cons.mp ho
    obtain ⟨ha, has⟩ := forall_mem_cons.mp ha
    apply triple_bind (mkAnd2_spec ha hm)
    intro cell e₁ _ hle hcell
    have hadd : ∀ σ, Models σ e₁.added → (((o.eval σ ^^ cell.eval σ ^^ c.eval σ).toNat : Nat) + 2 *
        (((majority (o.eval σ) (cell.eval σ) (c.eval σ)).toNat : Nat) + (num σ os : Int) +
          (m.eval σ).toNat * num σ as) : Int) =
            (c.eval σ).toNat + num σ (o :: os) + (m.eval σ).toNat * num σ (a :: as) := by
      intro σ hσ
      have hcarry := carry_step (adder_sum (o.eval σ) (cell.eval σ) (c.eval σ)) (num σ os)
        ((m.eval σ).toNat * num σ as)
      rw [Nat.cast_mul] at hcarry
      rw [hcarry, num, num, hcell.eval hσ]
      cases a.eval σ <;> cases m.eval σ <;> simp <;> ring
    have hov := ho.trans_le hle.vars
    have hcv := hc.trans_le hle.vars
    refine triple_ite (fun hlast => ?_) fun _ => ?_
    · rw [List.isEmpty_iff] at hlast
      subst hlast
      apply triple_bind (mkXor3_spec hov hcell.1 hcv)
      intro sum e₂ _ hle₂ hsum
      exact triple_pure fun _ => (word_cons hsum word_nil).congr fun σ hσ => hadd σ (hle₂.models hσ)
    · apply triple_bind (mkFullAdder_spec hov hcell.1 hcv)
      intro r e₂ _ hle₂ hr
      apply triple_bind (ih (Nat.le_of_succ_le_succ hlen)
        ((hm.trans_le hle.vars).trans_le hle₂.vars) hr.2.1
        ((Owns.grown hos hle).grown hle₂) ((Owns.grown has hle).grown hle₂))
      intro out e₃ _ hle₃ hout
      refine triple_pure fun _ => (word_cons (hr.1.grown hle₃.toGrown) hout).congr fun σ hσ => ?_
      rw [hr.2.eval (hle₃.models hσ), hadd σ (hle₂.models (hle₃.models hσ))]

lemma addRows_spec {row : Nat} (hlen : row + bs.length = as.length) (ha : Owns e as)
    (hb : Owns e bs) (hout : Word e as.length out f) :
    requests.Triple e (addRows as row bs out) fun out' e' =>
      Word e' as.length out' fun σ => f σ + 2 ^ row * (num σ as * num σ bs) := by
  induction bs generalizing e row out f with
  | nil => exact triple_pure fun _ => hout.congr fun σ _ => by simp [num]
  | cons b bs ih =>
    obtain ⟨hbv, hbs⟩ := forall_mem_cons.mp hb
    rw [length_cons] at hlen
    apply triple_get_bind
    apply triple_of_ok
    intro hok
    refine triple_ite (fun hf => ?_) fun _ => ?_
    · refine (ih (by omega) ha hbs hout).mono fun out' e' _ hle h => h.congr fun σ hσ => ?_
      rw [num, hok.isFalseLit (hle.models hσ) hf, Bool.toNat_false]
      push_cast
      ring
    · have hdrop : (out.drop row).length = as.length - row := by rw [length_drop, hout.length]
      apply triple_bind (addRow_spec (hdrop ▸ Nat.sub_le ..) hbv (falseLit_lt hok)
        (fun l hl => hout.vars l (mem_of_mem_drop hl)) ha)
      intro window e₁ _ hle hwindow
      have htake : (out.take row).length = row := by rw [length_take, hout.length]; omega
      have hword :=
        word_append (.grown (fun l hl => hout.vars l (mem_of_mem_take hl) : Owns e (out.take row))
        hle) hwindow
      rw [htake, hdrop, Nat.add_sub_of_le (by omega)] at hword
      have hrow : Word e₁ as.length (out.take row ++ window) fun σ =>
          f σ + 2 ^ row * ((b.eval σ).toNat * num σ as) := by
        refine hword.modEq fun σ hσ => ?_
        have hsplit := num_append σ (out.take row) (out.drop row)
        rw [take_append_drop, htake] at hsplit
        have hf :=
          (hout.value σ (hle.models hσ)).add_right (2 ^ row * ((b.eval σ).toNat * num σ as))
        refine .trans (congrArg (· % _) ?_) hf
        rw [falseLit_eval hok (hle.models hσ), hsplit, Bool.toNat_false]
        push_cast
        ring
      refine (ih (by omega) (.grown ha hle) (.grown hbs hle)
        hrow).mono fun out' e' _ _ h => h.congr fun σ _ => ?_
      rw [num]
      push_cast
      ring

lemma productRows_spec (hok : e.Ok) (hlen : as.length = bs.length) (ha : Owns e as)
    (hb : Owns e bs) :
    requests.Triple e (addRows as 0 bs (replicate as.length e.falseLit)) fun out e' =>
      Word e' as.length out fun σ => num σ as * num σ bs := by
  refine (addRows_spec (by simp [hlen]) ha hb (word_zero hok _)).mono fun out e' _ _ h =>
    h.congr fun σ _ => ?_
  rw [pow_zero, one_mul, zero_add]

lemma num_drop_zeros (hok : e.Ok) {σ : SatVar → Bool} (hσ : Models σ e.added) (ls : List SatLit) :
    num σ ls = 2 ^ (ls.takeWhile e.isFalseLit).length *
      num σ (ls.drop (ls.takeWhile e.isFalseLit).length) := by
  have hsplit :=
    num_append σ (ls.takeWhile e.isFalseLit) (ls.drop (ls.takeWhile e.isFalseLit).length)
  rw [prefix_iff_eq_append.mp ( takeWhile_prefix _),
    num_zero σ fun l hl => hok.isFalseLit hσ (List.mem_takeWhile_imp hl), Nat.zero_add] at hsplit
  exact hsplit

lemma multiplyBits_spec (hlen : as.length = bs.length) (ha : Owns e as) (hb : Owns e bs) :
    requests.Triple e (multiplyBits as bs) fun out e' =>
      Word e' as.length out fun σ => num σ as * num σ bs := by
  induction hn : as.length using Nat.strong_induction_on generalizing e as bs with
  | _ n ih =>
    subst hn
    rw [multiplyBits]
    apply triple_get_bind
    apply triple_of_ok
    intro hok
    have hzeros := fun σ (hσ : Models σ e.added) ls => num_drop_zeros hok hσ ls
    dsimp only
    generalize hA : (as.takeWhile e.isFalseLit).length = aZero
    generalize hB : (bs.takeWhile e.isFalseLit).length = bZero
    have hprod : ∀ σ, Models σ e.added → (num σ as * num σ bs : Int) =
        2 ^ (aZero + bZero) * (num σ (as.drop aZero) * num σ (bs.drop bZero)) := by
      intro σ hσ
      rw [hzeros σ hσ as, hzeros σ hσ bs, hA, hB]
      push_cast
      ring
    split
    · split
      next hn =>
        refine triple_pure fun _ => (word_zero hok _).modEq fun σ hσ => ?_
        rw [hprod σ hσ]
        refine (Int.modEq_zero_iff_dvd.mpr (Dvd.dvd.mul_right (pow_dvd_pow 2 ?_) _)).symm
        omega
      next hz hn =>
        have hlenA : ((as.drop aZero).take (as.length - (aZero + bZero))).length =
            as.length - (aZero + bZero) := by
          rw [length_take, length_drop]
          omega
        have hlenB : ((bs.drop bZero).take (as.length - (aZero + bZero))).length =
            as.length - (aZero + bZero) := by
          rw [length_take, length_drop]
          omega
        apply triple_bind (ih _ (by omega) (hlenA.trans hlenB.symm)
          (fun l hl => ha l (mem_of_mem_drop (mem_of_mem_take hl)))
          (fun l hl => hb l (mem_of_mem_drop (mem_of_mem_take hl))) hlenA)
        intro product e₁ hok₁ hle hproduct
        have hword := word_append ((word_zero hok (aZero + bZero)).vars.grown hle) hproduct
        rw [length_replicate, Nat.add_sub_of_le (by omega)] at hword
        refine triple_pure fun _ => hword.modEq fun σ hσ => ?_
        have hσ := hle.models hσ
        have hslice := ((num_take σ (hlenA ▸ length_take_le' ..)).mul
          (num_take σ (hlenB ▸ length_take_le' ..))).mul_left' (c := 2 ^ (aZero + bZero))
        rw [← pow_add, Nat.add_sub_of_le (by omega), ← hprod σ hσ] at hslice
        rw [num_zeros hok hσ, Nat.cast_zero, zero_add]
        exact hslice
    · split
      next pattern hpattern =>
        exact multiplyByPattern_spec hlen ha (constantPattern_spec hok hpattern)
      next pattern _ hpattern =>
        refine (multiplyByPattern_spec hlen.symm hb (constantPattern_spec hok hpattern)).mono
          fun out e' _ _ h => ?_
        rw [hlen]
        exact h.congr fun σ _ => mul_comm ..
      · exact productRows_spec hok hlen ha hb

/-- In every model of the clauses, the literals of a product stand for the product modulo the width,
whichever way it is built, and those of a sum for the sum. -/
theorem multiply_exact {h : List (Request × List SatLit)} (hs : Session e h)
    (hlen : as.length = bs.length) (ha : Owns e as) (hb : Owns e bs) :
    (∀ out e', (multiplyBits as bs).run e = some (out, e') →
    Word e' as.length out fun σ => num σ as * num σ bs) ∧
    (∀ pattern out e', constantPattern e bs = some pattern →
      (multiplyByPattern as pattern).run e = some (out, e') →
      Word e' as.length out fun σ => num σ as * num σ bs) ∧
    (∀ out e', (addRows as 0 bs (replicate as.length e.falseLit)).run e = some (out, e') →
      Word e' as.length out fun σ => num σ as * num σ bs) ∧
    ∀ carryIn wantCarry r e', carryIn.var < e.numVars →
      (addBits as bs carryIn wantCarry).run e = some (r, e') →
      Word e' as.length r.1 fun σ => (carryIn.eval σ).toNat + num σ as + num σ bs := by
  have hok := hs.ok.1
  refine ⟨fun out e' he => (multiplyBits_spec hlen ha hb hok out e' he).2.2,
    fun pattern out e' hp he => ?_,
    fun out e' he => ?_, fun c wantCarry r e' hc he =>
      (addBits_spec hlen hc ha hb wantCarry hok r e' he).2.2⟩
  · exact (multiplyByPattern_spec hlen ha (constantPattern_spec hok hp) hok out e' he).2.2
  · exact (productRows_spec hok hlen ha hb hok out e' he).2.2

theorem multiply_exact_inputs :
    (∃ out e', (multiplyBits (wordOf [1, 2, 3]) (wordOf [4, 5, 6])).run (inputs 6) =
      some (out, e') ∧ Word e' 3 out fun σ => num σ (wordOf [1, 2, 3]) * num σ (wordOf [4, 5, 6])) ∧
      (∃ out e', (multiplyBits (wordOf [1, 2, 3]) five).run (inputs 6) = some (out, e') ∧
        Word e' 3 out fun σ => num σ (wordOf [1, 2, 3]) * num σ five) ∧
      ∃ r e', (addBits (wordOf [1, 2, 3]) (wordOf [4, 5, 6]) (inputs 6).trueLit true).run
        (inputs 6) = some (r, e') ∧
        Word e' 3 r.1 fun σ => ((inputs 6).trueLit.eval σ).toNat + num σ (wordOf [1, 2, 3]) +
        num σ (wordOf [4, 5, 6]) := by
  have hsome : ((multiplyBits (wordOf [1, 2, 3]) (wordOf [4, 5, 6])).run (inputs 6)).isSome ∧
      ((multiplyBits (wordOf [1, 2, 3]) five).run (inputs 6)).isSome ∧
      ((addBits (wordOf [1, 2, 3]) (wordOf [4, 5, 6]) (inputs 6).trueLit true).run
        (inputs 6)).isSome := by
    decide +kernel
  have howns : Owns (inputs 6) (wordOf [1, 2, 3]) ∧ Owns (inputs 6) (wordOf [4, 5, 6]) ∧
      Owns (inputs 6) five := by
    unfold Owns
    decide +kernel
  obtain ⟨⟨out, e⟩, he⟩ := Option.isSome_iff_exists.mp hsome.1
  obtain ⟨⟨scaled, e₁⟩, he₁⟩ := Option.isSome_iff_exists.mp hsome.2.1
  obtain ⟨⟨r, e₂⟩, he₂⟩ := Option.isSome_iff_exists.mp hsome.2.2
  have hlen : (wordOf [1, 2, 3]).length = (wordOf [4, 5, 6]).length := rfl
  have hscaled : (wordOf [1, 2, 3]).length = five.length := rfl
  have hcarry : (inputs 6).trueLit.var < (inputs 6).numVars := by decide +kernel
  obtain ⟨hproduct, -, -, hsum⟩ := multiply_exact (inputs_session 6) hlen howns.1 howns.2.1
  exact ⟨⟨out, e, he, hproduct out e he⟩,
    ⟨scaled, e₁, he₁, (multiply_exact (inputs_session 6) hscaled howns.1 howns.2.2).1
      scaled e₁ he₁⟩,
    r, e₂, he₂, hsum _ true r e₂ hcarry he₂⟩

end NeverD.Bv
