import NeverD.Lib.Words
import NeverD.Lib.Grow
import NeverD.Sym.Create
import NeverD.Sym.Value

namespace NeverD.Sym
open Lib APInt BitVec
open Words List
open Nat (mod_eq_of_lt pow_le_pow_right)

/-- The operands an operator of width `w` asks for, by their widths. -/
def shapeOk (op : SymOp) (w aux : Nat) (ws : List Nat) : Prop :=
  match op with
  | .const | .var => ws = []
  | .add | .mul | .and | .or | .xor => 2 ≤ ws.length ∧ ∀ x ∈ ws, x = w
  | .not => ws = [w]
  | .shl | .lshr | .ashr | .rol | .ror => ∃ x, ws = [w, x]
  | .udiv | .sdiv | .urem | .srem => ws = [w, w]
  | .extract => ∃ x, ws = [x] ∧ aux + w ≤ x
  | .concat => ws ≠ [] ∧ ws.sum = w
  | .zext | .sext => ∃ x, ws = [x] ∧ x < w
  | .ite => ws = [1, w, w]
  | .eq | .ult | .ule | .slt | .sle => w = 1 ∧ ∃ x, ws = [x, x]

/-- Signed division and remainder, which only literals and units rewrite. -/
def sdivOf (w x y : Nat) : Nat :=
  let a := APInt.ofNat w x
  let b := APInt.ofNat w y
  (if b.isZero then (if a.isNegative then APInt.ofNat w 1 else APInt.allOnes w)
    else if a.isMinSignedValue && b.isAllOnes then a else a.sdiv b).toNat

def sremOf (w x y : Nat) : Nat :=
  let a := APInt.ofNat w x
  let b := APInt.ofNat w y
  (if b.isZero then a
    else if a.isMinSignedValue && b.isAllOnes then APInt.zero w else a.srem b).toNat

def udivOf (w x y : Nat) : Nat := if y = 0 then ones w else x / y

def rolOf (w x n : Nat) : Nat := ((APInt.ofNat w x).rotl (n % w)).toNat

def rorOf (w x n : Nat) : Nat := ((APInt.ofNat w x).rotr (n % w)).toNat

/-- The number an operator gives, from the widths and the numbers of its operands. -/
def opNum (op : SymOp) (w aux : Nat) (xs : List (Nat × Nat)) : Nat :=
  let ns := xs.map Prod.snd
  let arg := fun i => ns.getD i 0
  let argWidth := fun i => (xs.map Prod.fst).getD i 0
  match op with
  | .const | .var => 0
  | .add => addAll w ns
  | .mul => mulAll w ns
  | .and => andAll w ns
  | .or => orAll ns
  | .xor => xorAll ns
  | .not => notOf w (arg 0)
  | .shl => arg 0 * 2 ^ arg 1 % 2 ^ w
  | .lshr => arg 0 / 2 ^ arg 1
  | .ashr => ashrOf w (arg 0) (arg 1)
  | .udiv => udivOf w (arg 0) (arg 1)
  | .sdiv => sdivOf w (arg 0) (arg 1)
  | .urem => arg 0 % arg 1
  | .srem => sremOf w (arg 0) (arg 1)
  | .rol => rolOf w (arg 0) (arg 1)
  | .ror => rorOf w (arg 0) (arg 1)
  | .extract => arg 0 / 2 ^ aux % 2 ^ w
  | .concat => joinAll xs
  | .zext => arg 0
  | .sext => sextOf (argWidth 0) w (arg 0)
  | .ite => if arg 0 = 0 then arg 2 else arg 1
  | .eq => bit (arg 0 = arg 1)
  | .ult => bit (arg 0 < arg 1)
  | .ule => bit (arg 0 ≤ arg 1)
  | .slt => bit (toInt (argWidth 0) (arg 0) < toInt (argWidth 0) (arg 1))
  | .sle => bit (toInt (argWidth 0) (arg 0) ≤ toInt (argWidth 0) (arg 1))

section

def pair (a : APInt) : Nat × Nat := (a.width, a.toNat)

variable {a b : APInt}

lemma toNat_map₂ {f : (w : Nat) → BitVec w → BitVec w → BitVec w} (h : b.width = a.width) :
    (APInt.map₂ f a b).toNat = (f a.width a.bits (BitVec.ofNat a.width b.toNat)).toNat := by
  obtain ⟨w, x⟩ := a
  obtain ⟨v, y⟩ := b
  obtain rfl : v = w := h
  simp [APInt.map₂, APInt.toNat, APInt.read]

lemma foldArgs_toNat {w : Nat} {f : APInt → APInt → APInt} {g : Nat → Nat → Nat} {e : APInt}
    (hf : ∀ a b, a.width = w → b.width = w → (f a b).width = w ∧ (f a b).toNat = g a.toNat b.toNat)
    {a : APInt} {args : List APInt} (ha : a.width = w) (hargs : ∀ b ∈ args, b.width = w) :
    (foldArgs f e (a :: args)).width = w ∧
      (foldArgs f e (a :: args)).toNat = (args.map APInt.toNat).foldl g a.toNat := by
  induction args generalizing a with
  | nil => exact ⟨ha, rfl⟩
  | cons b args ih =>
    obtain ⟨h1, h2⟩ := hf a b ha (hargs b mem_cons_self)
    have h3 := ih h1 fun c hc => hargs c (mem_cons_of_mem _ hc)
    rw [h2] at h3
    exact h3

lemma foldl_add (w : Nat) (xs : List Nat) {a : Nat} (ha : a < 2 ^ w) :
    xs.foldl (fun x y => (x + y) % 2 ^ w) a = addAll w (a :: xs) := by
  induction xs generalizing a with
  | nil => simp [addAll, mod_eq_of_lt ha]
  | cons x xs ih =>
    rw [foldl_cons, ih (Nat.mod_lt _ (Nat.two_pow_pos w)), addAll, addAll, sum_cons,
      Nat.mod_add_mod, sum_cons, sum_cons]
    congr 1
    omega

lemma foldl_and (w : Nat) (xs : List Nat) {a : Nat} (ha : a < 2 ^ w) :
    xs.foldl (· &&& ·) a = andAll w (a :: xs) := by
  induction xs generalizing a with
  | nil => exact (and_ones ha).symm
  | cons x xs ih =>
    rw [foldl_cons, ih (lt_of_le_of_lt Nat.and_le_left ha), andAll_cons, andAll_cons, andAll_cons,
      Nat.and_assoc]

lemma foldl_or (xs : List Nat) (a : Nat) : xs.foldl (· ||| ·) a = orAll (a :: xs) := by
  induction xs generalizing a with
  | nil => simp
  | cons x xs ih => rw [foldl_cons, ih, orAll_cons, orAll_cons, orAll_cons, Nat.or_assoc]

lemma foldl_xor (xs : List Nat) (a : Nat) : xs.foldl (· ^^^ ·) a = xorAll (a :: xs) := by
  induction xs generalizing a with
  | nil => simp
  | cons x xs ih => rw [foldl_cons, ih, xorAll_cons, xorAll_cons, xorAll_cons, Nat.xor_assoc]

lemma mulArgs_toNat {w : Nat} {args : List APInt} (ha : a.width = w)
    (hargs : ∀ b ∈ args, b.width = w) :
    (mulArgs a args).width = w ∧
    (mulArgs a args).toNat = (a.toNat * (args.map APInt.toNat).prod) % 2 ^ w := by
  induction args generalizing a with
  | nil =>
    refine ⟨ha, ?_⟩
    have := a.toNat_lt
    rw [ha] at this
    simp [mulArgs, mod_eq_of_lt this]
  | cons b args ih =>
    rw [mulArgs]
    split
    next hz =>
      have h0 : a.toNat = 0 := by simpa [APInt.isZero] using hz
      exact ⟨ha, by simp [h0]⟩
    · have hb := hargs b mem_cons_self
      have hw : (a.mul b).width = w := ha
      have hm : (a.mul b).toNat = a.toNat * b.toNat % 2 ^ w := by
        rw [APInt.mul, toNat_map₂ (hb.trans ha.symm), BitVec.toNat_mul, ← ha]
        have hlt := b.toNat_lt
        rw [hb, ← ha] at hlt
        show _ = a.bits.toNat * b.toNat % _
        rw [BitVec.toNat_ofNat, mod_eq_of_lt hlt]
      obtain ⟨h1, h2⟩ := ih hw fun c hc => hargs c (mem_cons_of_mem _ hc)
      refine ⟨h1, ?_⟩
      rw [h2, hm, map_cons, prod_cons, Nat.mod_mul_mod, mul_assoc]

lemma concatArgs_toNat {w : Nat} {args : List APInt} {acc : APInt} {high : Nat} {shift : Nat}
    (hacc : acc.width = w) (hs : (args.map APInt.width).sum = shift) (hw : shift ≤ w)
    (hv : acc.toNat = high * 2 ^ shift) :
    (concatArgs w acc shift args).width = w ∧ (concatArgs w acc shift args).toNat =
      high * 2 ^ shift + joinAll (args.map pair) := by
  induction args generalizing acc high shift with
  | nil =>
    refine ⟨hacc, ?_⟩
    simpa [concatArgs, joinAll] using hv
  | cons a args ih =>
    rw [map_cons, sum_cons] at hs
    have hrest : (args.map APInt.width).sum = shift - a.width := by omega
    rw [concatArgs]
    have hlt : a.toNat * 2 ^ (shift - a.width) < 2 ^ shift := by
      have h1 : 2 ^ shift = 2 ^ a.width * 2 ^ (shift - a.width) := by
        rw [← pow_add]
        congr 1
        omega
      rw [h1]
      exact Nat.mul_lt_mul_of_pos_right a.toNat_lt (Nat.two_pow_pos _)
    have hshl : ((a.zextOrTrunc w).shl (shift - a.width)).toNat =
        a.toNat * 2 ^ (shift - a.width) := by
      have haw : a.toNat < 2 ^ w := a.toNat_lt.trans_le (pow_le_pow_right two_pos (by omega))
      show ((a.bits.setWidth w) <<< (shift - a.width)).toNat = _
      rw [BitVec.toNat_shiftLeft, BitVec.toNat_setWidth, Nat.shiftLeft_eq]
      show a.toNat % 2 ^ w * _ % 2 ^ w = _
      rw [mod_eq_of_lt haw]
      exact mod_eq_of_lt (hlt.trans_le (pow_le_pow_right two_pos hw))
    have hor : (acc.or ((a.zextOrTrunc w).shl (shift - a.width))).toNat =
        (high * 2 ^ a.width + a.toNat) * 2 ^ (shift - a.width) := by
      rw [APInt.or, toNat_map₂ (by rw [hacc]; rfl), BitVec.toNat_or, BitVec.toNat_ofNat, hshl]
      have hm : a.toNat * 2 ^ (shift - a.width) % 2 ^ acc.width =
          a.toNat * 2 ^ (shift - a.width) := by
        rw [hacc]
        exact mod_eq_of_lt (hlt.trans_le (pow_le_pow_right two_pos hw))
      rw [hm]
      show acc.toNat ||| _ = _
      rw [hv, mul_comm high, ← Nat.two_pow_add_eq_or_of_lt hlt]
      have h1 : 2 ^ shift = 2 ^ a.width * 2 ^ (shift - a.width) := by
        rw [← pow_add]
        congr 1
        omega
      rw [h1]
      ring
    have haccw : (acc.or ((a.zextOrTrunc w).shl (shift - a.width))).width = w := hacc
    obtain ⟨h1, h2⟩ := ih haccw hrest (by omega) hor
    refine ⟨h1, ?_⟩
    rw [h2, map_cons]
    have hj := joinAll_append [pair a] (args.map pair)
    have hsum : ((args.map pair).map Prod.fst).sum = shift - a.width := by
      rw [map_map]
      exact hrest
    rw [hsum] at hj
    rw [singleton_append] at hj
    rw [hj]
    have h1 : 2 ^ shift = 2 ^ a.width * 2 ^ (shift - a.width) := by
      rw [← pow_add]
      congr 1
      omega
    have h3 : joinAll [pair a] = a.toNat := by simp [joinAll, pair]
    rw [h3, h1]
    ring

variable (h : b.width = a.width)
include h

lemma toNat_and : (a.and b).toNat = a.toNat &&& b.toNat := by
  have hlt := b.toNat_lt
  rw [h] at hlt
  rw [APInt.and, toNat_map₂ h, BitVec.toNat_and, BitVec.toNat_ofNat, mod_eq_of_lt hlt]
  rfl

lemma toNat_or : (a.or b).toNat = a.toNat ||| b.toNat := by
  have hlt := b.toNat_lt
  rw [h] at hlt
  rw [APInt.or, toNat_map₂ h, BitVec.toNat_or, BitVec.toNat_ofNat, mod_eq_of_lt hlt]
  rfl

lemma toNat_xor : (a.xor b).toNat = a.toNat ^^^ b.toNat := by
  have hlt := b.toNat_lt
  rw [h] at hlt
  rw [APInt.xor, toNat_map₂ h, BitVec.toNat_xor, BitVec.toNat_ofNat, mod_eq_of_lt hlt]
  rfl

lemma toNat_add : (a.add b).toNat = (a.toNat + b.toNat) % 2 ^ a.width := by
  have hlt := b.toNat_lt
  rw [h] at hlt
  rw [APInt.add, toNat_map₂ h, BitVec.toNat_add, BitVec.toNat_ofNat, mod_eq_of_lt hlt]
  rfl

lemma toNat_mul : (a.mul b).toNat = a.toNat * b.toNat % 2 ^ a.width := by
  have hb := b.toNat_lt
  rw [h] at hb
  rw [APInt.mul, toNat_map₂ h, BitVec.toNat_mul, BitVec.toNat_ofNat, mod_eq_of_lt hb]
  rfl

omit h

lemma toNat_not (a : APInt) : a.not.toNat = notOf a.width a.toNat := by
  show (~~~a.bits).toNat = _
  rw [BitVec.toNat_not]
  rfl

lemma isNegative_eq (a : APInt) : a.isNegative = msb a.width a.toNat := by
  show a.bits.msb = _
  rw [msb_eq_getLsbD_last, getLsbD]
  rfl

@[simp] lemma toNat_allOnes (w : Nat) : (APInt.allOnes w).toNat = ones w := BitVec.toNat_allOnes

@[simp] lemma toNat_zero (w : Nat) : (zero w).toNat = 0 := by
  simp [zero]

@[simp] lemma allOnes_width (w : Nat) : (APInt.allOnes w).width = w := rfl

@[simp] lemma zero_width (w : Nat) : (zero w).width = w := rfl

lemma toNat_ofBool (b : Bool) : (APInt.ofBool b).toNat = bit b := by
  cases b <;> rfl

lemma toInt_eq (a : APInt) : a.bits.toInt = toInt a.width a.toNat := by
  rw [toInt_eq_msb_cond, toInt, ← isNegative_eq]
  show (if a.bits.msb then _ else _) = if a.bits.msb then _ else _
  split <;> simp [APInt.toNat]

lemma slt_eq (h : b.width = a.width) :
    a.slt b = decide (toInt a.width a.toNat < toInt a.width b.toNat) := by
  obtain ⟨w, x⟩ := a
  obtain ⟨v, y⟩ := b
  obtain rfl : v = w := h
  rw [APInt.slt, BitVec.slt]
  have h1 := toInt_eq ⟨v, x⟩
  have h2 := toInt_eq ⟨v, y⟩
  simp only [APInt.read, BitVec.setWidth_eq] at h1 h2 ⊢
  rw [h1, h2]

lemma sle_eq (h : b.width = a.width) :
    a.sle b = decide (toInt a.width a.toNat ≤ toInt a.width b.toNat) := by
  obtain ⟨w, x⟩ := a
  obtain ⟨v, y⟩ := b
  obtain rfl : v = w := h
  rw [APInt.sle, BitVec.sle]
  have h1 := toInt_eq ⟨v, x⟩
  have h2 := toInt_eq ⟨v, y⟩
  simp only [APInt.read, BitVec.setWidth_eq] at h1 h2 ⊢
  rw [h1, h2]

lemma toNat_ashr (a : APInt) (n : Nat) : (a.ashr n).toNat = ashrOf a.width a.toNat n := by
  show (a.bits.sshiftRight n).toNat = _
  rw [toNat_sshiftRight, ashrOf, ← isNegative_eq]
  show (if a.bits.msb then _ else _) = if a.bits.msb then _ else _
  split
  · rw [Nat.shiftRight_eq_div_pow]
    rfl
  · rw [Nat.shiftRight_eq_div_pow]
    rfl

theorem ashrOf_of_le {w x n : Nat} (hx : x < 2 ^ w) (h : w ≤ n) :
    ashrOf w x n = if msb w x then ones w else 0 := by
  have hp : 2 ^ w ≤ 2 ^ n := pow_le_pow_right two_pos h
  unfold ashrOf
  rw [Nat.div_eq_of_lt (hx.trans_le hp),
    Nat.div_eq_of_lt (lt_of_le_of_lt (Nat.sub_le _ _) ((ones_lt w).trans_le hp))]
  rfl

lemma toNat_sext (a : APInt) (w : Nat) (h : a.width ≤ w) :
    (a.sext w).toNat = sextOf a.width w a.toNat := by
  show (a.bits.signExtend w).toNat = _
  rw [toNat_signExtend, sextOf, ← isNegative_eq]
  show _ = if a.bits.msb then _ else _
  have hlt : a.bits.toNat < 2 ^ w := a.toNat_lt.trans_le (pow_le_pow_right two_pos h)
  rw [toNat_setWidth, mod_eq_of_lt hlt]
  split
  · rfl
  · exact add_zero _

section

variable {args : List APInt} {a b : APInt} {w : Nat}

lemma args_two {x y : Nat} (h : args.map APInt.width = [x, y]) :
    ∃ a b, args = [a, b] ∧ a.width = x ∧ b.width = y := by
  obtain ⟨a, as, rfl, ha, h⟩ := map_eq_cons_iff.mp h
  obtain ⟨b, rfl, hb⟩ := map_eq_singleton_iff.mp h
  exact ⟨a, b, rfl, ha, hb⟩

lemma args_three {x y z : Nat} (h : args.map APInt.width = [x, y, z]) :
    ∃ a b c, args = [a, b, c] ∧ a.width = x ∧ b.width = y ∧ c.width = z := by
  obtain ⟨a, as, rfl, ha, h⟩ := map_eq_cons_iff.mp h
  obtain ⟨b, c, rfl, hb, hc⟩ := args_two h
  exact ⟨a, b, c, rfl, ha, hb, hc⟩

lemma foldArgs_num {f : APInt → APInt → APInt} {g : Nat → Nat → Nat} {e : APInt}
    {h : List Nat → Nat}
    (hf : ∀ a b, a.width = w → b.width = w → (f a b).width = w ∧ (f a b).toNat = g a.toNat b.toNat)
    (hg : ∀ x xs, x < 2 ^ w → (∀ y ∈ xs, y < 2 ^ w) → xs.foldl g x = h (x :: xs))
    (hshape : 2 ≤ (args.map APInt.width).length ∧ ∀ x ∈ args.map APInt.width, x = w) :
    (foldArgs f e args).width = w ∧ (foldArgs f e args).toNat = h (args.map APInt.toNat) := by
  cases args with
  | nil => exact absurd hshape.1 (by decide)
  | cons a rest =>
    have hall : ∀ b ∈ a :: rest, b.width = w := fun b hb => hshape.2 _ (mem_map_of_mem hb)
    have hlt : ∀ b ∈ a :: rest, b.toNat < 2 ^ w := by
      intro b hb
      rw [← hall b hb]
      exact b.toNat_lt
    obtain ⟨h1, h2⟩ := @foldArgs_toNat w f g e hf a rest (hall a mem_cons_self)
      fun b hb => hall b (mem_cons_of_mem _ hb)
    refine ⟨h1, h2.trans (hg _ _ (hlt a mem_cons_self) ?_)⟩
    intro y hy
    obtain ⟨b, hb, rfl⟩ := mem_map.mp hy
    exact hlt b (mem_cons_of_mem _ hb)

variable (ha : a.width = w)
include ha

lemma shl_num (n : Nat) : (if w ≤ n then APInt.zero w else a.shl n).width = w ∧
    (if w ≤ n then APInt.zero w else a.shl n).toNat = a.toNat * 2 ^ n % 2 ^ w := by
  split
  next hle =>
    refine ⟨rfl, ?_⟩
    rw [toNat_zero]
    exact (Nat.mod_eq_zero_of_dvd (Dvd.dvd.mul_left (pow_dvd_pow 2 hle) _)).symm
  · refine ⟨ha, ?_⟩
    show (a.bits <<< n).toNat = _
    rw [BitVec.toNat_shiftLeft, Nat.shiftLeft_eq]
    show a.toNat * 2 ^ n % 2 ^ a.width = _
    rw [ha]

lemma lshr_num (n : Nat) : (if w ≤ n then APInt.zero w else a.lshr n).width = w ∧
    (if w ≤ n then APInt.zero w else a.lshr n).toNat = a.toNat / 2 ^ n := by
  split
  next hle =>
    refine ⟨rfl, ?_⟩
    rw [toNat_zero]
    have hlt := a.toNat_lt
    rw [ha] at hlt
    exact (Nat.div_eq_of_lt (hlt.trans_le (pow_le_pow_right two_pos hle))).symm
  · refine ⟨ha, ?_⟩
    show (a.bits >>> n).toNat = _
    rw [BitVec.toNat_ushiftRight, Nat.shiftRight_eq_div_pow]
    rfl

lemma ashr_num (n : Nat) :
    (if w ≤ n then (if a.isNegative then APInt.allOnes w else APInt.zero w) else a.ashr n).width =
      w ∧
      (if w ≤ n then (if a.isNegative then APInt.allOnes w else APInt.zero w) else a.ashr n).toNat =
        ashrOf w a.toNat n := by
  have hlt := a.toNat_lt
  rw [ha] at hlt
  split
  next hle =>
    rw [ashrOf_of_le hlt hle, isNegative_eq, ha]
    split
    · exact ⟨rfl, toNat_allOnes w⟩
    · exact ⟨rfl, toNat_zero w⟩
  · exact ⟨ha, by rw [toNat_ashr, ha]⟩

variable (hb : b.width = w)
include hb

lemma udiv_num : (if b.isZero then APInt.allOnes w else a.udiv b).width = w ∧
    (if b.isZero then APInt.allOnes w else a.udiv b).toNat = udivOf w a.toNat b.toNat := by
  have hz : b.isZero = decide (b.toNat = 0) := rfl
  unfold udivOf
  rw [hz]
  by_cases h0 : b.toNat = 0
  · simp [h0]
  · have hlt := b.toNat_lt
    rw [hb, ← ha] at hlt
    simp only [h0, decide_false, Bool.false_eq_true, if_false]
    refine ⟨ha, ?_⟩
    rw [APInt.udiv, toNat_map₂ (hb.trans ha.symm), BitVec.toNat_udiv, BitVec.toNat_ofNat,
      mod_eq_of_lt hlt]
    rfl

lemma urem_num : (if b.isZero then a else a.urem b).width = w ∧
    (if b.isZero then a else a.urem b).toNat = a.toNat % b.toNat := by
  have hz : b.isZero = decide (b.toNat = 0) := rfl
  rw [hz]
  by_cases h0 : b.toNat = 0
  · simp [h0, ha]
  · have hlt := b.toNat_lt
    rw [hb, ← ha] at hlt
    simp only [h0, decide_false, Bool.false_eq_true, if_false]
    refine ⟨ha, ?_⟩
    rw [APInt.urem, toNat_map₂ (hb.trans ha.symm), BitVec.toNat_umod, BitVec.toNat_ofNat,
      mod_eq_of_lt hlt]
    rfl

lemma sdiv_num :
    (if b.isZero then (if a.isNegative then APInt.ofNat w 1 else APInt.allOnes w)
      else if a.isMinSignedValue && b.isAllOnes then a else a.sdiv b).width = w ∧
    (if b.isZero then (if a.isNegative then APInt.ofNat w 1 else APInt.allOnes w)
      else if a.isMinSignedValue && b.isAllOnes then a else a.sdiv b).toNat =
        sdivOf w a.toNat b.toNat := by
  subst ha
  have hb' : APInt.ofNat a.width b.toNat = b := by rw [← hb]; exact b.ofNat_self
  unfold sdivOf
  rw [a.ofNat_self, hb']
  refine ⟨?_, rfl⟩
  split
  · split <;> rfl
  · split
    · rfl
    · rfl

lemma srem_num :
    (if b.isZero then a else if a.isMinSignedValue && b.isAllOnes then APInt.zero w
    else a.srem b).width = w ∧
    (if b.isZero then a else if a.isMinSignedValue && b.isAllOnes then APInt.zero w
      else a.srem b).toNat = sremOf w a.toNat b.toNat := by
  subst ha
  have hb' : APInt.ofNat a.width b.toNat = b := by rw [← hb]; exact b.ofNat_self
  unfold sremOf
  rw [a.ofNat_self, hb']
  refine ⟨?_, rfl⟩
  split
  · rfl
  · split
    · rfl
    · rfl

end

lemma evalNodeAP_num {ctx : SymContext} {r : SymRef} {args : List APInt}
    (hs : shapeOk (ctx.op r) (ctx.width r) (ctx.aux r) (args.map APInt.width))
    (hc : ctx.op r ≠ .const) (hv : ctx.op r ≠ .var) : (ctx.evalNodeAP r args).width = ctx.width r ∧
      (ctx.evalNodeAP r args).toNat = opNum (ctx.op r) (ctx.width r) (ctx.aux r)
      (args.map pair) := by
  have hsnd : (args.map pair).map Prod.snd = args.map APInt.toNat := by
    rw [map_map]
    rfl
  have hfst : (args.map pair).map Prod.fst = args.map APInt.width := by
    rw [map_map]
    rfl
  unfold SymContext.evalNodeAP opNum
  simp only [hsnd, hfst]
  generalize ctx.width r = w at *
  generalize ctx.aux r = aux at *
  cases hop : ctx.op r with
  | const => exact absurd hop hc
  | var => exact absurd hop hv
  | add =>
    rw [hop] at hs
    show (foldArgs APInt.add (.zero w) args).width = w ∧
      (foldArgs APInt.add (.zero w) args).toNat = addAll w (args.map APInt.toNat)
    have hf : ∀ a b : APInt, a.width = w → b.width = w →
        (a.add b).width = w ∧ (a.add b).toNat = (a.toNat + b.toNat) % 2 ^ w := by
      intro a b ha hb
      exact ⟨ha, by rw [toNat_add (hb.trans ha.symm), ha]⟩
    exact foldArgs_num hf (fun x xs hx _ => foldl_add w xs hx) hs
  | mul =>
    rw [hop] at hs
    cases args with
    | nil => exact absurd hs.1 (by decide)
    | cons a rest =>
      have hall : ∀ b ∈ a :: rest, b.width = w := fun b hb => hs.2 _ (mem_map_of_mem hb)
      have h := mulArgs_toNat (hall a mem_cons_self) fun b hb => hall b (mem_cons_of_mem _ hb)
      exact h
  | and =>
    rw [hop] at hs
    show (foldArgs APInt.and (.allOnes w) args).width = w ∧
      (foldArgs APInt.and (.allOnes w) args).toNat = andAll w (args.map APInt.toNat)
    have hf : ∀ a b : APInt, a.width = w → b.width = w → (a.and b).width = w ∧
        (a.and b).toNat = a.toNat &&& b.toNat :=
      fun a b ha hb => ⟨ha, toNat_and (hb.trans ha.symm)⟩
    exact foldArgs_num hf (fun x xs hx _ => foldl_and w xs hx) hs
  | or =>
    rw [hop] at hs
    show (foldArgs APInt.or (.zero w) args).width = w ∧
      (foldArgs APInt.or (.zero w) args).toNat = orAll (args.map APInt.toNat)
    have hf : ∀ a b : APInt, a.width = w → b.width = w → (a.or b).width = w ∧
        (a.or b).toNat = a.toNat ||| b.toNat :=
      fun a b ha hb => ⟨ha, toNat_or (hb.trans ha.symm)⟩
    exact foldArgs_num hf (fun x xs _ _ => foldl_or xs x) hs
  | xor =>
    rw [hop] at hs
    show (foldArgs APInt.xor (.zero w) args).width = w ∧
      (foldArgs APInt.xor (.zero w) args).toNat = xorAll (args.map APInt.toNat)
    have hf : ∀ a b : APInt, a.width = w → b.width = w → (a.xor b).width = w ∧
        (a.xor b).toNat = a.toNat ^^^ b.toNat :=
      fun a b ha hb => ⟨ha, toNat_xor (hb.trans ha.symm)⟩
    exact foldArgs_num hf (fun x xs _ _ => foldl_xor xs x) hs
  | not =>
    rw [hop] at hs
    obtain ⟨a, rfl, ha⟩ := map_eq_singleton_iff.mp hs
    exact ⟨ha, by rw [← ha]; exact toNat_not a⟩
  | shl =>
    rw [hop] at hs
    obtain ⟨y, hs⟩ := hs
    obtain ⟨a, b, rfl, ha, hb⟩ := args_two hs
    exact shl_num ha b.toNat
  | lshr =>
    rw [hop] at hs
    obtain ⟨y, hs⟩ := hs
    obtain ⟨a, b, rfl, ha, hb⟩ := args_two hs
    exact lshr_num ha b.toNat
  | ashr =>
    rw [hop] at hs
    obtain ⟨y, hs⟩ := hs
    obtain ⟨a, b, rfl, ha, hb⟩ := args_two hs
    exact ashr_num ha b.toNat
  | udiv =>
    rw [hop] at hs
    obtain ⟨a, b, rfl, ha, hb⟩ := args_two hs
    exact udiv_num ha hb
  | urem =>
    rw [hop] at hs
    obtain ⟨a, b, rfl, ha, hb⟩ := args_two hs
    exact urem_num ha hb
  | sdiv =>
    rw [hop] at hs
    obtain ⟨a, b, rfl, ha, hb⟩ := args_two hs
    exact sdiv_num ha hb
  | srem =>
    rw [hop] at hs
    obtain ⟨a, b, rfl, ha, hb⟩ := args_two hs
    exact srem_num ha hb
  | rol =>
    rw [hop] at hs
    obtain ⟨y, hs⟩ := hs
    obtain ⟨a, b, rfl, ha, hb⟩ := args_two hs
    have ha' : APInt.ofNat w a.toNat = a := by rw [← ha]; exact a.ofNat_self
    refine ⟨ha, ?_⟩
    show _ = rolOf w a.toNat b.toNat
    unfold rolOf
    rw [ha']
    rfl
  | ror =>
    rw [hop] at hs
    obtain ⟨y, hs⟩ := hs
    obtain ⟨a, b, rfl, ha, hb⟩ := args_two hs
    have ha' : APInt.ofNat w a.toNat = a := by rw [← ha]; exact a.ofNat_self
    refine ⟨ha, ?_⟩
    show _ = rorOf w a.toNat b.toNat
    unfold rorOf
    rw [ha']
    rfl
  | extract =>
    rw [hop] at hs
    obtain ⟨y, hs, hy⟩ := hs
    obtain ⟨a, rfl, ha⟩ := map_eq_singleton_iff.mp hs
    refine ⟨rfl, ?_⟩
    show (a.bits.extractLsb' aux w).toNat = a.toNat / 2 ^ aux % 2 ^ w
    rw [BitVec.extractLsb'_toNat, Nat.shiftRight_eq_div_pow]
    rfl
  | concat =>
    rw [hop] at hs
    have h := @concatArgs_toNat w args (.zero w) 0 w (zero_width w) hs.2 (Nat.le_refl w) (by simp)
    rw [Nat.zero_mul, Nat.zero_add] at h
    exact h
  | zext =>
    rw [hop] at hs
    obtain ⟨y, hs, hy⟩ := hs
    obtain ⟨a, rfl, ha⟩ := map_eq_singleton_iff.mp hs
    refine ⟨rfl, ?_⟩
    show (a.bits.setWidth w).toNat = a.toNat
    rw [BitVec.toNat_setWidth]
    have hlt := a.toNat_lt
    rw [ha] at hlt
    exact mod_eq_of_lt (hlt.trans_le (pow_le_pow_right two_pos hy.le))
  | sext =>
    rw [hop] at hs
    obtain ⟨y, hs, hy⟩ := hs
    obtain ⟨a, rfl, ha⟩ := map_eq_singleton_iff.mp hs
    exact ⟨rfl, toNat_sext a w (by rw [ha]; exact hy.le)⟩
  | ite =>
    rw [hop] at hs
    obtain ⟨c, a, b, rfl, -, ha, hb⟩ := args_three hs
    show (if c.isZero then b else a).width = w ∧
      (if c.isZero then b else a).toNat = if c.toNat = 0 then b.toNat else a.toNat
    have hz : c.isZero = decide (c.toNat = 0) := rfl
    rw [hz]
    by_cases h0 : c.toNat = 0
    · simp [h0, hb]
    · simp [h0, ha]
  | eq =>
    rw [hop] at hs
    obtain ⟨hw1, y, hs⟩ := hs
    obtain ⟨a, b, rfl, ha, hb⟩ := args_two hs
    refine ⟨hw1.symm, ?_⟩
    show (APInt.ofBool (decide (a = b))).toNat = bit (decide (a.toNat = b.toNat))
    rw [toNat_ofBool]
    congr 1
    apply decide_eq_decide.mpr
    exact ⟨fun h => by rw [h], fun h => APInt.ext (ha.trans hb.symm) h⟩
  | ult | ule =>
    rw [hop] at hs
    obtain ⟨hw1, y, hs⟩ := hs
    obtain ⟨a, b, rfl, ha, hb⟩ := args_two hs
    exact ⟨hw1.symm, toNat_ofBool _⟩
  | slt =>
    rw [hop] at hs
    obtain ⟨hw1, y, hs⟩ := hs
    obtain ⟨a, b, rfl, ha, hb⟩ := args_two hs
    refine ⟨hw1.symm, ?_⟩
    show (APInt.ofBool (a.slt b)).toNat = _
    rw [toNat_ofBool, slt_eq (hb.trans ha.symm)]
    rfl
  | sle =>
    rw [hop] at hs
    obtain ⟨hw1, y, hs⟩ := hs
    obtain ⟨a, b, rfl, ha, hb⟩ := args_two hs
    refine ⟨hw1.symm, ?_⟩
    show (APInt.ofBool (a.sle b)).toNat = _
    rw [toNat_ofBool, sle_eq (hb.trans ha.symm)]
    rfl

end

/-- A selection is between two different words. -/
def armsOk (op : SymOp) (ops : List SymRef) : Prop := op = .ite → ops.getD 1 0 ≠ ops.getD 2 0

namespace SymContext

structure Typed [BlockHash] (ctx : SymContext) : Prop extends Ok ctx where
  shapes : ∀ r < ctx.nodes.length,
    shapeOk (ctx.op r) (ctx.width r) (ctx.aux r) ((ctx.operands r).map ctx.width)
  arms : ∀ r < ctx.nodes.length, armsOk (ctx.op r) (ctx.operands r)

def num (ctx : SymContext) (vals : List APInt) (r : SymRef) : Nat := (ctx.value vals r).toNat

def constNum (ctx : SymContext) (r : SymRef) : Nat := (ctx.constValue r).toNat

variable [BlockHash] {ctx : SymContext}

variable {r : SymRef}

lemma Typed.operand_lt (h : Typed ctx) {c : SymRef} (hr : r < ctx.nodes.length)
    (hc : c ∈ ctx.operands r) : c < ctx.nodes.length := (h.below r hr c hc).trans hr

omit [BlockHash] in
lemma varValue_width (vals : List APInt) (id w : Nat) : (varValue vals id w).width = w := by
  unfold varValue
  split
  · rfl
  · split
    · assumption
    · rfl

variable (h : Typed ctx)
include h

lemma Typed.constValue_width (hr : r < ctx.nodes.length)
    (hop : ctx.op r = .const) : (ctx.constValue r).width = ctx.width r := by
  unfold constValue
  split
  · rfl
  next hw =>
    obtain ⟨v, hv, hvw⟩ := (h.nodes r hr).wide hop (not_le.mp hw)
    rw [List.getD, hv]
    exact hvw

variable (vals : List APInt)
include vals

lemma Typed.value_width (hr : r < ctx.nodes.length) : (ctx.value vals r).width = ctx.width r := by
  induction r using Nat.strong_induction_on with
  | _ r ih =>
    rw [h.toAcyclic.value_eq vals hr, nodeValue]
    split
    · exact varValue_width _ _ _
    next hv =>
      by_cases hc : ctx.op r = .const
      · unfold evalNodeAP
        rw [hc]
        exact h.constValue_width hr hc
      · have hmap : ((ctx.operands r).map (ctx.value vals)).map APInt.width =
            (ctx.operands r).map ctx.width := by
          rw [map_map]
          apply map_congr_left
          intro c hcm
          exact ih c (h.below r hr c hcm) (h.operand_lt hr hcm)
        refine (evalNodeAP_num ?_ hc hv).1
        rw [hmap]
        exact h.shapes r hr

lemma Typed.num_lt (hr : r < ctx.nodes.length) : ctx.num vals r < 2 ^ ctx.width r := by
  have := (ctx.value vals r).toNat_lt
  rwa [h.value_width vals hr] at this

lemma Typed.num_const (hr : r < ctx.nodes.length) (hop : ctx.op r = .const) :
    ctx.num vals r = ctx.constNum r := by
  have hnv : ctx.op r ≠ .var := by rw [hop]; exact fun h => (nomatch h)
  rw [num, h.toAcyclic.value_eq vals hr, nodeValue, if_neg hnv]
  unfold evalNodeAP
  rw [hop]
  rfl

lemma Typed.num_eq (hr : r < ctx.nodes.length) (hc : ctx.op r ≠ .const) (hv : ctx.op r ≠ .var) :
    ctx.num vals r = opNum (ctx.op r) (ctx.width r) (ctx.aux r)
      ((ctx.operands r).map fun c => (ctx.width c, ctx.num vals c)) := by
  have hmap : ((ctx.operands r).map (ctx.value vals)).map APInt.width =
      (ctx.operands r).map ctx.width := by
    rw [map_map]
    apply map_congr_left
    intro c hcm
    exact h.value_width vals (h.operand_lt hr hcm)
  have hpair : ((ctx.operands r).map (ctx.value vals)).map pair =
      (ctx.operands r).map fun c => (ctx.width c, ctx.num vals c) := by
    rw [map_map]
    apply map_congr_left
    intro c hcm
    show ((ctx.value vals c).width, _) = _
    rw [h.value_width vals (h.operand_lt hr hcm)]
    rfl
  rw [num, h.toAcyclic.value_eq vals hr, nodeValue, if_neg hv, ← hpair]
  refine (evalNodeAP_num ?_ hc hv).2
  rw [hmap]
  exact h.shapes r hr

omit vals

lemma Typed.value_extend {ctx' : SymContext} (he : Extends ctx ctx')
    (vals : List APInt) (hr : r < ctx.nodes.length) : ctx'.value vals r = ctx.value vals r := by
  induction r using Nat.strong_induction_on with
  | _ r ih =>
    rw [value, value, h.toAcyclic.operands_extend he hr]
    have hargs : ((ctx.operands r).map fun c => if c < r then ctx'.value vals c else zero 0) =
        (ctx.operands r).map fun c => if c < r then ctx.value vals c else zero 0 := by
      apply map_congr_left
      intro c hcm
      rw [ih c (h.below r hr c hcm) (h.operand_lt hr hcm)]
    rw [hargs, nodeValue, nodeValue, he.op hr, he.width hr, he.aux hr]
    split
    · rfl
    · unfold evalNodeAP
      rw [he.op hr, he.width hr, he.aux hr]
      have hconst : ctx.op r = .const → ctx'.constValue r = ctx.constValue r := by
        intro hop
        unfold constValue
        rw [he.width hr, he.aux hr]
        split
        · rfl
        next hw =>
          obtain ⟨v, hv, hvw⟩ := (h.nodes r hr).wide hop (not_le.mp hw)
          obtain ⟨t, ht⟩ := he.wide
          rw [← ht, List.getD, List.getD, getElem?_append_left (List.getElem?_eq_some_iff.mp hv).1]
      cases hop : ctx.op r with
      | const => exact hconst hop
      | _ => rfl

lemma Typed.num_extend {ctx' : SymContext} (he : Extends ctx ctx')
    (vals : List APInt) (hr : r < ctx.nodes.length) : ctx'.num vals r = ctx.num vals r := by
  rw [num, num, h.value_extend he vals hr]

lemma Typed.intern {op : SymOp} {w aux : Nat} {ops : List SymRef}
    (hops : ∀ c ∈ ops, c < ctx.nodes.length) (hnode : ctx.NodeOk op w ops aux)
    (hshape : shapeOk op w aux (ops.map ctx.width)) (harms : armsOk op ops) :
      Typed (ctx.intern op w ops aux).2 ∧
      Filed ctx op w ops aux (ctx.intern op w ops aux).1 (ctx.intern op w ops aux).2 := by
  obtain ⟨hok, hf⟩ := h.toOk.intern hops hnode
  have hid := hf.identity
  simp only [SymContext.identity, Prod.mk.injEq] at hid
  have harms' : ∀ r < (ctx.intern op w ops aux).2.nodes.length,
      armsOk ((ctx.intern op w ops aux).2.op r) ((ctx.intern op w ops aux).2.operands r) := by
    intro r hr
    rcases hf.only r hr with hr' | rfl
    · rw [hf.extension.op hr', h.toAcyclic.operands_extend hf.extension hr']
      exact h.arms r hr'
    · rw [hid.1, hid.2.2.1]
      exact harms
  refine ⟨⟨hok, ?_, harms'⟩, hf⟩
  have hold : ∀ c, c < ctx.nodes.length → (ctx.intern op w ops aux).2.width c = ctx.width c :=
    fun c hc => hf.extension.width hc
  intro r hr
  rcases hf.only r hr with hr' | rfl
  · rw [hf.extension.op hr', hf.extension.width hr', hf.extension.aux hr',
      h.toAcyclic.operands_extend hf.extension hr']
    have hmap : (ctx.operands r).map (ctx.intern op w ops aux).2.width =
        (ctx.operands r).map ctx.width := by
      apply map_congr_left
      intro c hc
      exact hold c (h.operand_lt hr' hc)
    rw [hmap]
    exact h.shapes r hr'
  · rw [hid.1, hid.2.1, hid.2.2.1, hid.2.2.2]
    have hmap : ops.map (ctx.intern op w ops aux).2.width = ops.map ctx.width := by
      apply map_congr_left
      intro c hc
      exact hold c (hops c hc)
    rw [hmap]
    exact hshape

lemma Typed.wideSlot (v : APInt) : Typed (ctx.wideSlot v).2 := by
  have hn : (ctx.wideSlot v).2.nodes = ctx.nodes ∧
      (ctx.wideSlot v).2.operandPool = ctx.operandPool := by
    unfold SymContext.wideSlot
    split
    · exact ⟨rfl, rfl⟩
    · exact ⟨rfl, rfl⟩
  refine ⟨(h.toOk.wideSlot v).1, ?_, ?_⟩
  · intro r hr
    have hshape := h.shapes r (hn.1 ▸ hr)
    unfold SymContext.op SymContext.width SymContext.aux SymContext.operands
      SymContext.node at hshape ⊢
    rw [hn.1, hn.2]
    exact hshape
  · intro r hr
    have harms := h.arms r (hn.1 ▸ hr)
    unfold SymContext.op SymContext.operands SymContext.node at harms ⊢
    rw [hn.1, hn.2]
    exact harms

lemma Typed.mkConst {v : APInt} (hv : 0 < v.width) :
    Typed (ctx.mkConst v).2 ∧ (ctx.mkConst v).2.IsLiteral (ctx.mkConst v).1 v := by
  refine ⟨?_, (h.toOk.mkConst hv).2.2⟩
  unfold SymContext.mkConst
  split
  next hw =>
    have hnode : ctx.NodeOk .const v.width [] v.toNat :=
      ⟨hv, fun _ => rfl, fun _ _ => v.toNat_lt, fun _ hlt =>
        absurd hw (Nat.not_le_of_lt hlt), fun ho => (nomatch ho)⟩
    exact (h.intern (forall_mem_nil _) hnode rfl (fun ho => (nomatch ho))).1
  next hw =>
    have hnode : (ctx.wideSlot v).2.NodeOk .const v.width [] (ctx.wideSlot v).1 :=
      ⟨hv, fun _ => rfl, fun _ hle => absurd hle hw,
        fun _ _ => ⟨v, (h.toOk.wideSlot v).2.2, rfl⟩, fun ho => (nomatch ho)⟩
    exact ((h.wideSlot v).intern (forall_mem_nil _) hnode rfl (fun ho => (nomatch ho))).1

end SymContext

end NeverD.Sym
