import NeverD.Sym.Shape

namespace NeverD.Sym
open Lib BitVec
open Words List
open Prod (fst snd)

variable {w : Nat}

def mask64 (w : Nat) (v : BitVec 64) : BitVec 64 := v &&& (BitVec.allOnes 64 >>> (64 - w))

namespace SymContext

def evalU64ViaAP (ctx : SymContext) (r : SymRef) (args : List (BitVec 64)) : BitVec 64 :=
  BitVec.ofNat 64 (ctx.evalNodeAP r
    (List.zipWith (fun c v => APInt.ofNat (ctx.width c) v.toNat) (ctx.operands r) args)).toNat

def foldPair (f : BitVec 64 → BitVec 64 → BitVec 64) (args : List (BitVec 64)) : BitVec 64 :=
  (args.drop 2).foldl f (f (args.getD 0 0) (args.getD 1 0))

/-- The value of a node from the values of its operands, all below their width. -/
def evalNodeU64 (ctx : SymContext) (lookup : Nat → BitVec 64) (r : SymRef)
    (args : List (BitVec 64)) : BitVec 64 :=
  let w := ctx.width r
  let a := args.getD 0 0
  let b := args.getD 1 0
  match ctx.op r with
  | .const => BitVec.ofNat 64 (ctx.aux r)
  | .var => mask64 w (lookup (ctx.aux r))
  | .add => mask64 w (foldPair (· + ·) args)
  | .mul => if 2 < args.length ∧ mask64 w (a * b) = 0 then mask64 w (a * b)
      else mask64 w (foldPair (· * ·) args)
  | .and => foldPair (· &&& ·) args
  | .or => foldPair (· ||| ·) args
  | .xor => foldPair (· ^^^ ·) args
  | .not => mask64 w (~~~a)
  | .shl => mask64 w (if w ≤ b.toNat then 0 else a <<< b.toNat)
  | .lshr => if w ≤ b.toNat then 0 else a >>> b.toNat
  | .ashr =>
    mask64 w <|
      if b.toNat = 0 then a
      else if w ≤ b.toNat then (if a.getLsbD (w - 1) then BitVec.allOnes 64 else 0)
      else if a.getLsbD (w - 1) then (a >>> b.toNat) ||| ~~~((1#64 <<< (w - b.toNat)) - 1#64)
      else a >>> b.toNat
  | .udiv => mask64 w (if b = 0 then BitVec.allOnes 64 else a / b)
  | .urem => if b = 0 then a else a % b
  | .eq => if a = b then 1 else 0
  | .ult => if a < b then 1 else 0
  | .ule => if a ≤ b then 1 else 0
  | .ite => if a ≠ 0 then b else args.getD 2 0
  | .zext => a
  | .extract => mask64 w (a >>> ctx.aux r)
  | _ => mask64 w (ctx.evalU64ViaAP r args)

end SymContext

namespace SymEvalPlan

def fitsU64 (ctx : SymContext) (plan : SymEvalPlan) : Bool :=
  plan.steps.all fun st => ctx.width st.node ≤ 64

def stepU64 (ctx : SymContext) (lookup : Nat → BitVec 64) (scratch : List (BitVec 64))
    (s : PlanStep) : BitVec 64 :=
  ctx.evalNodeU64 lookup s.node (s.args.map fun k => scratch.getD k 0)

def evalU64With (ctx : SymContext) (plan : SymEvalPlan) (lookup : Nat → BitVec 64) : BitVec 64 :=
  (plan.steps.foldl (fun scratch s => scratch ++ [stepU64 ctx lookup scratch s]) []).getD
    plan.rootSlot 0

end SymEvalPlan

section

lemma toNat_mask64 (hw : w ≤ 64) (v : BitVec 64) : (mask64 w v).toNat = v.toNat % 2 ^ w := by
  have hones : (BitVec.allOnes 64 >>> (64 - w)).toNat = 2 ^ w - 1 := by
    rw [BitVec.toNat_ushiftRight, BitVec.toNat_allOnes]
    apply Nat.eq_of_testBit_eq
    intro i
    rw [Nat.testBit_shiftRight, Nat.testBit_two_pow_sub_one, Nat.testBit_two_pow_sub_one,
      decide_eq_decide]
    omega
  rw [mask64, BitVec.toNat_and, hones, Nat.and_two_pow_sub_one_eq_mod]

lemma mod_mod_64 (hw : w ≤ 64) (x : Nat) : x % 2 ^ 64 % 2 ^ w = x % 2 ^ w :=
  Nat.mod_mod_of_dvd x (pow_dvd_pow 2 hw)

lemma toNat_foldl {f : BitVec 64 → BitVec 64 → BitVec 64} {g : Nat → Nat → Nat}
    (h : ∀ a b, (f a b).toNat = g a.toNat b.toNat) (args : List (BitVec 64)) (a : BitVec 64) :
    (args.foldl f a).toNat = (args.map BitVec.toNat).foldl g a.toNat := by
  induction args generalizing a with
  | nil => rfl
  | cons b args ih => rw [foldl_cons, ih, h, map_cons, foldl_cons]

lemma foldPair_eq (f : BitVec 64 → BitVec 64 → BitVec 64) (a b : BitVec 64)
    (args : List (BitVec 64)) :
    SymContext.foldPair f (a :: b :: args) = (b :: args).foldl f a := rfl

variable (hw : w ≤ 64)
include hw

lemma toNat_sum (args : List (BitVec 64)) (a : BitVec 64) :
    (args.foldl (· + ·) a).toNat % 2 ^ w = (a.toNat + (args.map BitVec.toNat).sum) % 2 ^ w := by
  induction args generalizing a with
  | nil => rfl
  | cons b args ih =>
    rw [foldl_cons, ih, BitVec.toNat_add, map_cons, sum_cons, ← add_assoc, ← Nat.mod_add_mod,
      mod_mod_64 hw, Nat.mod_add_mod]

lemma toNat_prod (args : List (BitVec 64)) (a : BitVec 64) :
    (args.foldl (· * ·) a).toNat % 2 ^ w = a.toNat * (args.map BitVec.toNat).prod % 2 ^ w := by
  induction args generalizing a with
  | nil => simp
  | cons b args ih =>
    rw [foldl_cons, ih, BitVec.toNat_mul, map_cons, prod_cons, ← mul_assoc, ← Nat.mod_mul_mod,
      mod_mod_64 hw, Nat.mod_mul_mod]

lemma toNat_mask_not {a : BitVec 64} (ha : a.toNat < 2 ^ w) :
    (mask64 w (~~~a)).toNat = notOf w a.toNat := by
  rw [toNat_mask64 hw]
  apply Nat.eq_of_testBit_eq
  intro i
  rw [Nat.testBit_mod_two_pow, testBit_notOf ha, testBit_toNat, getLsbD_not, testBit_toNat]
  by_cases hi : i < w
  · rw [decide_eq_true (show i < 64 by omega), Bool.true_and]
  · rw [decide_eq_false hi, Bool.false_and, Bool.false_and]

lemma toNat_mask_ashr {n : Nat} (hpos : 0 < w) {a : BitVec 64} (ha : a.toNat < 2 ^ w) :
    (mask64 w (if n = 0 then a else if w ≤ n then (if a.getLsbD (w - 1) then allOnes 64 else 0)
      else if a.getLsbD (w - 1) then (a >>> n) ||| ~~~((1#64 <<< (w - n)) - 1#64)
      else a >>> n)).toNat = ashrOf w a.toNat n := by
  have hlow : ∀ k < 64, ((1#64 <<< k) - 1#64).toNat = 2 ^ k - 1 := by
    intro k hk
    have hpow : (1#64 <<< k).toNat = 2 ^ k := by
      rw [toNat_shiftLeft, toNat_ofNat, Nat.one_mod_two_pow (by decide), Nat.one_shiftLeft]
      exact Nat.mod_eq_of_lt (Nat.pow_lt_pow_right (by decide) hk)
    have hge := Nat.two_pow_pos k
    have hone : (1#64).toNat ≤ (1#64 <<< k).toNat := by
      rw [hpow]
      exact hge
    rw [toNat_sub_of_le hone, hpow]
    rfl
  have hmsb : msb w a.toNat = a.getLsbD (w - 1) := testBit_toNat a
  rw [toNat_mask64 hw]
  apply Nat.eq_of_testBit_eq
  intro i
  by_cases hi : i < w
  · rw [Nat.testBit_mod_two_pow, decide_eq_true hi, Bool.true_and, testBit_ashrOf ha hi, hmsb]
    have hbit : ∀ j, a.toNat.testBit j = a.getLsbD j := fun j => testBit_toNat a
    have hhigh : ∀ j, w ≤ j → a.getLsbD j = false := by
      intro j hj
      rw [← hbit]
      exact Nat.testBit_lt_two_pow (ha.trans_le (Nat.pow_le_pow_right two_pos hj))
    by_cases hn : n = 0
    · rw [if_pos hn, hn, if_pos (by omega), add_zero]
    · rw [if_neg hn]
      by_cases hover : w ≤ n
      · have hno : ¬ i + n < w := by omega
        rw [if_pos hover, if_neg hno]
        cases a.getLsbD (w - 1) with
        | true =>
          rw [if_pos rfl, testBit_toNat, getLsbD_allOnes]
          exact decide_eq_true (by omega)
        | false =>
          rw [if_neg Bool.false_ne_true]
          exact Nat.zero_testBit i
      · rw [if_neg hover, hbit]
        cases hneg : a.getLsbD (w - 1) with
        | true =>
          rw [if_pos rfl, testBit_toNat, getLsbD_or, getLsbD_ushiftRight, getLsbD_not,
            ← testBit_toNat (_ - _), hlow _ (by omega), Nat.testBit_two_pow_sub_one, add_comm n i,
            decide_eq_true (show i < 64 by omega), Bool.true_and]
          by_cases hin : i + n < w
          · rw [if_pos hin, decide_eq_true (by omega), Bool.not_true, Bool.or_false]
          · rw [if_neg hin, decide_eq_false (by omega), Bool.not_false, Bool.or_true]
        | false =>
          rw [if_neg Bool.false_ne_true, testBit_toNat, getLsbD_ushiftRight, add_comm n i]
          by_cases hin : i + n < w
          · rw [if_pos hin]
          · rw [if_neg hin, hhigh _ (by omega)]
  · rw [Nat.testBit_mod_two_pow, decide_eq_false hi, Bool.false_and]
    exact (Nat.testBit_lt_two_pow
      ((ashrOf_lt ha n).trans_le (Nat.pow_le_pow_right two_pos (not_lt.mp hi)))).symm

lemma toNat_mask_shl (a : BitVec 64) (n : Nat) :
    (mask64 w (if w ≤ n then 0 else a <<< n)).toNat = a.toNat * 2 ^ n % 2 ^ w := by
  rw [toNat_mask64 hw]
  by_cases hover : w ≤ n
  · rw [if_pos hover]
    obtain ⟨k, hk⟩ := Nat.exists_eq_add_of_le hover
    rw [hk, pow_add, mul_left_comm, Nat.mul_mod_right]
    exact Nat.zero_mod _
  · rw [if_neg hover, BitVec.toNat_shiftLeft, mod_mod_64 hw, Nat.shiftLeft_eq]

lemma toNat_mask_udiv {a : BitVec 64} (ha : a.toNat < 2 ^ w) (b : BitVec 64) :
    (mask64 w (if b = 0 then BitVec.allOnes 64 else a / b)).toNat = udivOf w a.toNat b.toNat := by
  rw [toNat_mask64 hw, udivOf]
  by_cases hb : b = 0
  · rw [if_pos hb, if_pos (by rw [hb]; rfl), BitVec.toNat_allOnes]
    apply Nat.eq_of_testBit_eq
    intro i
    rw [Nat.testBit_mod_two_pow, testBit_ones, Nat.testBit_two_pow_sub_one, ← Bool.decide_and]
    exact decide_eq_decide.mpr ⟨fun h => h.1, fun h => ⟨h, by omega⟩⟩
  · rw [if_neg hb, if_neg fun h0 : b.toNat = 0 => hb (BitVec.eq_of_toNat_eq h0), BitVec.toNat_udiv]
    exact Nat.mod_eq_of_lt (lt_of_le_of_lt (Nat.div_le_self _ _) ha)

omit hw

lemma word_lshr {a : BitVec 64} (ha : a.toNat < 2 ^ w) (n : Nat) :
    (if w ≤ n then 0 else a >>> n : BitVec 64).toNat = a.toNat / 2 ^ n := by
  by_cases hover : w ≤ n
  · rw [if_pos hover, Nat.div_eq_of_lt (ha.trans_le (Nat.pow_le_pow_right two_pos hover))]
    rfl
  · rw [if_neg hover, BitVec.toNat_ushiftRight, Nat.shiftRight_eq_div_pow]

lemma word_urem (a b : BitVec 64) :
    (if b = 0 then a else a % b : BitVec 64).toNat = a.toNat % b.toNat := by
  by_cases hb : b = 0
  · rw [if_pos hb, hb]
    exact (Nat.mod_zero _).symm
  · rw [if_neg hb, BitVec.toNat_umod]

lemma word_ite (a b c : BitVec 64) :
    (if a ≠ 0 then b else c : BitVec 64).toNat = if a.toNat = 0 then c.toNat else b.toNat := by
  by_cases ha : a = 0
  · rw [if_neg (not_not_intro ha), if_pos (by rw [ha]; rfl)]
  · rw [if_pos ha, if_neg fun h0 : a.toNat = 0 => ha (BitVec.eq_of_toNat_eq h0)]

end

section

variable {ctx : SymContext} {lookup : Nat → BitVec 64} {r : SymRef}

lemma bit_eq (p : Prop) [Decidable p] :
    (if p then (1 : BitVec 64) else 0).toNat = bit (decide p) := by
  by_cases h : p
  · rw [if_pos h, decide_eq_true h]
    rfl
  · rw [if_neg h, decide_eq_false h]
    rfl

section

variable {args : List (BitVec 64)} {xs : List (Nat × Nat)}
    (hargs : args.map BitVec.toNat = xs.map snd)
include hargs

lemma words_one {x : Nat} (h : xs.map fst = [x]) : ∃ a :
    BitVec 64, args = [a] ∧ xs = [(x, a.toNat)] := by
  match xs, args, h, hargs with
  | [(x', m)], [a], h, hargs =>
    simp only [map_cons, map_nil, List.cons.injEq, and_true] at h hargs
    obtain rfl := h
    obtain rfl := hargs
    exact ⟨a, rfl, rfl⟩

lemma words_two {x y : Nat} (h : xs.map fst = [x, y]) :
    ∃ a b : BitVec 64, args = [a, b] ∧ xs = [(x, a.toNat), (y, b.toNat)] := by
  match xs, args, h, hargs with
  | [(x', m), (y', n)], [a, b], h, hargs =>
    simp only [map_cons, map_nil, List.cons.injEq, and_true] at h hargs
    obtain ⟨rfl, rfl⟩ := h
    obtain ⟨rfl, rfl⟩ := hargs
    exact ⟨a, b, rfl, rfl⟩

lemma words_three {x y z : Nat} (h : xs.map fst = [x, y, z]) :
    ∃ a b c : BitVec 64, args = [a, b, c] ∧ xs = [(x, a.toNat), (y, b.toNat), (z, c.toNat)] := by
  match xs, args, h, hargs with
  | [(x', m), (y', n), (z', k)], [a, b, c], h, hargs =>
    simp only [map_cons, map_nil, List.cons.injEq, and_true] at h hargs
    obtain ⟨rfl, rfl, rfl⟩ := h
    obtain ⟨rfl, rfl, rfl⟩ := hargs
    exact ⟨a, b, c, rfl, rfl⟩

lemma words_many {w : Nat} (hlt : ∀ x ∈ xs, x.2 < 2 ^ x.1)
    (hwidths : 2 ≤ (xs.map fst).length ∧ ∀ x ∈ xs.map fst, x = w) :
      ∃ (a b : BitVec 64) (rest : List (BitVec 64)),
      args = a :: b :: rest ∧ xs.map snd = a.toNat :: (b :: rest).map BitVec.toNat ∧
      a.toNat < 2 ^ w := by
  have hlen := hwidths.1
  have hlength := congrArg List.length hargs
  rw [length_map, length_map] at hlength
  rw [length_map, ← hlength] at hlen
  match args, hlen with
  | a :: b :: rest, _ =>
    match xs, hargs with
    | x :: xs, hargs =>
      have hx := hlt x mem_cons_self
      rw [hwidths.2 x.1 (mem_cons_self ..)] at hx
      exact ⟨a, b, rest, rfl, hargs.symm, (List.cons.inj hargs).1 ▸ hx⟩

end

lemma evalNodeU64_num {args : List (BitVec 64)} {xs : List (Nat × Nat)} (hpos : 0 < ctx.width r)
    (hw : ctx.width r ≤ 64) (hshape : shapeOk (ctx.op r) (ctx.width r) (ctx.aux r) (xs.map fst))
    (hlt : ∀ x ∈ xs, x.2 < 2 ^ x.1)
    (hargs : args.map BitVec.toNat = xs.map snd) (hc : ctx.op r ≠ .const) (hv : ctx.op r ≠ .var)
    (hap : (mask64 (ctx.width r) (ctx.evalU64ViaAP r args)).toNat = opNum (ctx.op r) (ctx.width r)
    (ctx.aux r) xs) :
    (ctx.evalNodeU64 lookup r args).toNat = opNum (ctx.op r) (ctx.width r) (ctx.aux r) xs := by
  unfold SymContext.evalNodeU64
  revert hap
  generalize hop : ctx.op r = op at *
  generalize ctx.width r = w at *
  generalize ctx.aux r = aux at *
  cases op with
  | const => exact absurd rfl hc
  | var => exact absurd rfl hv
  | add =>
    intro _
    obtain ⟨a, b, rest, rfl, hsnd, _⟩ := words_many hargs hlt hshape
    show (mask64 w (SymContext.foldPair _ (a :: b :: rest))).toNat = addAll w (xs.map snd)
    rw [toNat_mask64 hw, foldPair_eq, toNat_sum hw, hsnd]
    rfl
  | mul =>
    intro _
    obtain ⟨a, b, rest, rfl, hsnd, _⟩ := words_many hargs hlt hshape
    show (if _ then _ else _ : BitVec 64).toNat = mulAll w (xs.map snd)
    have hfull : (mask64 w (SymContext.foldPair (· * ·) (a :: b :: rest))).toNat =
        mulAll w (xs.map snd) := by
      rw [toNat_mask64 hw, foldPair_eq, toNat_prod hw, hsnd]
      rfl
    split
    next hzero =>
      rw [hzero.2, ← hfull, toNat_mask64 hw]
      -- A first pair that vanishes makes the product vanish.
      have hpair := congrArg BitVec.toNat hzero.2
      rw [toNat_mask64 hw] at hpair
      rw [foldPair_eq, foldl_cons, toNat_prod hw, ← Nat.mod_mul_mod]
      have hab : (a * b).toNat % 2 ^ w = 0 := hpair
      rw [hab, Nat.zero_mul, Nat.zero_mod]
      rfl
    · exact hfull
  | and =>
    intro _
    obtain ⟨a, b, rest, rfl, hsnd, ha⟩ := words_many hargs hlt hshape
    show (SymContext.foldPair _ (a :: b :: rest)).toNat = andAll w (xs.map snd)
    rw [foldPair_eq, toNat_foldl fun _ _ => BitVec.toNat_and .., foldl_and w _ ha, hsnd]
  | or =>
    intro _
    obtain ⟨a, b, rest, rfl, hsnd, ha⟩ := words_many hargs hlt hshape
    show (SymContext.foldPair _ (a :: b :: rest)).toNat = orAll (xs.map snd)
    rw [foldPair_eq, toNat_foldl fun _ _ => BitVec.toNat_or .., foldl_or, hsnd]
  | xor =>
    intro _
    obtain ⟨a, b, rest, rfl, hsnd, ha⟩ := words_many hargs hlt hshape
    show (SymContext.foldPair _ (a :: b :: rest)).toNat = xorAll (xs.map snd)
    rw [foldPair_eq, toNat_foldl fun _ _ => BitVec.toNat_xor .., foldl_xor, hsnd]
  | not =>
    intro _
    obtain ⟨a, rfl, rfl⟩ := words_one hargs hshape
    exact toNat_mask_not hw (hlt _ mem_cons_self)
  | shl =>
    intro _
    obtain ⟨y, hshape⟩ := hshape
    obtain ⟨a, b, rfl, rfl⟩ := words_two hargs hshape
    exact toNat_mask_shl hw a b.toNat
  | lshr =>
    intro _
    obtain ⟨y, hshape⟩ := hshape
    obtain ⟨a, b, rfl, rfl⟩ := words_two hargs hshape
    exact word_lshr (hlt _ mem_cons_self) b.toNat
  | ashr =>
    intro _
    obtain ⟨y, hshape⟩ := hshape
    obtain ⟨a, b, rfl, rfl⟩ := words_two hargs hshape
    exact toNat_mask_ashr hw hpos (hlt _ mem_cons_self)
  | udiv =>
    intro _
    obtain ⟨a, b, rfl, rfl⟩ := words_two hargs hshape
    exact toNat_mask_udiv hw (hlt _ mem_cons_self) b
  | urem =>
    intro _
    obtain ⟨a, b, rfl, rfl⟩ := words_two hargs hshape
    exact word_urem a b
  | eq =>
    intro _
    obtain ⟨_, y, hshape⟩ := hshape
    obtain ⟨a, b, rfl, rfl⟩ := words_two hargs hshape
    show (if a = b then (1 : BitVec 64) else 0).toNat = bit (decide (a.toNat = b.toNat))
    rw [bit_eq]
    congr 1
    exact decide_eq_decide.mpr BitVec.toNat_inj.symm
  | ult =>
    intro _
    obtain ⟨_, y, hshape⟩ := hshape
    obtain ⟨a, b, rfl, rfl⟩ := words_two hargs hshape
    exact bit_eq (a < b)
  | ule =>
    intro _
    obtain ⟨_, y, hshape⟩ := hshape
    obtain ⟨a, b, rfl, rfl⟩ := words_two hargs hshape
    exact bit_eq (a ≤ b)
  | ite =>
    intro _
    obtain ⟨a, b, c, rfl, rfl⟩ := words_three hargs hshape
    exact word_ite a b c
  | zext =>
    intro _
    obtain ⟨y, hshape, _⟩ := hshape
    obtain ⟨a, rfl, rfl⟩ := words_one hargs hshape
    rfl
  | extract =>
    intro _
    obtain ⟨y, hshape, _⟩ := hshape
    obtain ⟨a, rfl, rfl⟩ := words_one hargs hshape
    show (mask64 w (a >>> aux)).toNat = a.toNat / 2 ^ aux % 2 ^ w
    rw [toNat_mask64 hw, BitVec.toNat_ushiftRight, Nat.shiftRight_eq_div_pow]
  | sdiv => exact id
  | srem => exact id
  | rol => exact id
  | ror => exact id
  | concat => exact id
  | sext => exact id
  | slt => exact id
  | sle => exact id

lemma zip_operands {ops : List SymRef} {args : List (BitVec 64)} {f : SymRef → Nat}
    (hargs : args.map BitVec.toNat = ops.map f) (hlt : ∀ c ∈ ops, f c < 2 ^ ctx.width c) :
    (List.zipWith (fun c v => APInt.ofNat (ctx.width c) (BitVec.toNat v)) ops args).map pair =
      ops.map fun c => (ctx.width c, f c) := by
  induction ops generalizing args with
  | nil => rfl
  | cons c ops ih =>
    match args, hargs with
    | v :: args, hargs =>
      rw [map_cons, map_cons, List.cons.injEq] at hargs
      rw [zipWith_cons_cons, map_cons, map_cons,
        ih hargs.2 fun d hd => hlt d (mem_cons_of_mem c hd), pair, hargs.1]
      have hc := hlt c mem_cons_self
      show (ctx.width c, (BitVec.ofNat (ctx.width c) (f c)).toNat) :: _ = _
      rw [BitVec.toNat_ofNat, Nat.mod_eq_of_lt hc]

variable [BlockHash]

def SymContext.word64 (ctx : SymContext) (vals : List APInt) (r : SymRef) : BitVec 64 :=
  BitVec.ofNat 64 (ctx.num vals r)

lemma toNat_word64 (h : ctx.Typed) (vals : List APInt) (hr : r < ctx.nodes.length)
    (hw : ctx.width r ≤ 64) : (ctx.word64 vals r).toNat = ctx.num vals r := by
  rw [SymContext.word64, toNat_ofNat]
  exact Nat.mod_eq_of_lt ((h.num_lt vals hr).trans_le (Nat.pow_le_pow_right two_pos hw))

lemma evalNodeU64_word (h : ctx.Typed) (vals : List APInt) (hr : r < ctx.nodes.length)
    (hw : ctx.width r ≤ 64)
    (hops : ∀ c ∈ ctx.operands r, ctx.width c ≤ 64) (hvar : ctx.op r = .var →
      (mask64 (ctx.width r) (lookup (ctx.aux r))).toNat = (SymContext.varValue vals (ctx.aux r)
        (ctx.width r)).toNat) :
    ctx.evalNodeU64 lookup r ((ctx.operands r).map (ctx.word64 vals)) = ctx.word64 vals r := by
  apply BitVec.eq_of_toNat_eq
  rw [toNat_word64 h vals hr hw]
  have hnode := h.nodes r hr
  have hmap : ((ctx.operands r).map (ctx.word64 vals)).map BitVec.toNat =
      (ctx.operands r).map (ctx.num vals) := by
    rw [map_map]
    apply map_congr_left
    intro c hc
    exact toNat_word64 h vals (h.operand_lt hr hc) (hops c hc)
  have hlt : ∀ c ∈ ctx.operands r, ctx.num vals c < 2 ^ ctx.width c :=
    fun c hc => h.num_lt vals (h.operand_lt hr hc)
  by_cases hc : ctx.op r = .const
  · rw [h.num_const vals hr hc, SymContext.evalNodeU64, hc, SymContext.constNum,
      SymContext.constValue, if_pos hw]
    show (BitVec.ofNat 64 (ctx.aux r)).toNat = (BitVec.ofNat (ctx.width r) (ctx.aux r)).toNat
    have haux := hnode.narrow hc hw
    rw [BitVec.toNat_ofNat, BitVec.toNat_ofNat, Nat.mod_eq_of_lt haux,
      Nat.mod_eq_of_lt (haux.trans_le (Nat.pow_le_pow_right two_pos hw))]
  by_cases hv : ctx.op r = .var
  · rw [SymContext.evalNodeU64, hv]
    rw [hvar hv, SymContext.num, h.toAcyclic.value_eq vals hr, SymContext.nodeValue, if_pos hv]
  have hwidths : ((ctx.operands r).map fun c => (ctx.width c, ctx.num vals c)).map fst =
      (ctx.operands r).map ctx.width := by
    rw [map_map]
    rfl
  have hnums : ((ctx.operands r).map fun c => (ctx.width c, ctx.num vals c)).map snd =
      (ctx.operands r).map (ctx.num vals) := by
    rw [map_map]
    rfl
  rw [h.num_eq vals hr hc hv]
  refine evalNodeU64_num hnode.positive hw (hwidths ▸ h.shapes r hr) ?_ (hmap.trans hnums.symm)
    hc hv ?_
  · intro x hx
    obtain ⟨c, hcm, rfl⟩ := mem_map.mp hx
    exact hlt c hcm
  · have hap := zip_operands hmap hlt
    have hshape : shapeOk (ctx.op r) (ctx.width r) (ctx.aux r)
        ((List.zipWith (fun c v => .ofNat (ctx.width c) (BitVec.toNat v)) (ctx.operands r)
          ((ctx.operands r).map (ctx.word64 vals))).map APInt.width) := by
      have hfst := congrArg (List.map fst) hap
      rw [hwidths, map_map] at hfst
      exact (show _ = (ctx.operands r).map ctx.width from hfst) ▸ h.shapes r hr
    obtain ⟨hwidth, hvalue⟩ := evalNodeAP_num hshape hc hv
    have hless := (ctx.evalNodeAP r (List.zipWith (fun c v => .ofNat (ctx.width c) (BitVec.toNat v))
      (ctx.operands r) ((ctx.operands r).map (ctx.word64 vals)))).toNat_lt
    rw [hwidth] at hless
    rw [toNat_mask64 hw, SymContext.evalU64ViaAP, BitVec.toNat_ofNat, mod_mod_64 hw,
      Nat.mod_eq_of_lt hless, hvalue, hap]

end

variable [BlockHash] {ctx : SymContext} {root : SymRef} {st : PlanState}

omit [BlockHash] in
lemma SymEvalPlan.Lowered.fits_iff (h : Lowered ctx root st) :
    fitsU64 ctx (build ctx root) = true ↔ ∀ r ∈ st.postOrder, ctx.width r ≤ 64 := by
  rw [fitsU64, h.steps, all_map, all_eq_true]
  exact forall₂_congr fun r _ => decide_eq_true_iff

lemma SymEvalPlan.Lowered.step_word (h : Lowered ctx root st) (ht : ctx.Typed) (vals : List APInt)
    {lookup : Nat → BitVec 64} (hfits : fitsU64 ctx (build ctx root) = true)
    (hlookup : ∀ r ∈ st.postOrder, ctx.op r = .var →
      (mask64 (ctx.width r) (lookup (ctx.aux r))).toNat = (SymContext.varValue vals (ctx.aux r)
        (ctx.width r)).toNat)
    (r : SymRef) (hr : r ∈ st.postOrder) (scratch : List (BitVec 64)) (args : List Nat)
    (hargs : args.map (fun k => scratch.getD k 0) = (ctx.operands r).map (ctx.word64 vals)) :
    stepU64 ctx lookup scratch ⟨r, args⟩ = ctx.word64 vals r := by
  have hnarrow := h.fits_iff.mp hfits
  rw [stepU64, hargs]
  have hops : ∀ c ∈ ctx.operands r, c ∈ st.postOrder := by
    intro c hc
    obtain ⟨k, hk⟩ := mem_iff_getElem?.mp hr
    obtain ⟨j, _, hj⟩ := h.visiting.closed k r hk c hc
    exact mem_of_getElem? hj
  exact evalNodeU64_word ht vals (h.visiting.finished r hr) (hnarrow r hr)
    (fun c hc => hnarrow c (hops c hc)) (hlookup r hr)

/-- A plan of narrow nodes gives the word of its root, if the words of the inputs are their
values. -/
theorem SymEvalPlan.Lowered.evalU64With_eq (h : Lowered ctx root st) (ht : ctx.Typed)
    (vals : List APInt) {lookup : Nat → BitVec 64} (hfits : fitsU64 ctx (build ctx root) = true)
    (hlookup : ∀ r ∈ st.postOrder, ctx.op r = .var →
      (mask64 (ctx.width r) (lookup (ctx.aux r))).toNat = (SymContext.varValue vals (ctx.aux r)
        (ctx.width r)).toNat) :
    evalU64With ctx (build ctx root) lookup = ctx.word64 vals root :=
  h.sweep_root (stepU64 ctx lookup) (h.step_word ht vals hfits hlookup)

end NeverD.Sym
