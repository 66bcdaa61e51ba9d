import NeverD.Lib.Buckets
import NeverD.Lib.Worklist
import NeverD.Sym.Canonical
import Mathlib.Data.List.Sort
import Mathlib.Tactic.Common

namespace NeverD.Bv
open Lib List NeverD.Sym

def digit (shift : Nat) (index : UInt32) : Nat := (index.toNat >>> shift) &&& (1 <<< 11 - 1)

/-- The passes while the largest index has bits left. -/
def sortPasses (maximum : UInt32) : Nat → Nat → List UInt32 → List UInt32 →
    List UInt32 × List UInt32
  | 0, _, order, work => (order, work)
  | passes + 1, shift, order, work =>
    if maximum.toNat >>> shift = 0 then (order, work)
    else sortPasses maximum passes (shift + 11) (Buckets.pass (1 <<< 11) (digit shift) order work)
      order

/-- A shift below 32 leaves at most three passes. -/
def sortLargeNodeOrder (order work : List UInt32) : List UInt32 × List UInt32 :=
  sortPasses (order.foldl (fun m x => if m < x then x else m) 0) 3 0 order
    ((work ++ replicate order.length 0).take order.length)

def SortedBelow (shift : Nat) (order : List UInt32) : Prop :=
  order.Pairwise fun x y => x.toNat % 2 ^ shift ≤ y.toNat % 2 ^ shift

variable {order work : List UInt32} {shift : Nat}

lemma digit_eq (shift : Nat) (index : UInt32) :
    digit shift index = index.toNat / 2 ^ shift % 2 ^ 11 := by
  rw [digit, Nat.shiftRight_eq_div_pow]
  exact Nat.and_two_pow_sub_one_eq_mod _ 11

lemma digit_lt (shift : Nat) (index : UInt32) : digit shift index < 1 <<< 11 := by
  rw [digit_eq]
  exact Nat.mod_lt _ (by decide)

theorem pass_sortedBelow (hwork : work.length = order.length) (h : SortedBelow shift order) :
    SortedBelow (shift + 11) (Buckets.pass (1 <<< 11) (digit shift) order work) := by
  have hsplit : ∀ x : UInt32, x.toNat % 2 ^ (shift + 11) = x.toNat % 2 ^ shift + 2 ^ shift *
      digit shift x := by
    intro x
    rw [digit_eq, Nat.pow_add, Nat.mod_mul]
  refine (Buckets.pass_pairwise (digit_lt shift) hwork h).imp fun {x y} hxy => ?_
  rw [hsplit, hsplit]
  rcases hxy with hlt | ⟨heq, hle⟩
  · have hlow := Nat.mod_lt x.toNat (Nat.two_pow_pos shift)
    have hmul := Nat.mul_le_mul_left (2 ^ shift) (show digit shift x + 1 ≤ digit shift y from hlt)
    rw [Nat.mul_succ] at hmul
    omega
  · rw [heq]
    exact Nat.add_le_add_right hle _

lemma SortedBelow.pairwise_le (h : SortedBelow shift order)
    (hlt : ∀ x ∈ order, x.toNat < 2 ^ shift) : order.Pairwise (· ≤ ·) := by
  refine h.imp_of_mem fun hx hy hxy => ?_
  rwa [Nat.mod_eq_of_lt (hlt _ hx), Nat.mod_eq_of_lt (hlt _ hy)] at hxy

theorem sortPasses_sorts {maximum : UInt32} (passes : Nat) (hwork : work.length = order.length)
    (h : SortedBelow shift order) (hmax : ∀ x ∈ order, x ≤ maximum)
    (hall : 32 ≤ shift + 11 * passes) :
    (sortPasses maximum passes shift order work).1.Pairwise (· ≤ ·) ∧
    (sortPasses maximum passes shift order work).1.Perm order := by
  induction passes generalizing shift order work with
  | zero =>
    refine ⟨h.pairwise_le fun x _ => ?_, .refl _⟩
    exact Nat.lt_of_lt_of_le x.toNat_lt (Nat.pow_le_pow_right Nat.two_pos hall)
  | succ passes ih =>
    unfold sortPasses
    split
    next hzero =>
      refine ⟨h.pairwise_le fun x hx => ?_, .refl _⟩
      rw [Nat.shiftRight_eq_div_pow] at hzero
      exact Nat.lt_of_le_of_lt (UInt32.le_iff_toNat_le.mp (hmax x hx))
        ((Nat.div_eq_zero_iff_lt (Nat.two_pow_pos _)).mp hzero)
    · have hperm := Buckets.pass_perm (digit_lt shift) hwork
      obtain ⟨hsorted, hsame⟩ := ih hperm.length_eq.symm (pass_sortedBelow hwork h)
        (fun x hx => hmax x (hperm.mem_iff.mp hx)) (by omega)
      exact ⟨hsorted, hsame.trans hperm⟩

/-- The radix passes order the nodes, lose and repeat none, and put operands before their users. -/
theorem sortLargeNodeOrder_sorts (order work : List UInt32) :
    (sortLargeNodeOrder order work).1.Pairwise (· ≤ ·) ∧
    (sortLargeNodeOrder order work).1.Perm order ∧
    ∀ (i j : Nat) (operand user : UInt32), (sortLargeNodeOrder order work).1[i]? = some operand →
      (sortLargeNodeOrder order work).1[j]? = some user → operand < user → i < j := by
  have hmax : ∀ (xs : List UInt32) (m : UInt32),
      m ≤ xs.foldl (fun m x => if m < x then x else m) m ∧
      ∀ x ∈ xs, x ≤ xs.foldl (fun m x => if m < x then x else m) m := by
    intro xs
    induction xs with
    | nil => simp
    | cons y ys ih =>
      intro m
      obtain ⟨hm, hys⟩ := ih (if m < y then y else m)
      have hboth : m ≤ (if m < y then y else m) ∧ y ≤ (if m < y then y else m) := by
        split
        next hlt => exact ⟨UInt32.le_of_lt hlt, UInt32.le_refl y⟩
        next hge => exact ⟨UInt32.le_refl m, UInt32.not_lt.mp hge⟩
      refine ⟨UInt32.le_trans hboth.1 hm, fun x hx => ?_⟩
      rcases mem_cons.mp hx with rfl | hx
      · exact UInt32.le_trans hboth.2 hm
      · exact hys x hx
  have hstart : SortedBelow 0 order := pairwise_of_forall fun x y => by simp [Nat.mod_one]
  obtain ⟨hsorted, hperm⟩ : (sortLargeNodeOrder order work).1.Pairwise (· ≤ ·) ∧ _ :=
    sortPasses_sorts 3 (by simp) hstart (hmax order 0).2 (by decide)
  refine ⟨hsorted, hperm, ?_⟩
  intro i j operand user hi hj hlt
  obtain ⟨hi', rfl⟩ := List.getElem?_eq_some_iff.mp hi
  obtain ⟨hj', rfl⟩ := List.getElem?_eq_some_iff.mp hj
  by_contra hle
  rcases Nat.lt_or_eq_of_le (Nat.not_lt.mp hle) with h | rfl
  · exact UInt32.not_lt.mpr (pairwise_iff_getElem.mp hsorted j i hj' hi' h) hlt
  · exact UInt32.lt_irrefl _ hlt

def operandIndices (ctx : SymContext) (index : UInt32) : List UInt32 :=
  (ctx.operands index.toNat).map UInt32.ofNat

/-- The order in which `encodeReachable` encodes nodes. -/
def reachableOrder (ctx : SymContext) (isEncoded : UInt32 → Bool) (root : UInt32) :
    Option (List UInt32) :=
  let next := operandIndices ctx
  let bound := 1 + Worklist.pending next ((List.range ctx.nodes.length).map UInt32.ofNat) []
  let order := Worklist.gather next isEncoded bound [root] [] []
  if ctx.nodes.length ≤ root.toNat then none
  else if order.length < 1024 then some (order.insertionSort (· ≤ ·))
  else some (sortLargeNodeOrder order []).1

/-- Reached from the root without going on from an encoded node. -/
def Reached (ctx : SymContext) (isEncoded : UInt32 → Bool) (root : UInt32) : UInt32 → Prop :=
  Relation.ReflTransGen (fun a b => isEncoded a = false ∧ b ∈ operandIndices ctx a) root

lemma le_maximum (xs : List UInt32) (m x : UInt32) (hx : x ∈ xs ∨ x ≤ m) :
    x ≤ xs.foldl (fun m x => if m < x then x else m) m := by
  induction xs generalizing m with
  | nil => exact hx.resolve_left not_mem_nil
  | cons y ys ih =>
    apply ih
    grind

/-- Either sort orders exactly the nodes that are to be encoded, each once, so that every operand of
a node is encoded when its turn comes. -/
theorem reachableOrder_exact [BlockHash] {ctx : SymContext} (hc : SymContext.Creations {} ctx)
    {isEncoded : UInt32 → Bool} {root : UInt32}
    (h : reachableOrder ctx isEncoded root = some order) :
    order.Pairwise (· < ·) ∧ (∀ i, i ∈ order ↔ Reached ctx isEncoded root i ∧ isEncoded i = false) ∧
      ∀ done i rest, order = done ++ i :: rest → ∀ b ∈ operandIndices ctx i, isEncoded b = true ∨
        b ∈ done := by
  have hsmall : ∀ i, ∀ b ∈ operandIndices ctx i, i.toNat < ctx.nodes.length := by
    intro i b hb
    by_contra hi
    simp [operandIndices, SymContext.operands, SymContext.node,
      getElem?_eq_none (not_lt.mp hi)] at hb
  have hnodes : ∀ i ∉ (List.range ctx.nodes.length).map UInt32.ofNat,
      operandIndices ctx i = [] := by
    intro i hi
    refine eq_nil_iff_forall_not_mem.mpr fun b hb => hi ?_
    exact mem_map.mpr ⟨i.toNat, mem_range.mpr (hsmall i b hb), UInt32.ofNat_toNat⟩
  have hstart : Worklist.Gathering (operandIndices ctx) isEncoded (Reached ctx isEncoded root)
      [root] [] [] :=
    ⟨nodup_nil, by simp, by simp, by simp [Reached, Relation.ReflTransGen.refl]⟩
  obtain ⟨all, ⟨hnodup, htaken, hcovered, hsound⟩, hsub⟩ :=
    hstart.finish hnodes (fun a ha hgo b hb => ha.tail ⟨hgo, hb⟩) le_rfl
  unfold reachableOrder at h
  dsimp only at h
  generalize Worklist.gather (operandIndices ctx) isEncoded _ [root] [] [] = found at *
  obtain ⟨hsorted, hperm⟩ : order.Pairwise (· ≤ ·) ∧ order.Perm found := by
    split at h
    · cases h
    split at h
    · obtain rfl := Option.some.inj h
      exact ⟨pairwise_insertionSort (· ≤ ·) found, perm_insertionSort ..⟩
    · obtain rfl := Option.some.inj h
      exact sortPasses_sorts 3 (by simp) (pairwise_of_forall fun x y => by simp [Nat.mod_one])
        (fun x hx => le_maximum found 0 x (.inl hx)) (by decide)
  have hstrict : order.Pairwise (· < ·) :=
    hsorted.imp₂ (fun a b hle hne => UInt32.lt_of_le_of_ne hle hne) (hperm.nodup_iff.mpr hnodup)
  have hmem : ∀ i, i ∈ order ↔ i ∈ all ∧ isEncoded i = false :=
    fun i => hperm.mem_iff.trans (htaken i)
  have hreach : ∀ i, Reached ctx isEncoded root i → i ∈ all := by
    intro i hi
    induction hi with
    | refl => exact hsub root (.inr mem_cons_self)
    | tail _ hb ih =>
      exact (hcovered _ ((htaken _).mpr ⟨ih, hb.1⟩) _ hb.2).resolve_right not_mem_nil
  refine ⟨hstrict, fun i => ⟨fun hi => ?_, fun hi => (hmem i).mpr ⟨hreach i hi.1, hi.2⟩⟩, ?_⟩
  · exact ⟨hsound i (.inl (hperm.mem_iff.mp hi)), ((hmem i).mp hi).2⟩
  · intro done i rest hsplit b hb
    by_cases hgo : isEncoded b = true
    · exact .inl hgo
    have hi : i ∈ order := by simp [hsplit]
    have hin : b ∈ order := by
      refine (hmem b).mpr ⟨(hcovered i (hperm.mem_iff.mp hi) b hb).resolve_right not_mem_nil, ?_⟩
      exact Bool.eq_false_iff.mpr hgo
    have hbelow : b < i := by
      obtain ⟨c, hcm, rfl⟩ := mem_map.mp hb
      have hlt := (hc.ok SymContext.init_ok).1.below i.toNat (hsmall i _ hb) c hcm
      rw [UInt32.lt_iff_toNat_lt, UInt32.toNat_ofNat']
      exact (Nat.mod_le ..).trans_lt hlt
    -- What stands behind the node is larger than it is.
    rw [hsplit, pairwise_append, pairwise_cons] at hstrict
    rw [hsplit, mem_append, mem_cons] at hin
    rcases hin with hin | rfl | hin
    · exact .inr hin
    · exact absurd hbelow (UInt32.lt_irrefl _)
    · exact absurd (UInt32.lt_trans (hstrict.2.1.1 _ hin) hbelow) (UInt32.lt_irrefl _)

def sumNetwork [BlockHash] : SymContext :=
  let inputs := (SymContext.mkVar (SymContext.mkVar {} "x" 8).2 "y" 8).2
  let complement := (inputs.intern .not 8 [0] 0).2
  ((complement.intern .add 8 [1, 2] 0).2.intern .or 8 [2, 3] 0).2

/-- Where `x` is encoded, the other operands come before what reads them. -/
theorem reachableOrder_exact_sum : letI : BlockHash := ⟨fun _ => 0⟩
    reachableOrder sumNetwork (· == 0) 4 = some [1, 2, 3, 4] ∧
      ∀ done i rest, [1, 2, 3, 4] = done ++ i :: rest → ∀ b ∈ operandIndices sumNetwork i,
      (b == 0) = true ∨ b ∈ done := by
  let _ : BlockHash := ⟨fun _ => 0⟩
  let inputs := (SymContext.mkVar (SymContext.mkVar {} "x" 8).2 "y" 8).2
  let complement := (inputs.intern .not 8 [0] 0).2
  let sum := (complement.intern .add 8 [1, 2] 0).2
  have hcreated : SymContext.Creations {} sumNetwork := by
    refine Relation.ReflTransGen.tail (b := sum)
      (.tail (b := complement) (.tail (b := inputs) ?_ ?_) ?_) ?_
    · exact (Relation.ReflTransGen.single (.mkVar {} "x" 8 (by decide))).tail
        (.mkVar _ "y" 8 (by decide))
    · exact .operator inputs .not 8 [0] 0 (by decide) (by decide) (by decide) (by decide)
    · exact .operator complement .add 8 [1, 2] 0 (by decide) (by decide) (by decide) (by decide)
    · exact .operator sum .or 8 [2, 3] 0 (by decide) (by decide) (by decide) (by decide +kernel)
  have horder : reachableOrder sumNetwork (· == 0) 4 = some [1, 2, 3, 4] := by decide +kernel
  exact ⟨horder, (reachableOrder_exact hcreated horder).2.2⟩

end NeverD.Bv
