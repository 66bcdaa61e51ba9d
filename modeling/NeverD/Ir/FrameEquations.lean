import Mathlib.Data.BitVec
import Mathlib.Data.Int.ModEq
import NeverD.Lib.Flat

namespace NeverD.Ir
open List Nat BitVec

open NeverD.Lib

variable {a n : Nat}

abbrev Address := BitVec 64

/-- Arithmetic on offsets that never wraps. -/
def checkedAffineOffset (base delta : Int) (subtract : Bool) : Option Int :=
  let min : Int := -2 ^ 63
  let max : Int := 2 ^ 63 - 1
  if subtract = false then
    if (0 < delta ∧ max - delta < base) ∨ (delta < 0 ∧ base < min - delta) then none
      else some (base + delta)
  else if (0 < delta ∧ base < min + delta) ∨ (delta < 0 ∧ max + delta < base) then none
  else some (base - delta)

/-- What an edge does to its source: an offset, or an alignment when there is one. -/
structure FrameStep where
  delta : Int := 0
  subtract : Bool := false
  alignment : Nat := 0
deriving DecidableEq

def MaxAlignment : Nat := 2 ^ 16

def IsAlignment (a : Nat) : Prop := ∃ k, 1 ≤ k ∧ k ≤ 16 ∧ a = 2 ^ k

lemma IsAlignment.dvd (h : IsAlignment a) : a ∣ 2 ^ 64 := by
  obtain ⟨k, _, hk, rfl⟩ := h
  exact pow_dvd_pow 2 (by omega)

lemma IsAlignment.dvd_of_le {b : Nat} (ha : IsAlignment a) (hb : IsAlignment b) (h : a ≤ b) :
    a ∣ b := by
  obtain ⟨k, _, _, rfl⟩ := ha
  obtain ⟨l, _, _, rfl⟩ := hb
  exact pow_dvd_pow 2 ((Nat.pow_le_pow_iff_right Nat.one_lt_two).mp h)

lemma IsAlignment.pos (h : IsAlignment a) : 0 < a := by
  obtain ⟨k, _, _, rfl⟩ := h
  exact Nat.two_pow_pos k

def FrameStep.Legal (e : FrameStep) : Prop := e.alignment = 0 ∨ IsAlignment e.alignment

/-- What the operations take and return: nothing known, a coordinate, or a node. -/
inductive FrameInput (α : Type)
  | invalid
  | value (c : α)
  | reference (node : Nat)
deriving DecidableEq

namespace Frame

inductive Anchor
  | sp
  | aligned (base : Anchor) (offset : Int) (alignment : Nat)
deriving DecidableEq

abbrev Coordinate := Anchor × Int

abbrev Input := FrameInput Coordinate

def Anchor.alignment : Anchor → Nat
  | sp => 0
  | aligned _ _ alignment => alignment

def Anchor.Legal : Anchor → Prop
  | sp => True
  | aligned base _ alignment => base.Legal ∧ IsAlignment alignment

def alignOffset (alignment : Nat) (offset : Int) : Int := offset - offset % alignment

def transfer (e : FrameStep) (c : Coordinate) : Option Coordinate :=
  if e.alignment = 0 then (checkedAffineOffset c.2 e.delta e.subtract).map fun offset =>
    (c.1, offset)
  else if e.alignment ≤ c.1.alignment then some (c.1, alignOffset e.alignment c.2)
  else some (.aligned c.1 c.2 e.alignment, 0)

structure Equation where
  target : Nat
  inputs : List Input
  step : FrameStep

def Equation.Legal (eq : Equation) : Prop := eq.step.Legal ∧ ∀ c, .value c ∈ eq.inputs → c.1.Legal

def alignDown (alignment : Nat) (x : Address) : Address := x - BitVec.ofNat 64 (x.toNat % alignment)

def move (e : FrameStep) (x : Address) : Address :=
  if e.alignment = 0 then if e.subtract then x - BitVec.ofInt 64 e.delta
    else x + BitVec.ofInt 64 e.delta
  else alignDown e.alignment x

def Anchor.address (sp : Address) : Anchor → Address
  | .sp => sp
  | .aligned a offset alignment => alignDown alignment (a.address sp + BitVec.ofInt 64 offset)

def address (sp : Address) (c : Coordinate) : Address := c.1.address sp + BitVec.ofInt 64 c.2

/-- The addresses that a node takes from a stack pointer: each time one that its input took before,
after the step. Without an equation, or with an unknown input, it takes any. -/
inductive Takes (equations : List Equation) (sp : Address) : Nat → Address → Prop
  | constant {eq : Equation} {c : Coordinate} : eq ∈ equations → .value c ∈ eq.inputs →
      Takes equations sp eq.target (move eq.step (address sp c))
  | unknown {eq : Equation} {x : Address} : eq ∈ equations → .invalid ∈ eq.inputs →
      Takes equations sp eq.target x
  | reference {eq : Equation} {m : Nat} {x : Address} : eq ∈ equations → .reference m ∈ eq.inputs →
      Takes equations sp m x → Takes equations sp eq.target (move eq.step x)
  | undefined {n : Nat} {x : Address} : (∀ eq ∈ equations, eq.target ≠ n) → Takes equations sp n x

def InputTakes (equations : List Equation) (sp : Address) : Input → Address → Prop
  | .invalid, _ => True
  | .value c, x => x = address sp c
  | .reference n, x => Takes equations sp n x

def constantOf (e : FrameStep) : Input → Option (Flat Coordinate)
  | .invalid => some .invalid
  | .value c => some (Flat.pass (transfer e) (.value c))
  | .reference _ => none

def Equation.constants (eq : Equation) : List (Flat Coordinate) :=
  eq.inputs.filterMap (constantOf eq.step)

def initial (equations : List Equation) (n : Nat) : Flat Coordinate :=
  ((equations.filter (·.target = n)).flatMap (·.constants)).foldl Flat.meet .unknown

def system (equations : List Equation) : Flat.System Nat Coordinate where
  initial := initial equations
  edge m n f := ∃ eq ∈ equations, eq.target = n ∧ .reference m ∈ eq.inputs ∧ f = transfer eq.step

def Determined (equations : List Equation) (n : Nat) (c : Coordinate) : Prop :=
  (system equations).Val n c ∧ ¬(system equations).Bad n

section

lemma toNat_add_mod (h : a ∣ 2 ^ 64) (x y : Address) :
    (x + y).toNat % a = (x.toNat % a + y.toNat % a) % a := by
  rw [BitVec.toNat_add, mod_mod_of_dvd _ h, add_mod]

lemma toNat_ofInt_mod (h : a ∣ 2 ^ 64) (o : Int) :
    (((BitVec.ofInt 64 o).toNat % a : Nat) : Int) = o % a := by
  rw [toNat_ofInt]
  have hpos : 0 ≤ o % ((2 ^ 64 : Nat) : Int) := Int.emod_nonneg _ (by decide)
  rw [Int.natCast_emod, Int.toNat_of_nonneg hpos]
  exact Int.emod_emod_of_dvd _ (Int.natCast_dvd_natCast.mpr h)

lemma ofInt_sub (o d : Int) : BitVec.ofInt 64 (o - d) = BitVec.ofInt 64 o - BitVec.ofInt 64 d := by
  rw [Int.sub_eq_add_neg, ofInt_add, ofInt_neg, BitVec.sub_eq_add_neg]

lemma alignDown_eq (a : Nat) (x : Address) :
    alignDown a x = x + BitVec.ofInt 64 (-((x.toNat % a : Nat) : Int)) := by
  unfold alignDown
  rw [ofInt_neg, ofInt_natCast, BitVec.sub_eq_add_neg]

theorem alignDown_add (h : a ∣ 2 ^ 64) {x : Address} (hx : x.toNat % a = 0) (o : Int) :
    alignDown a (x + BitVec.ofInt 64 o) = x + BitVec.ofInt 64 (alignOffset a o) := by
  have hmod : (x + BitVec.ofInt 64 o).toNat % a = (BitVec.ofInt 64 o).toNat % a := by
    rw [toNat_add_mod h, hx, zero_add, mod_mod]
  unfold alignDown alignOffset
  rw [hmod, ← toNat_ofInt_mod h o, ofInt_sub, ofInt_natCast]
  exact add_sub_assoc _ _ _

lemma alignDown_mod (a : Nat) (x : Address) : (alignDown a x).toNat % a = 0 := by
  have hle : x.toNat % a ≤ x.toNat := mod_le _ _
  have hsmall : (BitVec.ofNat 64 (x.toNat % a)).toNat = x.toNat % a := by
    rw [toNat_ofNat, mod_eq_of_lt (lt_of_le_of_lt hle x.isLt)]
  unfold alignDown
  rw [toNat_sub_of_le (by rw [le_def, hsmall]; exact hle), hsmall]
  exact sub_mod_eq_zero_of_mod_eq (mod_mod _ _).symm

end

lemma checkedAffineOffset_eq {base delta : Int} {subtract : Bool} {o : Int}
    (h : checkedAffineOffset base delta subtract = some o) :
    o = if subtract then base - delta else base + delta := by
  unfold checkedAffineOffset at h
  cases subtract with
  | false =>
    rw [if_pos rfl] at h
    split at h
    · cases h
    · injection h with h
      exact h.symm
  | true =>
    rw [if_neg (by decide)] at h
    split at h
    · cases h
    · injection h with h
      exact h.symm

lemma Anchor.address_mod {a : Anchor} (ha : a.Legal) (sp : Address) {b : Nat} (hb : IsAlignment b)
    (h : b ≤ a.alignment) : (a.address sp).toNat % b = 0 := by
  cases a with
  | sp => exact absurd h (Nat.not_le_of_lt hb.pos)
  | aligned base offset alignment =>
    obtain ⟨c, hc⟩ := hb.dvd_of_le ha.2 h
    have hmod := alignDown_mod alignment (base.address sp + BitVec.ofInt 64 offset)
    exact mod_eq_zero_of_dvd ((Dvd.intro c hc.symm).trans (dvd_of_mod_eq_zero hmod))

lemma transfer_legal {e : FrameStep} (he : e.Legal) {c d : Coordinate} (hc : c.1.Legal)
    (h : transfer e c = some d) : d.1.Legal := by
  unfold transfer at h
  split at h
  · obtain ⟨o, -, ho⟩ := Option.map_eq_some_iff.mp h
    rw [← ho]
    exact hc
  next hne =>
    split at h
    · injection h with h
      rw [← h]
      exact hc
    · injection h with h
      rw [← h]
      exact ⟨hc, he.resolve_left hne⟩

lemma address_transfer {e : FrameStep} (he : e.Legal) {c d : Coordinate} (hc : c.1.Legal)
    (h : transfer e c = some d) (sp : Address) : address sp d = move e (address sp c) := by
  unfold transfer at h
  unfold move
  split at h
  next hzero =>
    rw [if_pos hzero]
    obtain ⟨o, ho, hd⟩ := Option.map_eq_some_iff.mp h
    have heq := checkedAffineOffset_eq ho
    rw [← hd]
    unfold address
    cases hs : e.subtract with
    | false =>
      rw [hs, if_neg (by decide)] at heq
      rw [if_neg (by decide), heq, ofInt_add, BitVec.add_assoc]
    | true =>
      rw [hs, if_pos rfl] at heq
      rw [if_pos rfl, heq, ofInt_sub]
      exact (add_sub_assoc _ _ _).symm
  next hne =>
    have hal := he.resolve_left hne
    rw [if_neg hne]
    split at h
    next hle =>
      injection h with h
      rw [← h]
      exact (alignDown_add hal.dvd (Anchor.address_mod hc sp hal hle) c.2).symm
    · injection h with h
      rw [← h]
      exact BitVec.add_zero _

variable {equations : List Equation}

lemma constant_le {eq : Equation} (heq : eq ∈ equations) {i : Input} (hi : i ∈ eq.inputs)
    {s : Flat Coordinate}
    (hs : constantOf eq.step i = some s) : Flat.Le s (initial equations eq.target) := by
  apply (Flat.le_foldl_meet _ _).2
  rw [mem_flatMap]
  refine ⟨eq, mem_filter.mpr ⟨heq, decide_eq_true rfl⟩, ?_⟩
  exact mem_filterMap.mpr ⟨i, hi, hs⟩

theorem initial_value {c : Coordinate} (h : initial equations n = .value c) :
    ∃ eq ∈ equations, eq.target = n ∧ ∃ d, .value d ∈ eq.inputs ∧ transfer eq.step d = some c := by
  have hmem : ∀ (l : List (Flat Coordinate)) (s : Flat Coordinate), l.foldl Flat.meet s = .value c →
      s = .value c ∨ .value c ∈ l := by
    intro l
    induction l with
    | nil => exact fun s hs => .inl hs
    | cons t l ih =>
      intro s hs
      rcases ih _ hs with h' | h'
      · cases s with
        | unknown =>
          cases t with
          | unknown => exact .inl h'
          | value v => exact .inr (mem_cons.mpr (.inl h'.symm))
          | invalid => cases h'
        | invalid => cases t <;> cases h'
        | value v =>
          cases t with
          | unknown => exact .inl h'
          | invalid => cases h'
          | value w =>
            unfold Flat.meet at h'
            dsimp only at h'
            split at h'
            · exact .inl h'
            · cases h'
      · exact .inr (mem_cons_of_mem _ h')
  rcases hmem _ _ h with h' | h'
  · cases h'
  · obtain ⟨eq, heq, hc⟩ := mem_flatMap.mp h'
    have hfilter := mem_filter.mp heq
    obtain ⟨i, hi, hs⟩ := mem_filterMap.mp hc
    refine ⟨eq, hfilter.1, of_decide_eq_true hfilter.2, ?_⟩
    cases i with
    | invalid => cases hs
    | reference m => cases hs
    | value d =>
      injection hs with hs
      unfold Flat.pass at hs
      dsimp only at hs
      cases ht : transfer eq.step d with
      | none =>
        rw [ht] at hs
        cases hs
      | some w =>
        rw [ht] at hs
        injection hs with hs
        exact ⟨d, hi, by rw [ht, hs]⟩

lemma not_val_undefined (h : ∀ eq ∈ equations, eq.target ≠ n) (c : Coordinate) :
    ¬(system equations).Val n c := by
  intro hv
  cases hv with
  | initial hi =>
    obtain ⟨eq, heq, htarget, -⟩ := initial_value hi
    exact h eq heq htarget
  | edge _ hedge _ =>
    obtain ⟨eq, heq, htarget, -⟩ := hedge
    exact h eq heq htarget

lemma val_legal (hlegal : ∀ eq ∈ equations, eq.Legal) {c : Coordinate}
    (h : (system equations).Val n c) : c.1.Legal := by
  induction h with
  | initial hi =>
    obtain ⟨eq, heq, -, d, hd, ht⟩ := initial_value hi
    exact transfer_legal (hlegal eq heq).1 ((hlegal eq heq).2 d hd) ht
  | edge _ hedge hf ih =>
    obtain ⟨eq, heq, -, -, rfl⟩ := hedge
    exact transfer_legal (hlegal eq heq).1 ih hf

theorem eq_of_takes (hlegal : ∀ eq ∈ equations, eq.Legal) {sp : Address} {x : Address}
    (hx : Takes equations sp n x) : ∀ {c : Coordinate}, Determined equations n c →
    x = address sp c := by
  induction hx with
  | @constant eq d heq hd =>
    intro c hc
    have hle := constant_le heq hd rfl
    cases ht : transfer eq.step d with
    | none =>
      unfold Flat.pass at hle
      dsimp only at hle
      rw [ht] at hle
      exact absurd (.top (.initial hle)) hc.2
    | some w =>
      unfold Flat.pass at hle
      dsimp only at hle
      rw [ht] at hle
      rcases hle with hle | hle
      · have hw := Flat.System.val_unique hc.2 (.initial hle) hc.1
        rw [← hw]
        exact (address_transfer (hlegal eq heq).1 ((hlegal eq heq).2 d hd) ht sp).symm
      · exact absurd (.top (.initial hle)) hc.2
  | @unknown eq x heq hi =>
    intro c hc
    exact absurd (.top (.initial (constant_le heq hi rfl))) hc.2
  | @reference eq m x heq hm _ ih =>
    intro c hc
    have hedge : (system equations).edge m eq.target (transfer eq.step) := ⟨eq, heq, rfl, hm, rfl⟩
    have hbad : ¬(system equations).Bad m := fun hb => hc.2 (.edge hb hedge)
    have hval : ∃ u, (system equations).Val m u := by
      refine Classical.not_not.mp fun hno => ?_
      exact hbad (.silent fun v hv => hno ⟨v, hv⟩)
    obtain ⟨u, hu⟩ := hval
    rw [ih ⟨hu, hbad⟩]
    cases ht : transfer eq.step u with
    | none => exact absurd (.top (.stuck hu hedge ht)) hc.2
    | some w =>
      have hw := Flat.System.val_unique hc.2 (.edge hu hedge ht) hc.1
      rw [← hw]
      exact (address_transfer (hlegal eq heq).1 (val_legal hlegal hu) ht sp).symm
  | undefined hn =>
    intro c hc
    exact absurd hc.1 (not_val_undefined hn c)

theorem Takes.restrict {more : List Equation} (hsub : ∀ eq ∈ equations, eq ∈ more)
    (hnew : ∀ eq ∈ more, eq ∈ equations ∨ ∀ eq' ∈ equations, eq'.target ≠ eq.target) {sp : Address}
    {x : Address} (h : Takes more sp n x) : Takes equations sp n x := by
  induction h with
  | @constant eq c heq hc =>
    rcases hnew eq heq with hold | hfree
    · exact .constant hold hc
    · exact .undefined hfree
  | @unknown eq x heq hi =>
    rcases hnew eq heq with hold | hfree
    · exact .unknown hold hi
    · exact .undefined hfree
  | @reference eq m x heq hm _ ih =>
    rcases hnew eq heq with hold | hfree
    · exact .reference hold hm ih
    · exact .undefined hfree
  | undefined hn => exact .undefined fun eq heq => hn eq (hsub eq heq)

end Frame

end NeverD.Ir
