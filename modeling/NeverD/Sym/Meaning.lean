import NeverD.Sym.Calls

namespace NeverD.Sym
open Lib
open Words List

section

variable [BlockHash] {s t : SymBuilder} {r : SymRef} {w : Nat}

variable (h : s.Valid)
include h

lemma SymBuilder.Valid.eval_toNat (he : s.ctx.Extends t.ctx) (vals : List APInt)
    (hr : Has s r w) : (s.ctx.eval r vals).width = w ∧
    (s.ctx.eval r vals).toNat = t.ctx.num vals r := by
  have htyped := (h vals).typed
  rw [htyped.toAcyclic.eval_eq vals hr.1, htyped.num_extend he vals hr.1]
  exact ⟨(htyped.value_width vals hr.1).trans hr.2, rfl⟩

omit h

end

section

def ArithCall.number (w : Nat) (num : SymRef → Nat) : ArithCall → Nat
  | mkAdd ops => addAll w (ops.map num)
  | mkSub a b => subOf w (num a) (num b)
  | mkNeg a => negOf w (num a)
  | mkMul ops => mulAll w (ops.map num)
  | mkUDiv a b => udivOf w (num a) (num b)
  | mkURem a b => num a % num b
  | mkSDiv a b => sdivOf w (num a) (num b)
  | mkSRem a b => sremOf w (num a) (num b)

def LogicCall.number (w : Nat) (num : SymRef → Nat) : LogicCall → Nat
  | mkAnd ops => andAll w (ops.map num)
  | mkOr ops => orAll (ops.map num)
  | mkXor ops => xorAll (ops.map num)
  | mkNot a => notOf w (num a)
  | mkShl a b => num a * 2 ^ num b % 2 ^ w
  | mkLShr a b => num a / 2 ^ num b
  | mkAShr a b => ashrOf w (num a) (num b)
  | mkRotL a b => rolOf w (num a) (num b)
  | mkRotR a b => rorOf w (num a) (num b)

def StructCall.packed (width num : SymRef → Nat) : StructCall → Nat × Nat
  | mkExtract a low w => (w, slice low w (num a))
  | mkConcat ops => ((ops.map width).sum, joinAll (ops.map fun q => (width q, num q)))
  | mkZExt a w => (w, num a)
  | mkSExt a w => (w, sextOf (width a) w (num a))
  | mkIte c t e => (width t, if num c = 0 then num e else num t)

def CompareCall.holds (w : Nat) (num : SymRef → Nat) : CompareCall → Bool
  | mkEq a b => num a = num b
  | mkNe a b => num a ≠ num b
  | mkUlt a b => num a < num b
  | mkUle a b => num a ≤ num b
  | mkSlt a b => toInt w (num a) < toInt w (num b)
  | mkSle a b => toInt w (num a) ≤ toInt w (num b)

variable [BlockHash] [ProjectionHash] [KnownTransfer] {last : SymContext} {vals : List APInt}
  {s : SymBuilder} {w n : Nat}

variable (hT : KnownTransfer.Sound)
include hT

lemma ArithCall.means {c : ArithCall} (hc : c.Legal s w) :
    Means last vals s (c.run n) w (c.number w (last.num vals)) := by
  have hB := builders_sound hT last vals n
  cases c with
  | mkAdd ops => exact means_mkAdd hB hc
  | mkSub a b => exact means_mkSub hB hc.1 hc.2
  | mkNeg a => exact means_mkNeg hB hc
  | mkMul ops => exact means_mkMul hB hc
  | mkUDiv a b => exact means_mkUDiv hc.1 hc.2
  | mkURem a b => exact means_mkURem hB hc.1 hc.2
  | mkSDiv a b => exact means_mkSDiv hc.1 hc.2
  | mkSRem a b => exact means_mkSRem hc.1 hc.2

lemma LogicCall.means {c : LogicCall} (hc : c.Legal s w) :
    Means last vals s (c.run n) w (c.number w (last.num vals)) := by
  have hB := builders_sound hT last vals n
  cases c with
  | mkAnd ops => exact means_mkAnd hT hB hc
  | mkOr ops => exact means_mkOr hB hc
  | mkXor ops => exact means_mkXor hB hc
  | mkNot a => exact means_mkNot hB hc
  | mkShl a b => exact means_mkShl hB hc.1 hc.2
  | mkLShr a b => exact means_mkLShr hB hc.1 hc.2
  | mkAShr a b => exact means_mkAShr hB hc.1 hc.2
  | mkRotL a b => exact means_mkRol hc.1 hc.2
  | mkRotR a b => exact means_mkRor hc.1 hc.2

lemma StructCall.means {c : StructCall} (hc : c.Legal s) :
    Means last vals s (c.run n) (c.packed s.ctx.width (last.num vals)).1
      (c.packed s.ctx.width (last.num vals)).2 := by
  have hB := builders_sound hT last vals n
  cases c with
  | mkExtract a low w => exact means_mkExtract hB hc.1
  | mkConcat ops =>
    apply means_of_at
    intro h
    have hwidth : ∀ q ∈ ops, s.ctx.width q = last.width q := fun q hq => h.width_eq (hc q hq).1
    have hmeans : Means last vals s (Sym.mkConcat (builders n) ops) (ops.map last.width).sum
        (joinAll (ops.map fun q => (last.width q, last.num vals q))) :=
      means_mkConcat hB fun q hq => h.has_last (hc q hq).1
    have hsum : ops.map s.ctx.width = ops.map last.width := map_congr_left hwidth
    have hpairs : (ops.map fun q => (s.ctx.width q, last.num vals q)) =
        ops.map fun q => (last.width q, last.num vals q) := by
      apply map_congr_left
      intro q hq
      rw [hwidth q hq]
    show Means last vals s _ (ops.map s.ctx.width).sum
      (joinAll (ops.map fun q => (s.ctx.width q, last.num vals q)))
    rw [hsum, hpairs]
    exact hmeans
  | mkZExt a w => exact means_mkZExt hB hc.1
  | mkSExt a w => exact means_mkSExt hB hc.1
  | mkIte c t e => exact means_mkIte hB hc.1 hc.2.1 hc.2.2

lemma CompareCall.means {c : CompareCall} (hc : c.Legal s w) :
    Means last vals s (c.run n) 1 (bit (c.holds w (last.num vals))) := by
  have hB := builders_sound hT last vals n
  cases c with
  | mkEq a b => exact means_mkEq hB hc.1 hc.2
  | mkNe a b => exact means_mkNe hB hc.1 hc.2
  | mkUlt a b => exact means_mkUlt hB hc.1 hc.2
  | mkUle a b => exact means_mkUle hB hc.1 hc.2
  | mkSlt a b => exact means_mkSlt hB hc.1 hc.2
  | mkSle a b => exact means_mkSle hc.1 hc.2

/-- Every context a client can build is well-shaped, with right images. -/
theorem SymBuilder.Built.valid (hs : s.Built) : s.Valid := by
  induction hs with
  | empty => exact SymBuilder.valid_empty
  | leaf _ hd ih => exact ih.leaf hd
  | arith _ n w c hc hrun ih | logic _ n w c hc hrun ih =>
    exact ih.call (fun last vals => ⟨w, _, c.means hT hc⟩) hrun
  | struct _ n c hc hrun ih => exact ih.call (fun last vals => ⟨_, _, c.means hT hc⟩) hrun
  | compare _ n w c hc hrun ih => exact ih.call (fun last vals => ⟨1, _, c.means hT hc⟩) hrun

end

/-- What the library answers about words of which nothing is known. -/
@[reducible] def KnownTransfer.silent : KnownTransfer where
  add a _ := KnownBits.unknown a.width
  mul a _ := KnownBits.unknown a.width
  udiv a _ := KnownBits.unknown a.width
  urem a _ := KnownBits.unknown a.width
  eq _ _ := none
  ult _ _ := none
  ule _ _ := none
  slt _ _ := none
  sle _ _ := none

@[reducible] def BlockHash.flat : BlockHash := ⟨fun _ => 0⟩

@[reducible] def ProjectionHash.sum : ProjectionHash := ⟨fun w r => w + r⟩

attribute [local instance] KnownTransfer.silent BlockHash.flat ProjectionHash.sum

lemma KnownBits.Knows.unknown {k : KnownBits} {w x y : Nat} (h : k.Knows w x) :
    (KnownBits.unknown k.width).Knows w y := by
  rw [h.width]
  exact KnownBits.knows_unknown w y

lemma KnownTransfer.silent_sound : KnownTransfer.Sound where
  add ha _ _ _ := ha.unknown
  mul ha _ _ _ := ha.unknown
  udiv ha _ _ _ _ := ha.unknown
  urem ha _ _ _ _ := ha.unknown
  urem_width _ := rfl
  urem_bounded _ := Nat.two_pow_pos _
  eq _ _ _ _ h := nomatch h
  ult _ _ _ _ h := nomatch h
  ule _ _ _ _ h := nomatch h
  slt _ _ _ _ h := nomatch h
  sle _ _ _ _ h := nomatch h

def twoVariables : SymBuilder := { ctx := (SymContext.mkVar (SymContext.mkVar {} "x" 8).2 "y" 8).2 }

lemma twoVariables_built : twoVariables.Built :=
  .leaf (.leaf .empty (.mkVar {} "x" 8 (by decide))) (.mkVar _ "y" 8 (by decide))

lemma twoVariables_has : Has twoVariables 0 8 ∧ Has twoVariables 1 8 := by
  refine ⟨⟨?_, ?_⟩, ⟨?_, ?_⟩⟩
  all_goals decide

def extendedByte : SymRef × SymBuilder :=
  (((StructCall.mkZExt 0 16).run 8).run twoVariables).get (by decide)

lemma extendedByte_built : extendedByte.2.Built := by
  apply SymBuilder.Built.struct twoVariables_built 8 (.mkZExt 0 16) ⟨⟨twoVariables_has.1.1, rfl⟩,
    ?_⟩
  · exact (Option.some_get (by decide)).symm
  · decide

end NeverD.Sym
