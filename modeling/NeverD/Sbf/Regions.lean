import NeverD.Lib.Fallible
import NeverD.Sbf.Interpreter
import Mathlib.Data.List.Forall2
import Mathlib.Tactic.Ring

namespace NeverD.Sbf
open List Nat

open NeverD.Lib

variable {address : Word} {size width : Nat} {value : Word}

namespace MemoryRegion

variable {r : MemoryRegion}

def place (r : MemoryRegion) (i : Nat) : Nat :=
  if r.vmGapSize = 0 then r.address.toNat + i
  else r.address.toNat + i / r.vmGapSize * (r.vmGapSize * stackFrameGapMultiplier) + i % r.vmGapSize

structure Keeps (before after : MemoryRegion) : Prop where
  address : after.address = before.address
  length : after.bytes.length = before.bytes.length
  writable : after.writable = before.writable
  name : after.name = before.name
  vmGapSize : after.vmGapSize = before.vmGapSize
  bytes : before.writable = false → after.bytes = before.bytes

namespace Keeps

lemma refl (r : MemoryRegion) : Keeps r r := ⟨rfl, rfl, rfl, rfl, rfl, fun _ => rfl⟩

lemma trans {a b c : MemoryRegion} (hab : Keeps a b) (hbc : Keeps b c) : Keeps a c where
  address := hbc.address.trans hab.address
  length := hbc.length.trans hab.length
  writable := hbc.writable.trans hab.writable
  name := hbc.name.trans hab.name
  vmGapSize := hbc.vmGapSize.trans hab.vmGapSize
  bytes h := (hbc.bytes (hab.writable.trans h)).trans (hab.bytes h)

variable {a b : MemoryRegion}

lemma virtualSpan (h : Keeps a b) : b.virtualSpan = a.virtualSpan := by
  unfold MemoryRegion.virtualSpan
  rw [h.vmGapSize, h.length]

lemma nil_iff (h : Keeps a b) : b.bytes = [] ↔ a.bytes = [] := by
  rw [← length_eq_zero_iff, ← length_eq_zero_iff, h.length]

lemma overlaps {c d : MemoryRegion} (hab : Keeps a b) (hcd : Keeps c d) :
    b.overlaps d = a.overlaps c := by
  unfold MemoryRegion.overlaps
  rw [hab.virtualSpan, hcd.virtualSpan, hab.address, hcd.address]
  simp only [hab.nil_iff, hcd.nil_iff]

end Keeps

end MemoryRegion

variable {memory : List MemoryRegion}

end NeverD.Sbf
