import Mathlib.Algebra.GroupWithZero.Nat
import Mathlib.Data.List.Basic
import Mathlib.Data.Nat.Basic

namespace NeverD.Lib
open Nat

structure APInt where
  width : Nat
  bits : BitVec width
deriving DecidableEq

namespace APInt

def ofNat (w v : Nat) : APInt := ⟨w, BitVec.ofNat w v⟩

def toNat (a : APInt) : Nat := a.bits.toNat

/-- The value read at a width: unchanged at its own, else truncated or zero extended. -/
def read (a : APInt) (w : Nat) : BitVec w := a.bits.setWidth w

def getBit (a : APInt) (i : Nat) : Bool := a.bits.getLsbD i

lemma ext {a b : APInt} (hw : a.width = b.width) (hv : a.toNat = b.toNat) : a = b := by
  obtain ⟨w, x⟩ := a
  obtain ⟨w', y⟩ := b
  obtain rfl : w = w' := hw
  congr 1
  exact BitVec.eq_of_toNat_eq hv

lemma toNat_lt (a : APInt) : a.toNat < 2 ^ a.width := a.bits.isLt

@[simp] lemma ofNat_width (w v : Nat) : (ofNat w v).width = w := rfl

@[simp] lemma ofNat_toNat (w v : Nat) : (ofNat w v).toNat = v % 2 ^ w := BitVec.toNat_ofNat v w

lemma ofNat_self (a : APInt) : ofNat a.width a.toNat = a :=
  ext rfl (by rw [ofNat_toNat, mod_eq_of_lt a.toNat_lt])

def zero (w : Nat) : APInt := ofNat w 0

def allOnes (w : Nat) : APInt := ⟨w, BitVec.allOnes w⟩

def ofBool (b : Bool) : APInt := ofNat 1 b.toNat

def isZero (a : APInt) : Bool := a.toNat = 0

def isAllOnes (a : APInt) : Bool := a.bits = BitVec.allOnes a.width

def isNegative (a : APInt) : Bool := a.bits.msb

def isMinSignedValue (a : APInt) : Bool := a.bits = BitVec.intMin a.width

def map₂ (f : (w : Nat) → BitVec w → BitVec w → BitVec w) (a b : APInt) : APInt :=
  ⟨a.width, f a.width a.bits (b.read a.width)⟩

def zextOrTrunc (a : APInt) (w : Nat) : APInt := ⟨w, a.bits.setWidth w⟩

def sext (a : APInt) (w : Nat) : APInt := ⟨w, a.bits.signExtend w⟩

def extractBits (a : APInt) (w low : Nat) : APInt := ⟨w, a.bits.extractLsb' low w⟩

def shl (a : APInt) (n : Nat) : APInt := ⟨a.width, a.bits <<< n⟩

def lshr (a : APInt) (n : Nat) : APInt := ⟨a.width, a.bits >>> n⟩

def ashr (a : APInt) (n : Nat) : APInt := ⟨a.width, a.bits.sshiftRight n⟩

def rotl (a : APInt) (n : Nat) : APInt := ⟨a.width, a.bits.rotateLeft n⟩

def rotr (a : APInt) (n : Nat) : APInt := ⟨a.width, a.bits.rotateRight n⟩

def add : APInt → APInt → APInt := map₂ fun _ x y => x + y

def mul : APInt → APInt → APInt := map₂ fun _ x y => x * y

def and : APInt → APInt → APInt := map₂ fun _ x y => x &&& y

def or : APInt → APInt → APInt := map₂ fun _ x y => x ||| y

def xor : APInt → APInt → APInt := map₂ fun _ x y => x ^^^ y

def not (a : APInt) : APInt := ⟨a.width, ~~~a.bits⟩

def udiv : APInt → APInt → APInt := map₂ fun _ x y => x / y

def urem : APInt → APInt → APInt := map₂ fun _ x y => x % y

def sdiv : APInt → APInt → APInt := map₂ fun _ x y => x.sdiv y

def srem : APInt → APInt → APInt := map₂ fun _ x y => x.srem y

def ult (a b : APInt) : Bool := a.toNat < b.toNat

def ule (a b : APInt) : Bool := a.toNat ≤ b.toNat

def slt (a b : APInt) : Bool := a.bits.slt (b.read a.width)

def sle (a b : APInt) : Bool := a.bits.sle (b.read a.width)

def numWords (a : APInt) : Nat := (a.width + 63) / 64

def word (a : APInt) (i : Nat) : Nat := a.toNat / 2 ^ (64 * i) % 2 ^ 64

def rawData (a : APInt) : List Nat := (List.range a.numWords).map a.word

theorem eq_of_words {x y : Nat} (k n : Nat) (hx : x < 2 ^ (k * n)) (hy : y < 2 ^ (k * n))
    (h : ∀ i < n, x / 2 ^ (k * i) % 2 ^ k = y / 2 ^ (k * i) % 2 ^ k) : x = y := by
  apply eq_of_testBit_eq
  intro j
  by_cases hj : j < k * n
  · -- Bit `j` is bit `j % k` of word `j / k`.
    have hk : 0 < k := Nat.pos_of_mul_pos_right (zero_lt_of_lt hj)
    have hw := congrArg (fun z => z.testBit (j % k)) (h (j / k) (Nat.div_lt_of_lt_mul hj))
    simp only [testBit_mod_two_pow, mod_lt j hk, decide_true, Bool.true_and, testBit_div_two_pow,
      mod_add_div] at hw
    exact hw
  · have hle : 2 ^ (k * n) ≤ 2 ^ j := Nat.pow_le_pow_right Nat.two_pos (Nat.le_of_not_lt hj)
    rw [testBit_lt_two_pow (lt_of_lt_of_le hx hle), testBit_lt_two_pow (lt_of_lt_of_le hy hle)]

lemma toNat_lt_words (a : APInt) : a.toNat < 2 ^ (64 * a.numWords) :=
  lt_of_lt_of_le a.toNat_lt (Nat.pow_le_pow_right Nat.two_pos (by rw [numWords]; omega))

lemma eq_of_rawData {a b : APInt} (hw : a.width = b.width) (h : a.rawData = b.rawData) : a = b := by
  have hn : a.numWords = b.numWords := by rw [numWords, numWords, hw]
  apply ext hw
  apply eq_of_words 64 a.numWords a.toNat_lt_words (hn ▸ b.toNat_lt_words)
  intro i hi
  have hi' := congrArg (fun l => l[i]?) h
  simpa [rawData, word, ← hn, hi] using hi'

end APInt

end NeverD.Lib
