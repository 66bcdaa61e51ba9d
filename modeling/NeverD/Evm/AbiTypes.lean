import Mathlib.Algebra.GroupWithZero.Nat
import Mathlib.Data.List.Basic
import Mathlib.Data.List.Induction

namespace NeverD.Evm.Abi
open List Bool

variable {spelling : String}

def wordBits : Nat := 256
def wordBytes : Nat := 32
def bitsPerByte : Nat := 8
def minimumABISizedByteWidth : Nat := 1
def minimumABIFixedPointDecimals : Nat := 1
def maximumABIFixedPointDecimals : Nat := 80

inductive ABIWidthUnit
  | none
  | bits
  | bytes

structure ABITypeClassInfo where
  spelling : String
  unit : ABIWidthUnit

def abiTypeClassInfos : List ABITypeClassInfo :=
  [⟨"uint", .bits⟩, ⟨"int", .bits⟩, ⟨"bytes", .bytes⟩, ⟨"address", .none⟩, ⟨"bool", .none⟩,
    ⟨"bytes", .none⟩, ⟨"string", .none⟩]

def isCanonicalUnsignedDecimal (text : List Char) : Bool :=
  text ≠ [] && (text.length = 1 || text.head? ≠ some '0') && text.all Char.isDigit

/-- A number that is no machine integer is not between two bounds. -/
def hasCanonicalBoundedValue (text : List Char) (minimum maximum multiple : Nat) : Bool :=
  if !isCanonicalUnsignedDecimal text then false
  else
    let value := Nat.ofDigitChars 10 text 0
    if 2 ^ 32 ≤ value then false else minimum ≤ value && value ≤ maximum && value % multiple = 0

def isCanonicalABITypeClassSpelling (type : List Char) (info : ABITypeClassInfo) : Bool :=
  match type.dropPrefix? info.spelling.toList with
  | none => false
  | some type =>
    match info.unit with
    | .none => type = []
    | .bits => hasCanonicalBoundedValue type bitsPerByte wordBits bitsPerByte
    | .bytes => hasCanonicalBoundedValue type minimumABISizedByteWidth wordBytes 1

/-- The first fixed-point name that a text starts with decides. -/
def isCanonicalFixedPointABIType (type : List Char) : List String → Bool
  | [] => false
  | spelling :: rest =>
    match type.dropPrefix? spelling.toList with
    | none => isCanonicalFixedPointABIType type rest
    | some suffix =>
      let width := suffix.takeWhile (· ≠ 'x')
      let decimals := (suffix.dropWhile (· ≠ 'x')).drop 1
      !decimals.contains 'x' && hasCanonicalBoundedValue width bitsPerByte wordBits bitsPerByte &&
        hasCanonicalBoundedValue decimals minimumABIFixedPointDecimals maximumABIFixedPointDecimals
        1

def isCanonicalElementaryABIType (type : List Char) : Bool :=
  if type = "function".toList then true
  else if abiTypeClassInfos.any fun info => isCanonicalABITypeClassSpelling type info then true
  else isCanonicalFixedPointABIType type ["fixed", "ufixed"]

open Nat

def decimal (n : Nat) : List Char := Nat.toDigits 10 n

def IsBitWidth (n : Nat) : Prop := 8 ≤ n ∧ n ≤ 256 ∧ n % 8 = 0

inductive Elementary : List Char → Prop
  | uint (n : Nat) (hn : IsBitWidth n) : Elementary ("uint".toList ++ decimal n)
  | int (n : Nat) (hn : IsBitWidth n) : Elementary ("int".toList ++ decimal n)
  | fixedBytes (n : Nat) (hpos : 1 ≤ n) (hle : n ≤ 32) : Elementary ("bytes".toList ++ decimal n)
  | address : Elementary "address".toList
  | bool : Elementary "bool".toList
  | bytes : Elementary "bytes".toList
  | string : Elementary "string".toList
  | function : Elementary "function".toList
  | fixed (m n : Nat) (hm : IsBitWidth m) (hpos : 1 ≤ n) (hle : n ≤ 80) :
      Elementary ("fixed".toList ++ (decimal m ++ 'x' :: decimal n))
  | ufixed (m n : Nat) (hm : IsBitWidth m) (hpos : 1 ≤ n) (hle : n ≤ 80) :
      Elementary ("ufixed".toList ++ (decimal m ++ 'x' :: decimal n))

lemma head_decimal {n : Nat} (hn : 0 < n) : (decimal n).head? ≠ some '0' := by
  induction n using Nat.strongRecOn with
  | _ n ih =>
    unfold decimal
    rw [toDigits_eq_if (by decide)]
    split
    · rw [head?_cons]
      intro h
      rw [Option.some.injEq, digitChar_eq_zero] at h
      omega
    · rw [head?_append_of_ne_nil _ toDigits_ne_nil]
      exact ih (n / 10) (by omega) (by omega)

lemma digits_decimal (n : Nat) : (decimal n).all Char.isDigit = true := by
  rw [all_eq_true]
  intro c hc
  exact isDigit_of_mem_toDigits (by decide) (by decide) hc

lemma isCanonicalUnsignedDecimal_decimal (n : Nat) :
    isCanonicalUnsignedDecimal (decimal n) = true := by
  unfold isCanonicalUnsignedDecimal
  rw [digits_decimal, Bool.and_true, and_eq_true]
  refine ⟨by simp [decimal], ?_⟩
  rcases Nat.eq_zero_or_pos n with hn | hn
  · rw [hn]
    rfl
  · rw [or_eq_true]
    exact .inr (by simpa using head_decimal hn)

lemma isDigit_iff {c : Char} : c.isDigit = true ↔ 48 ≤ c.toNat ∧ c.toNat ≤ 57 := by
  unfold Char.isDigit Char.toNat
  rw [and_eq_true, decide_eq_true_eq, decide_eq_true_eq, UInt32.le_iff_toNat_le, ge_iff_le,
    UInt32.le_iff_toNat_le]
  rfl

lemma digitChar_of_isDigit {c : Char} (hc : c.isDigit = true) : c = (c.toNat - 48).digitChar := by
  obtain ⟨hlo, hhi⟩ := isDigit_iff.mp hc
  apply Char.ext
  apply UInt32.toNat.inj
  change c.toNat = (c.toNat - 48).digitChar.toNat
  rw [toNat_digitChar_of_lt_ten (by omega)]
  omega

theorem decimal_ofDigitChars (text : List Char) (hne : text ≠ [])
    (hdigits : ∀ c ∈ text, c.isDigit = true) (hzero : text.length = 1 ∨ text.head? ≠ some '0') :
    decimal (Nat.ofDigitChars 10 text 0) = text ∧
      (text.head? ≠ some '0' → 0 < Nat.ofDigitChars 10 text 0) := by
  induction text using List.reverseRecOn with
  | nil => exact (hne rfl).elim
  | append_singleton init c ih =>
    have hc : c.isDigit = true := hdigits c (by simp)
    have hlt := isDigit_iff.mp hc
    have hvalue : Nat.ofDigitChars 10 (init ++ [c]) 0 = 10 * Nat.ofDigitChars 10 init 0 +
        (c.toNat - 48) := by
      rw [ofDigitChars_append, ofDigitChars_cons, ofDigitChars_nil]
      rfl
    rw [hvalue]
    by_cases hinit : init = []
    · rw [hinit, ofDigitChars_nil, Nat.mul_zero, Nat.zero_add, nil_append]
      refine ⟨?_, ?_⟩
      · unfold decimal
        rw [toDigits_of_lt_base (by omega), ← digitChar_of_isDigit hc]
      · intro hhead
        by_contra hnot
        have hzero : c = '0' := by
          rw [digitChar_of_isDigit hc, show c.toNat - 48 = 0 by omega]
          rfl
        exact hhead (by rw [hzero]; rfl)
    · have hlength : 0 < init.length := length_pos_iff.mpr hinit
      have hhead : init.head? ≠ some '0' := by
        rcases hzero with hone | hhead
        · rw [length_append, length_singleton] at hone
          omega
        · rw [head?_append_of_ne_nil _ hinit] at hhead
          exact hhead
      obtain ⟨hdecimal, hpos⟩ := ih hinit (fun d hd => hdigits d (by simp [hd])) (.inr hhead)
      have hpos := hpos hhead
      refine ⟨?_, fun _ => by omega⟩
      unfold decimal at *
      rw [← toDigits_append_toDigits (by decide) hpos (show c.toNat - 48 < 10 by omega), hdecimal,
        toDigits_of_lt_base (by omega), ← digitChar_of_isDigit hc]

lemma isCanonicalUnsignedDecimal_iff {text : List Char} :
    isCanonicalUnsignedDecimal text = true ↔ text = decimal (Nat.ofDigitChars 10 text 0) := by
  constructor
  · intro h
    unfold isCanonicalUnsignedDecimal at h
    simp only [and_eq_true, or_eq_true, decide_eq_true_eq, all_eq_true] at h
    exact (decimal_ofDigitChars text h.1.1 h.2 h.1.2).1.symm
  · intro h
    rw [h]
    exact isCanonicalUnsignedDecimal_decimal _

lemma hasCanonicalBoundedValue_iff {text : List Char} {minimum maximum multiple : Nat}
    (hmaximum : maximum < 2 ^ 32) : hasCanonicalBoundedValue text minimum maximum multiple = true ↔
      ∃ n, text = decimal n ∧ minimum ≤ n ∧ n ≤ maximum ∧ n % multiple = 0 := by
  unfold hasCanonicalBoundedValue
  constructor
  · intro h
    split at h
    · cases h
    next hcanonical =>
      dsimp only at h
      split at h
      · cases h
      · simp only [and_eq_true, decide_eq_true_eq] at h
        rw [not_eq_true, not_eq_false'] at hcanonical
        exact ⟨_, isCanonicalUnsignedDecimal_iff.mp hcanonical, h.1.1, h.1.2, h.2⟩
  · intro h
    obtain ⟨n, htext, hmin, hmax, hmod⟩ := h
    have hvalue : Nat.ofDigitChars 10 text 0 = n := by
      rw [htext]
      exact ofDigitChars_ten_toDigits
    rw [htext, isCanonicalUnsignedDecimal_decimal, ← htext]
    rw [hvalue, if_neg (by simp), if_neg (by omega)]
    simp only [and_eq_true, decide_eq_true_eq]
    exact ⟨⟨hmin, hmax⟩, hmod⟩

lemma dropPrefix_iff {l p s : List Char} : l.dropPrefix? p = some s ↔ l = p ++ s := by
  rw [dropPrefix?_eq_some_iff]
  constructor
  · intro h
    obtain ⟨p', hl, hp⟩ := h
    rw [hl, beq_iff_eq.mp hp]
  · intro h
    exact ⟨p, h, beq_self_eq_true p⟩

variable {type : List Char}

lemma typeClass_none : isCanonicalABITypeClassSpelling type ⟨spelling, .none⟩ = true ↔
    type = spelling.toList := by
  unfold isCanonicalABITypeClassSpelling
  constructor
  · intro h
    split at h
    · cases h
    next suffix hsuffix =>
      rw [dropPrefix_iff] at hsuffix
      rw [hsuffix, of_decide_eq_true h, append_nil]
  · intro h
    rw [dropPrefix_iff.mpr (show type = spelling.toList ++ [] by rw [append_nil]; exact h)]
    rfl

lemma typeClass_bits : isCanonicalABITypeClassSpelling type ⟨spelling, .bits⟩ = true ↔
      ∃ n, IsBitWidth n ∧ type = spelling.toList ++ decimal n := by
  unfold isCanonicalABITypeClassSpelling
  constructor
  · intro h
    split at h
    · cases h
    next suffix hsuffix =>
      rw [dropPrefix_iff] at hsuffix
      obtain ⟨n, hn, hmin, hmax, hmod⟩ := (hasCanonicalBoundedValue_iff (by decide)).mp h
      exact ⟨n, ⟨hmin, hmax, hmod⟩, by rw [hsuffix, hn]⟩
  · intro h
    obtain ⟨n, hn, htype⟩ := h
    rw [dropPrefix_iff.mpr htype]
    exact (hasCanonicalBoundedValue_iff (by decide)).mpr ⟨n, rfl, hn.1, hn.2.1, hn.2.2⟩

lemma typeClass_bytes : isCanonicalABITypeClassSpelling type ⟨spelling, .bytes⟩ = true ↔
      ∃ n, 1 ≤ n ∧ n ≤ 32 ∧ type = spelling.toList ++ decimal n := by
  unfold isCanonicalABITypeClassSpelling
  constructor
  · intro h
    split at h
    · cases h
    next suffix hsuffix =>
      rw [dropPrefix_iff] at hsuffix
      obtain ⟨n, hn, hmin, hmax, -⟩ := (hasCanonicalBoundedValue_iff (by decide)).mp h
      exact ⟨n, hmin, hmax, by rw [hsuffix, hn]⟩
  · intro h
    obtain ⟨n, hmin, hmax, htype⟩ := h
    rw [dropPrefix_iff.mpr htype]
    exact (hasCanonicalBoundedValue_iff (by decide)).mpr ⟨n, rfl, hmin, hmax, mod_one n⟩

lemma x_not_mem_decimal (n : Nat) : 'x' ∉ decimal n := by
  intro h
  have hdigit := all_eq_true.mp (digits_decimal n) 'x' h
  cases hdigit

lemma fixedPoint_suffix_iff {suffix : List Char} :
      (!((suffix.dropWhile (· ≠ 'x')).drop 1).contains 'x' &&
      hasCanonicalBoundedValue (suffix.takeWhile (· ≠ 'x')) bitsPerByte wordBits bitsPerByte &&
      hasCanonicalBoundedValue ((suffix.dropWhile (· ≠ 'x')).drop 1) minimumABIFixedPointDecimals
        maximumABIFixedPointDecimals 1) = true ↔
    ∃ m n, IsBitWidth m ∧ 1 ≤ n ∧ n ≤ 80 ∧ suffix = decimal m ++ 'x' :: decimal n := by
  rw [and_eq_true, and_eq_true, hasCanonicalBoundedValue_iff (by decide),
    hasCanonicalBoundedValue_iff (by decide)]
  constructor
  · intro h
    obtain ⟨⟨-, m, hm, hm8, hm256, hmod⟩, n, hn, hpos, hle, -⟩ := h
    refine ⟨m, n, ⟨hm8, hm256, hmod⟩, hpos, hle, ?_⟩
    have hsplit := takeWhile_append_dropWhile (p := fun c : Char => decide (c ≠ 'x')) (l := suffix)
    rw [hm] at hsplit
    cases hrest : suffix.dropWhile (fun c : Char => decide (c ≠ 'x')) with
    | nil =>
      rw [hrest, drop_nil] at hn
      exact (toDigits_ne_nil hn.symm).elim
    | cons c rest =>
      have hc := head?_dropWhile_not (fun c : Char => decide (c ≠ 'x')) suffix
      rw [hrest] at hc hn hsplit
      have hx : c = 'x' := by simpa using hc
      rw [drop_succ_cons, drop_zero] at hn
      rw [← hsplit, hx, hn]
  · intro h
    obtain ⟨m, n, hm, hpos, hle, hsuffix⟩ := h
    have hdigits : ∀ c ∈ decimal m, decide (c ≠ 'x') = true := by
      intro c hc
      rw [decide_eq_true_eq]
      intro hx
      exact x_not_mem_decimal m (hx ▸ hc)
    have htake : suffix.takeWhile (fun c => decide (c ≠ 'x')) = decimal m := by
      rw [hsuffix, takeWhile_append_of_pos hdigits, takeWhile_cons_of_neg (by simp), append_nil]
    have hdrop : (suffix.dropWhile (fun c => decide (c ≠ 'x'))).drop 1 = decimal n := by
      rw [hsuffix, dropWhile_append_of_pos hdigits, dropWhile_cons_of_neg (by simp)]
      rfl
    rw [htake, hdrop]
    refine ⟨⟨?_, m, rfl, hm.1, hm.2.1, hm.2.2⟩, n, rfl, hpos, hle, mod_one n⟩
    simpa using x_not_mem_decimal n

lemma isCanonicalFixedPointABIType_iff :
    isCanonicalFixedPointABIType type ["fixed", "ufixed"] = true ↔ ∃ m n, IsBitWidth m ∧
      1 ≤ n ∧ n ≤ 80 ∧ (type = "fixed".toList ++ (decimal m ++ 'x' :: decimal n) ∨
        type = "ufixed".toList ++ (decimal m ++ 'x' :: decimal n)) := by
  unfold isCanonicalFixedPointABIType
  cases hfixed : type.dropPrefix? "fixed".toList with
  | some suffix =>
    dsimp only
    rw [fixedPoint_suffix_iff]
    rw [dropPrefix_iff] at hfixed
    constructor
    · intro h
      obtain ⟨m, n, hm, hpos, hle, hsuffix⟩ := h
      exact ⟨m, n, hm, hpos, hle, .inl (by rw [hfixed, hsuffix])⟩
    · intro h
      obtain ⟨m, n, hm, hpos, hle, htype | htype⟩ := h
      · rw [hfixed] at htype
        exact ⟨m, n, hm, hpos, hle, append_cancel_left htype⟩
      · rw [hfixed] at htype
        simp at htype
  | none =>
    have hnot : ∀ suffix, type ≠ "fixed".toList ++ suffix := by
      intro suffix h
      rw [dropPrefix_iff.mpr h] at hfixed
      cases hfixed
    dsimp only
    unfold isCanonicalFixedPointABIType
    constructor
    · intro h
      split at h
      · cases h
      next suffix hsuffix =>
        rw [dropPrefix_iff] at hsuffix
        obtain ⟨m, n, hm, hpos, hle, hbody⟩ := fixedPoint_suffix_iff.mp h
        exact ⟨m, n, hm, hpos, hle, .inr (by rw [hsuffix, hbody])⟩
    · intro h
      obtain ⟨m, n, hm, hpos, hle, htype | htype⟩ := h
      · exact (hnot _ htype).elim
      · rw [dropPrefix_iff.mpr htype]
        exact fixedPoint_suffix_iff.mpr ⟨m, n, hm, hpos, hle, rfl⟩

lemma isCanonicalElementaryABIType_iff : isCanonicalElementaryABIType type = true ↔
    Elementary type := by
  unfold isCanonicalElementaryABIType abiTypeClassInfos
  constructor
  · intro h
    split at h
    next hfunction =>
      rw [hfunction]
      exact .function
    · split at h
      next hclass =>
        simp only [any_cons, any_nil, or_eq_true, Bool.or_false, typeClass_none, typeClass_bits,
          typeClass_bytes] at hclass
        rcases hclass with ⟨n, hn, ht⟩ | ⟨n, hn, ht⟩ | ⟨n, hpos, hle, ht⟩ | ht | ht | ht | ht
        · rw [ht]
          exact .uint n hn
        · rw [ht]
          exact .int n hn
        · rw [ht]
          exact .fixedBytes n hpos hle
        · rw [ht]
          exact .address
        · rw [ht]
          exact .bool
        · rw [ht]
          exact .bytes
        · rw [ht]
          exact .string
      · obtain ⟨m, n, hm, hpos, hle, ht | ht⟩ := isCanonicalFixedPointABIType_iff.mp h
        · rw [ht]
          exact .fixed m n hm hpos hle
        · rw [ht]
          exact .ufixed m n hm hpos hle
  · intro h
    split
    · rfl
    next hfunction =>
      split
      · rfl
      next hclass =>
        simp only [any_cons, any_nil, or_eq_true, Bool.or_false, typeClass_none, typeClass_bits,
          typeClass_bytes] at hclass
        rw [isCanonicalFixedPointABIType_iff]
        cases h with
        | function => exact (hfunction rfl).elim
        | uint n hn => exact (hclass (.inl ⟨n, hn, rfl⟩)).elim
        | int n hn => exact (hclass (.inr (.inl ⟨n, hn, rfl⟩))).elim
        | fixedBytes n hpos hle => exact (hclass (.inr (.inr (.inl ⟨n, hpos, hle, rfl⟩)))).elim
        | address => exact (hclass (.inr (.inr (.inr (.inl rfl))))).elim
        | bool => exact (hclass (.inr (.inr (.inr (.inr (.inl rfl)))))).elim
        | bytes => exact (hclass (.inr (.inr (.inr (.inr (.inr (.inl rfl))))))).elim
        | string => exact (hclass (.inr (.inr (.inr (.inr (.inr (.inr rfl))))))).elim
        | fixed m n hm hpos hle => exact ⟨m, n, hm, hpos, hle, .inl rfl⟩
        | ufixed m n hm hpos hle => exact ⟨m, n, hm, hpos, hle, .inr rfl⟩

lemma Elementary.alphanumeric (h : Elementary type) :
    type ≠ [] ∧ ∀ c ∈ type, c.isAlphanum = true := by
  have hdecimal : ∀ n, ∀ c ∈ decimal n, c.isAlphanum = true := by
    intro n c hc
    have hdigit := all_eq_true.mp (digits_decimal n) c hc
    unfold Char.isAlphanum
    rw [hdigit, Bool.or_true]
  have happend : ∀ (word rest : List Char), word ≠ [] → (∀ c ∈ word, c.isAlphanum = true) →
      (∀ c ∈ rest, c.isAlphanum = true) → word ++ rest ≠ [] ∧ ∀ c ∈ word ++ rest,
      c.isAlphanum = true := by
    intro word rest hne hword hrest
    refine ⟨by simp [hne], ?_⟩
    intro c hc
    rcases mem_append.mp hc with hc | hc
    · exact hword c hc
    · exact hrest c hc
  have hword : ∀ word : List Char, word.all Char.isAlphanum = true →
      ∀ c ∈ word, c.isAlphanum = true :=
    fun word hall c hc => all_eq_true.mp hall c hc
  have hpair : ∀ m n, ∀ c ∈ decimal m ++ 'x' :: decimal n, c.isAlphanum = true := by
    intro m n c hc
    rcases mem_append.mp hc with hc | hc
    · exact hdecimal m c hc
    · rcases mem_cons.mp hc with hc | hc
      · rw [hc]
        rfl
      · exact hdecimal n c hc
  cases h with
  | uint n hn => exact happend _ _ (by decide) (hword _ rfl) (hdecimal n)
  | int n hn => exact happend _ _ (by decide) (hword _ rfl) (hdecimal n)
  | fixedBytes n hpos hle => exact happend _ _ (by decide) (hword _ rfl) (hdecimal n)
  | fixed m n hm hpos hle | ufixed m n hm hpos hle =>
    exact happend _ _ (by decide) (hword _ rfl) (hpair m n)
  | address | bool | bytes | string | function => exact ⟨by decide, hword _ rfl⟩

end NeverD.Evm.Abi
