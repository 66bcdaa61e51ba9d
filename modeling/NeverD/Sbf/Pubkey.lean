import NeverD.Lib.Radix
import Mathlib.Data.List.GetD

namespace NeverD.Sbf
open Lib.Radix List Nat

def kBase58Alphabet : List Char :=
  ['1', '2', '3', '4', '5', '6', '7', '8', '9', 'A', 'B', 'C', 'D', 'E', 'F', 'G', 'H', 'J', 'K',
    'L', 'M', 'N', 'P',
    'Q', 'R', 'S', 'T', 'U', 'V', 'W', 'X', 'Y', 'Z', 'a', 'b', 'c', 'd', 'e', 'f', 'g', 'h', 'i',
      'j', 'k', 'm', 'n',
    'o', 'p', 'q', 'r', 's', 't', 'u', 'v', 'w', 'x', 'y', 'z']

def kBase58Radix : Nat := 58

def kByteRadix : Nat := 2 ^ 8

def kBase58ZeroDigit : Char := kBase58Alphabet.headD ' '

def wrap (x : Nat) : Nat := x % 2 ^ 32

def narrow (x : Nat) : Nat := x % 2 ^ 8

def pushCarry (radix : Nat) : Nat → Nat → List Nat
  | 0, _ => []
  | fuel + 1, accumulator =>
    if accumulator = 0 then [] else narrow (accumulator % radix) ::
      pushCarry radix fuel (accumulator / radix)

def addDigit (scale radix : Nat) : List Nat → Nat → List Nat
  | [], accumulator => pushCarry radix accumulator accumulator
  | digit :: digits, accumulator =>
    let sum := wrap (accumulator + wrap (digit * scale))
    narrow (sum % radix) :: addDigit scale radix digits (sum / radix)

def accumulators (scale radix : Nat) : List Nat → Nat → List Nat
  | [], accumulator => [accumulator]
  | digit :: digits, accumulator =>
    [accumulator, digit * scale, accumulator + digit * scale] ++
      accumulators scale radix digits ((accumulator + digit * scale) / radix)

/-- The same over a whole conversion, from some digits on. -/
def allAccumulators (scale radix : Nat) : List Nat → List Nat → List Nat
  | _, [] => []
  | digits, x :: xs => accumulators scale radix digits x ++ allAccumulators scale radix
      (addDigit scale radix digits x) xs

def countLeading (bytes : List UInt8) (value : UInt8) : Nat := (bytes.takeWhile (· = value)).length

def encodeDigits (bytes : List UInt8) : List Nat :=
  bytes.foldl (fun digits byte => addDigit kByteRadix kBase58Radix digits byte.toNat) []

def encodeBase58 (bytes : List UInt8) : List Char :=
  let leadingZeros := countLeading bytes 0
  let digits := encodeDigits (bytes.drop leadingZeros)
  List.replicate leadingZeros kBase58ZeroDigit ++ digits.reverse.map fun digit =>
    kBase58Alphabet.getD digit ' '

def base58Error (message : List Char) : List Char := "sbf: base58: ".toList ++ message

def decodeBytes (text : List Char) (bytes : List Nat) : Except (List Char) (List Nat) :=
  text.foldlM (fun bytes character =>
    match kBase58Alphabet.idxOf? character with
    | none => throw (base58Error ("invalid digit '".toList ++ [character] ++ "'".toList))
    | some digit => pure (addDigit kBase58Radix kByteRadix bytes digit)) bytes

def decodeBase58 (text : List Char) : Except (List Char) (List UInt8) := do
  let leadingZeros := text.length - (text.dropWhile (· = kBase58ZeroDigit)).length
  let bytes ← decodeBytes (text.drop leadingZeros) []
  pure (List.replicate leadingZeros 0 ++ bytes.reverse.map UInt8.ofNat)

section

variable {scale radix : Nat}

lemma pushCarry_eq (hr : radix ≤ 2 ^ 8) (h0 : 0 < radix) (fuel acc : Nat) :
    pushCarry radix fuel acc = pushDigits radix fuel acc := by
  induction fuel generalizing acc with
  | zero => rfl
  | succ fuel ih =>
    have hlt : acc % radix < 2 ^ 8 := (mod_lt acc h0).trans_le hr
    rw [pushCarry, pushDigits, ih, narrow, mod_eq_of_lt hlt]

/-- With a product of both radices that 32 bits hold, the carry is exact. -/
theorem addDigit_eq (hr : radix ≤ 2 ^ 8) (h0 : 0 < radix) (hbits : radix * scale ≤ 2 ^ 32)
    {digits : List Nat} : ∀ {acc : Nat}, (∀ d ∈ digits, d < radix) → acc < scale →
      addDigit scale radix digits acc = carry scale radix digits acc := by
  induction digits with
  | nil => exact fun _ _ => pushCarry_eq hr h0 _ _
  | cons d digits ih =>
    intro acc hd hacc
    obtain ⟨hsum, hcarry⟩ := carry_bound hacc (hd d mem_cons_self)
    have hwrap : wrap (acc + wrap (d * scale)) = acc + d * scale := by
      rw [wrap, wrap, mod_eq_of_lt (show d * scale < 2 ^ 32 by omega), mod_eq_of_lt (by omega)]
    have hlt : (acc + d * scale) % radix < 2 ^ 8 := (mod_lt _ h0).trans_le hr
    rw [addDigit, carry, hwrap, narrow, mod_eq_of_lt hlt,
      ih (fun e he => hd e (mem_cons_of_mem _ he)) hcarry]

lemma accumulators_lt {digits : List Nat} : ∀ {acc : Nat}, (∀ d ∈ digits, d < radix) → acc < scale →
    0 < radix → ∀ x ∈ accumulators scale radix digits acc, x < radix * scale := by
  induction digits with
  | nil =>
    intro acc _ hacc h0 x hx
    rw [accumulators, mem_singleton] at hx
    rw [hx]
    exact hacc.trans_le (Nat.le_mul_of_pos_left scale h0)
  | cons d digits ih =>
    intro acc hd hacc h0 x hx
    obtain ⟨hsum, hcarry⟩ := carry_bound hacc (hd d mem_cons_self)
    rw [accumulators] at hx
    rcases mem_append.mp hx with hx | hx
    · simp only [mem_cons, not_mem_nil, or_false] at hx
      omega
    · exact ih (fun e he => hd e (mem_cons_of_mem _ he)) hcarry h0 x hx

lemma foldl_addDigit (hr : radix ≤ 2 ^ 8) (h1 : 1 < radix) (hbits : radix * scale ≤ 2 ^ 32)
    (xs : List Nat) : ∀ digits : List Nat, (∀ d ∈ digits, d < radix) → (∀ x ∈ xs, x < scale) →
      xs.foldl (addDigit scale radix) digits = xs.foldl (carry scale radix) digits := by
  induction xs with
  | nil => exact fun _ _ _ => rfl
  | cons x xs ih =>
    intro digits hd hx
    rw [foldl_cons, foldl_cons, addDigit_eq hr (zero_lt_of_lt h1) hbits hd (hx x mem_cons_self)]
    exact ih _ (carry_lt h1 digits x) fun y hy => hx y (mem_cons_of_mem _ hy)

lemma allAccumulators_lt (hr : radix ≤ 2 ^ 8) (h1 : 1 < radix) (hbits : radix * scale ≤ 2 ^ 32)
    (xs : List Nat) : ∀ digits : List Nat, (∀ d ∈ digits, d < radix) → (∀ x ∈ xs, x < scale) →
      ∀ y ∈ allAccumulators scale radix digits xs, y < radix * scale := by
  induction xs with
  | nil => exact fun _ _ _ _ hy => nomatch hy
  | cons x xs ih =>
    intro digits hd hx y hy
    have h0 := zero_lt_of_lt h1
    have hfirst := hx x mem_cons_self
    rw [allAccumulators] at hy
    rcases mem_append.mp hy with hy | hy
    · exact accumulators_lt hd hfirst h0 y hy
    · apply ih _ _ (fun z hz => hx z (mem_cons_of_mem _ hz)) y hy
      rw [addDigit_eq hr h0 hbits hd hfirst]
      exact carry_lt h1 digits x

end

def charOf (digit : Nat) : Char := kBase58Alphabet.getD digit ' '

lemma charOf_zero : charOf 0 = kBase58ZeroDigit := rfl

lemma idxOf?_charOf {digit : Nat} (h : digit < kBase58Radix) :
    kBase58Alphabet.idxOf? (charOf digit) = some digit := by
  have hall : ∀ d < 58, kBase58Alphabet.idxOf? (charOf d) = some d := by decide
  exact hall digit h

def digitOf (c : Char) : Nat := kBase58Alphabet.idxOf c

lemma digitOf_charOf {digit : Nat} (h : digit < kBase58Radix) : digitOf (charOf digit) = digit := by
  have hall : ∀ d < 58, digitOf (charOf d) = d := by decide
  exact hall digit h

section

variable {c : Char}

lemma digitOf_lt (h : c ∈ kBase58Alphabet) : digitOf c < kBase58Radix := idxOf_lt_length_of_mem h

lemma charOf_digitOf (h : c ∈ kBase58Alphabet) : charOf (digitOf c) = c := by
  have hlt : kBase58Alphabet.idxOf c < kBase58Alphabet.length := idxOf_lt_length_of_mem h
  rw [charOf, digitOf, getD_eq_getElem _ _ hlt, getElem_idxOf hlt]

lemma charOf_mem {digit : Nat} (h : digit < kBase58Radix) : charOf digit ∈ kBase58Alphabet := by
  have hlt : digit < kBase58Alphabet.length := h
  rw [charOf, getD_eq_getElem _ _ hlt]
  exact getElem_mem hlt

lemma idxOf?_mem (h : c ∈ kBase58Alphabet) : kBase58Alphabet.idxOf? c = some (digitOf c) := by
  have hfound := idxOf?_charOf (digitOf_lt h)
  rwa [charOf_digitOf h] at hfound

lemma digitOf_eq_zero : digitOf c = 0 ↔ c = kBase58ZeroDigit := by
  constructor
  · intro h
    rw [← charOf_zero, ← h, charOf_digitOf]
    apply idxOf_lt_length_iff.mp
    show digitOf c < _
    rw [h]
    decide
  · intro h
    rw [h]
    rfl

end

lemma drop_leading {α : Type} (p : α → Bool) (xs : List α) :
    xs.drop (xs.takeWhile p).length = xs.dropWhile p := by
  have hjoin : (xs.takeWhile p ++ xs.dropWhile p).drop (xs.takeWhile p).length = xs.dropWhile p :=
    drop_left
  rwa [takeWhile_append_dropWhile] at hjoin

lemma convert_map {α : Type} {f : α → Nat} {p : α → Bool} (hp : ∀ x, decide (f x = 0) = p x)
    {a b : Nat} (ha : 0 < a) (hb : 1 < b) (xs : List α) : convert a b (xs.map f) =
      List.replicate (xs.takeWhile p).length 0 ++ (((xs.dropWhile p).map f).foldl (carry a b)
        []).reverse := by
  have hcomp : (fun y : Nat => decide (y = 0)) ∘ f = p := funext hp
  have hzeros : (xs.map f).takeWhile (fun y => decide (y = 0)) =
      List.replicate (xs.takeWhile p).length 0 := by
    rw [takeWhile_map, hcomp, eq_replicate_iff, length_map]
    refine ⟨rfl, fun y hy => ?_⟩
    obtain ⟨x, hx, rfl⟩ := mem_map.mp hy
    exact of_decide_eq_true ((hp x).trans (mem_takeWhile_imp hx))
  rw [convert, hzeros, dropWhile_map, hcomp, ← foldl_carry ha hb]

lemma byte_lt (bytes : List UInt8) : ∀ x ∈ bytes.map UInt8.toNat, x < kByteRadix := by
  intro x hx
  obtain ⟨byte, _, rfl⟩ := mem_map.mp hx
  exact byte.toNat_lt

variable {text : List Char}

lemma digit_lt (h : ∀ c ∈ text, c ∈ kBase58Alphabet) :
    ∀ x ∈ text.map digitOf, x < kBase58Radix := by
  intro x hx
  obtain ⟨c, hc, rfl⟩ := mem_map.mp hx
  exact digitOf_lt (h c hc)

lemma encodeBase58_eq (bytes : List UInt8) :
    encodeBase58 bytes = (convert kByteRadix kBase58Radix (bytes.map UInt8.toNat)).map charOf := by
  have hp : ∀ byte : UInt8, decide (byte.toNat = 0) = decide (byte = 0) := by
    intro byte
    rw [decide_eq_decide, ← UInt8.toNat_inj]
    rfl
  rw [convert_map hp (by decide) (by decide), map_append, map_replicate, charOf_zero, encodeBase58,
    countLeading,
    drop_leading, encodeDigits,
      ← foldl_map (g := addDigit kByteRadix kBase58Radix) (f := UInt8.toNat),
    foldl_addDigit (by decide) (by decide) (by decide) _ [] (forall_mem_nil _) (byte_lt _)]
  rfl

lemma decodeBytes_ok (h : ∀ c ∈ text, c ∈ kBase58Alphabet) (bytes : List Nat) :
    decodeBytes text bytes =
      .ok ((text.map digitOf).foldl (addDigit kBase58Radix kByteRadix) bytes) := by
  induction text generalizing bytes with
  | nil => rfl
  | cons c text ih =>
    rw [decodeBytes, foldlM_cons, idxOf?_mem (h c mem_cons_self)]
    exact ih (fun e he => h e (mem_cons_of_mem _ he)) _

lemma decodeBytes_error (h : ∃ c ∈ text, c ∉ kBase58Alphabet) (bytes : List Nat) :
    ∃ e, decodeBytes text bytes = .error e := by
  induction text generalizing bytes with
  | nil =>
    obtain ⟨c, hc, _⟩ := h
    cases hc
  | cons c text ih =>
    by_cases hmem : c ∈ kBase58Alphabet
    · rw [decodeBytes, foldlM_cons, idxOf?_mem hmem]
      apply ih
      obtain ⟨e, he, hnot⟩ := h
      refine ⟨e, (mem_cons.mp he).resolve_left ?_, hnot⟩
      intro heq
      exact hnot (heq ▸ hmem)
    · rw [decodeBytes, foldlM_cons, idxOf?_eq_none_iff.mpr hmem]
      exact ⟨_, rfl⟩

lemma leading_eq (text : List Char) : text.length - (text.dropWhile (· = kBase58ZeroDigit)).length =
    (text.takeWhile (· = kBase58ZeroDigit)).length := by
  have hlen := congrArg List.length
    (takeWhile_append_dropWhile (p := fun c => decide (c = kBase58ZeroDigit)) (l := text))
  rw [length_append] at hlen
  omega

lemma mem_dropWhile {α : Type} {p : α → Bool} {xs : List α} {x : α} (h : x ∈ xs.dropWhile p) :
    x ∈ xs :=
  (dropWhile_sublist p).subset h

lemma decodeBase58_ok (h : ∀ c ∈ text, c ∈ kBase58Alphabet) :
    decodeBase58 text = .ok ((convert kBase58Radix kByteRadix (text.map digitOf)).map
      UInt8.ofNat) := by
  have hp : ∀ c : Char, decide (digitOf c = 0) = decide (c = kBase58ZeroDigit) :=
    fun c => decide_eq_decide.mpr digitOf_eq_zero
  have hrest : ∀ c ∈ text.dropWhile (· = kBase58ZeroDigit), c ∈ kBase58Alphabet :=
    fun c hc => h c (mem_dropWhile hc)
  rw [convert_map hp (by decide) (by decide), map_append, map_replicate]
  unfold decodeBase58
  dsimp only
  rw [leading_eq, drop_leading, decodeBytes_ok hrest,
    foldl_addDigit (by decide) (by decide) (by decide) _ [] (forall_mem_nil _) (digit_lt hrest)]
  rfl

lemma decodeBase58_error (h : ∃ c ∈ text, c ∉ kBase58Alphabet) :
    ∃ e, decodeBase58 text = .error e := by
  have hrest : ∃ c ∈ text.dropWhile (· = kBase58ZeroDigit), c ∉ kBase58Alphabet := by
    obtain ⟨c, hc, hnot⟩ := h
    rw [← takeWhile_append_dropWhile (p := fun c => decide (c = kBase58ZeroDigit))
      (l := text)] at hc
    refine ⟨c, (mem_append.mp hc).resolve_left ?_, hnot⟩
    intro hzero
    have hc0 := mem_takeWhile_imp hzero
    rw [of_decide_eq_true hc0] at hnot
    exact hnot (by decide)
  obtain ⟨e, he⟩ := decodeBytes_error hrest []
  refine ⟨e, ?_⟩
  unfold decodeBase58
  dsimp only
  rw [leading_eq, drop_leading, he]
  rfl

lemma encodeBase58_mem (bytes : List UInt8) : ∀ c ∈ encodeBase58 bytes, c ∈ kBase58Alphabet := by
  intro c hc
  rw [encodeBase58_eq] at hc
  obtain ⟨digit, hdigit, rfl⟩ := mem_map.mp hc
  exact charOf_mem (convert_lt (by decide) digit hdigit)

lemma decode_encode (bytes : List UInt8) : decodeBase58 (encodeBase58 bytes) = .ok bytes := by
  have hback : ((convert kByteRadix kBase58Radix (bytes.map UInt8.toNat)).map charOf).map digitOf =
      convert kByteRadix kBase58Radix (bytes.map UInt8.toNat) := by
    rw [map_map]
    refine (map_congr_left ?_).trans (map_id _)
    intro digit hdigit
    exact digitOf_charOf (convert_lt (by decide) digit hdigit)
  rw [decodeBase58_ok (encodeBase58_mem bytes), encodeBase58_eq, hback,
    convert_convert (by decide) (byte_lt bytes), map_map]
  congr 1
  refine (map_congr_left ?_).trans (map_id _)
  intro byte _
  exact UInt8.ofNat_toNat

lemma encode_decode (h : ∀ c ∈ text, c ∈ kBase58Alphabet) {bytes : List UInt8}
    (hd : decodeBase58 text = .ok bytes) : encodeBase58 bytes = text := by
  rw [decodeBase58_ok h] at hd
  obtain rfl := Except.ok.inj hd
  have hbytes : ((convert kBase58Radix kByteRadix (text.map digitOf)).map UInt8.ofNat).map
      UInt8.toNat = convert kBase58Radix kByteRadix (text.map digitOf) := by
    rw [map_map]
    refine (map_congr_left ?_).trans (map_id _)
    intro x hx
    exact UInt8.toNat_ofNat_of_lt' (convert_lt (by decide) x hx)
  rw [encodeBase58_eq, hbytes, convert_convert (by decide) (digit_lt h), map_map]
  refine (map_congr_left ?_).trans (map_id _)
  intro c hc
  exact charOf_digitOf (h c hc)

/-- Texts and byte strings correspond, and every carry fits 32 bits. -/
theorem base58_round_trip : (∀ bytes, decodeBase58 (encodeBase58 bytes) = .ok bytes) ∧
    (∀ text bytes, decodeBase58 text = .ok bytes → encodeBase58 bytes = text) ∧
    (∀ text, (∃ e, decodeBase58 text = .error e) ↔ ∃ c ∈ text, c ∉ kBase58Alphabet) ∧
    (∀ bytes : List UInt8, ∀ x ∈ allAccumulators kByteRadix kBase58Radix []
      ((bytes.drop (countLeading bytes 0)).map UInt8.toNat), x < 2 ^ 32) ∧
    ∀ text : List Char, ∀ x ∈ allAccumulators kBase58Radix kByteRadix []
      (((text.dropWhile (· = kBase58ZeroDigit)).takeWhile (· ∈ kBase58Alphabet)).map digitOf),
      x < 2 ^ 32 := by
  have hall : ∀ text : List Char, (¬ ∃ c ∈ text, c ∉ kBase58Alphabet) →
      ∀ c ∈ text, c ∈ kBase58Alphabet := by
    intro text hnot c hc
    by_contra hmem
    exact hnot ⟨c, hc, hmem⟩
  refine ⟨decode_encode, ?_, ?_, ?_, ?_⟩
  · intro text bytes hd
    refine encode_decode (hall text ?_) hd
    intro hex
    obtain ⟨e, he⟩ := decodeBase58_error hex
    exact nomatch he.symm.trans hd
  · intro text
    constructor
    · intro ⟨e, he⟩
      by_contra hnot
      exact nomatch he.symm.trans (decodeBase58_ok (hall text hnot))
    · exact decodeBase58_error
  · intro bytes x hx
    have hlt := allAccumulators_lt (by decide) (by decide) (by decide) _ [] (forall_mem_nil _)
      (byte_lt _) x hx
    exact hlt.trans (by decide)
  · intro text x hx
    have hmem : ∀ c ∈ (text.dropWhile (· = kBase58ZeroDigit)).takeWhile (· ∈ kBase58Alphabet),
        c ∈ kBase58Alphabet := by
      intro c hc
      have hc0 := mem_takeWhile_imp hc
      exact of_decide_eq_true hc0
    have hlt := allAccumulators_lt (by decide) (by decide) (by decide) _ [] (forall_mem_nil _)
      (digit_lt hmem) x hx
    exact hlt.trans (by decide)

theorem base58_round_trip_small : encodeBase58 [0, 58, 1] = ['1', '5', 'R', '2'] :=
  base58_round_trip.2.1 ['1', '5', 'R', '2'] [0, 58, 1] (by decide)

end NeverD.Sbf
