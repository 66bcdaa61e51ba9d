import Mathlib.Tactic.IntervalCases
import NeverD.Lib.Cursor

namespace NeverD.Evm
open List

open NeverD.Lib
open BitVec (ofNat toNat_ofNat ofNat_toNat setWidth_eq)
open Read (fail)
open Reads (fail)

abbrev Byte := BitVec 8

inductive MajorType
  | unsigned
  | negative
  | byteString
  | text
  | array
  | map
  | tag
  | simple
deriving DecidableEq

namespace MajorType

def code : MajorType → Nat
  | unsigned => 0
  | negative => 1
  | byteString => 2
  | text => 3
  | array => 4
  | map => 5
  | tag => 6
  | simple => 7

def ofCode : Nat → MajorType
  | 0 => unsigned
  | 1 => negative
  | 2 => byteString
  | 3 => text
  | 4 => array
  | 5 => map
  | 6 => tag
  | _ => simple

lemma ofCode_code (t : MajorType) : ofCode t.code = t := by cases t <;> rfl

lemma code_lt (t : MajorType) : t.code < 8 := by cases t <;> decide

lemma code_ofCode {n : Nat} (h : n < 8) : (ofCode n).code = n := by interval_cases n <;> rfl

end MajorType

inductive MetadataValue
  | unsigned (value : Nat)
  | byteString (bytes : List Byte)
  | text (bytes : List Byte)
  | boolean (value : Bool)
  | array (elements : List MetadataValue)
  | map (members : List (List Byte × MetadataValue))

namespace Cbor

def majorTypeShift : Nat := 5
def additionalInfoMask : Byte := 0x1f
def immediateLimit : Nat := 24
def oneByteLength : Nat := 24
def twoByteLength : Nat := 25
def falseValue : Nat := 20
def trueValue : Nat := 21
def bitsPerByte : Nat := 8
def metadataMaxItems : Nat := 32
def metadataMaxDepth : Nat := 4

def readLength : Nat → Nat → Read Byte Nat
  | 0, length => pure length
  | width + 1, length => fun c =>
    match c.input[c.position]? with
    | none => none
    | some b => readLength width ((length <<< bitsPerByte) ||| b.toNat)
        { c with position := c.position + 1 }

def remaining (c : Cursor Byte) : Option Nat :=
  if c.position ≤ c.input.length then some (c.input.length - c.position) else none

def readHead : Read Byte (MajorType × Nat) := fun c =>
  if c.failed ∨ c.input.length ≤ c.position then Read.fail c
  else match c.input[c.position]? with
    | none => none
    | some initial =>
      let c := { c with position := c.position + 1 }
      let type := MajorType.ofCode (initial >>> majorTypeShift).toNat
      let info := (initial &&& additionalInfoMask).toNat
      if info < immediateLimit then some (some (type, info), c)
      else
        let width := if info = oneByteLength then 1 else if info = twoByteLength then 2 else 0
        match remaining c with
        | none => none
        | some left =>
          if width = 0 ∨ left < width then Read.fail c
          else (do let length ← readLength width 0; pure (type, length) :
            Read Byte (MajorType × Nat)) c

def readBytes (length : Nat) : Read Byte (List Byte) := fun c =>
  if c.failed then Read.fail c
  else match remaining c with
    | none => none
    | some left =>
      if left < length then Read.fail c
      else some (some ((c.input.drop c.position).take length),
        { c with position := c.position + length })

def readMember (value : Read Byte MetadataValue) : Read Byte (List Byte × MetadataValue) := do
  let (type, length) ← readHead
  if type ≠ .text then Read.fail
  else do
    let key ← readBytes length
    let item ← value
    pure (key, item)

def readValue : Nat → Read Byte MetadataValue
  | 0 => Read.fail
  | levels + 1 => do
    let (type, argument) ← readHead
    match type with
    | .unsigned => pure (.unsigned argument)
    | .byteString => do
      let payload ← readBytes argument
      pure (.byteString payload)
    | .text => do
      let payload ← readBytes argument
      pure (.text payload)
    | .array =>
      if metadataMaxItems < argument then Read.fail
      else do
        let elements ← (readValue levels).times argument
        pure (.array elements)
    | .map =>
      if metadataMaxItems < argument then Read.fail
      else do
        let members ← (readMember (readValue levels)).times argument
        pure (.map members)
    | .simple =>
      if argument ≠ falseValue ∧ argument ≠ trueValue then Read.fail
      else pure (.boolean (argument = trueValue))
    | .negative => Read.fail
    | .tag => Read.fail

/-- The head of an item, with its argument in place or in one or two bytes behind it. -/
inductive Head : MajorType × Nat → List Byte → Prop
  | immediate (t : MajorType) (n : Nat) (hn : n < 24) :
    Head (t, n) [BitVec.ofNat 8 (32 * t.code + n)]
  | oneByte (t : MajorType) (n : Nat) (hn : n < 2 ^ 8) :
      Head (t, n) [BitVec.ofNat 8 (32 * t.code + 24), BitVec.ofNat 8 n]
  | twoBytes (t : MajorType) (n : Nat) (hn : n < 2 ^ 16) :
      Head (t, n) [BitVec.ofNat 8 (32 * t.code + 25), BitVec.ofNat 8 (n / 2 ^ 8),
        BitVec.ofNat 8 (n % 2 ^ 8)]

/-- The encodings of a value that nests less than a number of levels, with at most thirty-two items
in a container. -/
def Encodes : Nat → MetadataValue → List Byte → Prop
  | 0, _, _ => False
  | _ + 1, .unsigned n, e => Head (.unsigned, n) e
  | _ + 1, .byteString bytes, e => ∃ head, Head (.byteString, bytes.length) head ∧ e = head ++ bytes
  | _ + 1, .text bytes, e => ∃ head, Head (.text, bytes.length) head ∧ e = head ++ bytes
  | _ + 1, .boolean b, e => Head (.simple, if b then 21 else 20) e
  | levels + 1, .array elements, e => elements.length ≤ 32 ∧ ∃ head parts,
      Head (.array, elements.length) head ∧ List.Forall₂ (Encodes levels) elements parts ∧
      e = head ++ parts.flatten
  | levels + 1, .map members, e => members.length ≤ 32 ∧
      ∃ head parts, Head (.map, members.length) head ∧
      List.Forall₂ (fun member part => ∃ head e, Head (.text, member.1.length) head ∧
        Encodes levels member.2 e ∧
        part = head ++ (member.1 ++ e)) members parts ∧ e = head ++ parts.flatten

lemma getElem_behind (before rest : List Byte) (b : Byte) :
    (before ++ b :: rest)[before.length]? = some b := by
  rw [getElem?_append_right le_rfl, Nat.sub_self]
  rfl

lemma remaining_behind (before rest : List Byte) (failed : Bool) :
    remaining ⟨before ++ rest, before.length, failed⟩ = some rest.length := by
  unfold remaining
  rw [if_pos (by simp), length_append, Nat.add_sub_cancel_left]

lemma initial_split : ∀ k < 8, ∀ n < 32, (ofNat 8 (32 * k + n) >>> majorTypeShift).toNat = k ∧
    (ofNat 8 (32 * k + n) &&& additionalInfoMask).toNat = n := by
  decide

theorem exists_initial (b : Byte) : ∃ (t : MajorType) (n : Nat), n < 32 ∧
    b = ofNat 8 (32 * t.code + n) := by
  refine ⟨.ofCode (b.toNat / 32), b.toNat % 32, Nat.mod_lt _ (by decide), ?_⟩
  have hlt : b.toNat < 2 ^ 8 := b.isLt
  rw [MajorType.code_ofCode (by omega)]
  apply BitVec.eq_of_toNat_eq
  rw [toNat_ofNat]
  omega

lemma join_byte (n : Nat) (b : Byte) : (n <<< bitsPerByte) ||| b.toNat = 2 ^ 8 * n + b.toNat := by
  have hlt : b.toNat < 2 ^ bitsPerByte := b.isLt
  rw [← Nat.shiftLeft_add_eq_or_of_lt hlt, Nat.shiftLeft_eq, mul_comm]
  rfl

lemma readLength_succ {input : List Byte} {position : Nat} {b : Byte}
    (hb : input[position]? = some b)
    (width length : Nat) : readLength (width + 1) length ⟨input, position, false⟩ =
      readLength width (2 ^ 8 * length + b.toNat) ⟨input, position + 1, false⟩ := by
  rw [readLength]
  dsimp only
  rw [hb]
  dsimp only
  rw [join_byte]

theorem readHead_initial (before rest : List Byte) (t : MajorType) {n : Nat} (hn : n < 32) :
    readHead ⟨before ++ ofNat 8 (32 * t.code + n) :: rest, before.length, false⟩ =
      let c : Cursor Byte := ⟨before ++ ofNat 8 (32 * t.code + n) :: rest, before.length + 1, false⟩
      if n < 24 then some (some (t, n), c)
      else if n = 24 then match rest with
        | b :: _ => some (some (t, b.toNat), { c with position := before.length + 2 })
        | [] => fail c
      else if n = 25 then match rest with
        | b :: b' :: _ => some (some (t, 2 ^ 8 * b.toNat + b'.toNat),
            { c with position := before.length + 3 })
        | _ => fail c
      else fail c := by
  obtain ⟨hcode, hinfo⟩ := initial_split t.code t.code_lt n hn
  have hremaining : remaining ⟨before ++ ofNat 8 (32 * t.code + n) :: rest, before.length + 1,
      false⟩ = some rest.length := by
    have h := remaining_behind (before ++ [ofNat 8 (32 * t.code + n)]) rest false
    simpa using h
  unfold readHead
  rw [if_neg (by simp)]
  rw [getElem_behind]
  dsimp only
  rw [hcode, hinfo, MajorType.ofCode_code, hremaining]
  dsimp only
  change (if n < 24 then _ else _) = _
  have hsecond : ∀ b rest', rest = b :: rest' →
      (before ++ ofNat 8 (32 * t.code + n) :: rest)[before.length + 1]? = some b := by
    intro b rest' hrest
    have h := getElem_behind (before ++ [ofNat 8 (32 * t.code + n)]) rest' b
    rw [hrest]
    rw [append_assoc, length_append] at h
    exact h
  by_cases himmediate : n < 24
  · rw [if_pos himmediate, if_pos himmediate]
  · rw [if_neg himmediate, if_neg himmediate]
    by_cases hone : n = 24
    · rw [if_pos (show n = oneByteLength from hone), if_pos hone]
      cases rest with
      | nil => simp
      | cons b rest =>
        rw [if_neg (by simp)]
        change Read.bind (readLength 1 0) _ _ = _
        unfold Read.bind
        rw [readLength_succ (hsecond b rest rfl)]
        simp [readLength, pure]
    · rw [if_neg (show ¬n = oneByteLength from hone), if_neg hone]
      by_cases htwo : n = 25
      · rw [if_pos (show n = twoByteLength from htwo), if_pos htwo]
        match rest, hsecond with
        | [], _ => simp
        | [b], _ => simp
        | b :: b' :: rest, hsecond =>
          rw [if_neg (by simp)]
          change Read.bind (readLength 2 0) _ _ = _
          unfold Read.bind
          have hthird : (before ++ ofNat 8 (32 * t.code + n) :: b :: b' :: rest)[before.length +
              1 + 1]? = some b' := by
            have h := getElem_behind (before ++ [ofNat 8 (32 * t.code + n), b]) rest b'
            rw [append_assoc, length_append] at h
            exact h
          rw [readLength_succ (hsecond b _ rfl), readLength_succ hthird]
          simp [readLength, pure]
      · rw [if_neg (show ¬n = twoByteLength from htwo), if_neg htwo, if_pos (.inl rfl)]

lemma readHead_reads : Reads readHead Head := by
  constructor
  · intro before e rest a h
    cases h with
    | immediate t n hn =>
      rw [cons_append, readHead_initial _ _ _ (by omega)]
      rw [if_pos hn]
      rfl
    | oneByte t n hn =>
      rw [cons_append, readHead_initial _ _ _ (by omega)]
      simpa using hn
    | twoBytes t n hn =>
      rw [cons_append, readHead_initial _ _ _ (by omega)]
      have hhigh : n / 2 ^ 8 % 2 ^ 8 = n / 2 ^ 8 := Nat.mod_eq_of_lt (by omega)
      simp only [cons_append, nil_append, length_cons, length_nil, toNat_ofNat, hhigh, Nat.mod_mod]
      simp
      omega
  · intro before input
    cases input with
    | nil =>
      refine ⟨none, ⟨before ++ [], before.length, true⟩, ?_, ?_⟩
      · unfold readHead
        rw [if_pos (.inr (by simp))]
        rfl
      · simp
    | cons b input =>
      obtain ⟨t, n, hn, hb⟩ := exists_initial b
      rw [hb, readHead_initial _ _ _ hn]
      have hfail : ∀ c : Cursor Byte, c = ⟨before ++ ofNat 8 (32 * t.code + n) :: input,
          before.length + 1, false⟩ →
          ∃ result c', fail c = some (result, c') ∧ c'.input = c.input ∧
            before.length ≤ c'.position ∧
            c'.position ≤ c.input.length ∧ (result = none → c'.failed = true) ∧
            ∀ a, result = some a → ∃ e rest, ofNat 8 (32 * t.code + n) :: input = e ++ rest ∧
              Head a e ∧
              c' = ⟨before ++ ofNat 8 (32 * t.code + n) :: input, before.length + e.length,
                false⟩ := by
        intro c hc
        rw [hc]
        exact ⟨none, _, rfl, rfl, by simp, by simp, fun _ => rfl, fun a ha => (nomatch ha)⟩
      have hfail := hfail _ rfl
      by_cases himmediate : n < 24
      · rw [if_pos himmediate]
        refine ⟨_, _, rfl, rfl, by simp, by simp, fun h => (nomatch h), ?_⟩
        intro a ha
        rw [← Option.some.inj ha]
        exact ⟨[ofNat 8 (32 * t.code + n)], input, rfl, .immediate t n himmediate, rfl⟩
      · rw [if_neg himmediate]
        by_cases hone : n = 24
        · rw [if_pos hone]
          match input, hfail with
          | [], hfail => exact hfail
          | b :: rest, _ =>
            refine ⟨_, _, rfl, rfl, by simp, by simp, fun h => (nomatch h), ?_⟩
            intro a ha
            rw [← Option.some.inj ha]
            refine ⟨[ofNat 8 (32 * t.code + n), b], rest, rfl, ?_, rfl⟩
            have h := Head.oneByte t b.toNat b.isLt
            rw [ofNat_toNat, setWidth_eq, ← hone] at h
            exact h
        · rw [if_neg hone]
          by_cases htwo : n = 25
          · rw [if_pos htwo]
            match input, hfail with
            | [], hfail => exact hfail
            | [_], hfail => exact hfail
            | b :: b' :: rest, _ =>
              refine ⟨_, _, rfl, rfl, by simp, by simp, fun h => (nomatch h), ?_⟩
              intro a ha
              rw [← Option.some.inj ha]
              refine ⟨[ofNat 8 (32 * t.code + n), b, b'], rest, rfl, ?_, rfl⟩
              have hb' : b'.toNat < 2 ^ 8 := b'.isLt
              have hlt : 2 ^ 8 * b.toNat + b'.toNat < 2 ^ 16 := by
                have : b.toNat < 2 ^ 8 := b.isLt
                omega
              have h := Head.twoBytes t _ hlt
              rw [show (2 ^ 8 * b.toNat + b'.toNat) / 2 ^ 8 = b.toNat by omega,
                show (2 ^ 8 * b.toNat + b'.toNat) % 2 ^ 8 = b'.toNat by
                  omega, ofNat_toNat, setWidth_eq,
                ofNat_toNat, setWidth_eq, ← htwo] at h
              exact h
          · rw [if_neg htwo]
            exact hfail

lemma readBytes_reads (length : Nat) :
    Reads (readBytes length) fun bytes e => bytes.length = length ∧ e = bytes := by
  constructor
  · intro before e rest bytes h
    unfold readBytes
    rw [h.2, if_neg (by simp)]
    rw [remaining_behind]
    dsimp only
    rw [if_neg (by rw [length_append]; omega), drop_left, ← h.1, take_left]
  · intro before input
    unfold readBytes
    rw [if_neg (by simp)]
    rw [remaining_behind]
    dsimp only
    by_cases hshort : input.length < length
    · rw [if_pos hshort]
      exact ⟨none, _, rfl, rfl, le_rfl, by simp, fun _ => rfl, fun a ha => (nomatch ha)⟩
    · rw [if_neg hshort, drop_left]
      refine ⟨_, _, rfl, rfl, by simp, by simp; omega, fun h => (nomatch h), ?_⟩
      intro bytes hbytes
      rw [← Option.some.inj hbytes]
      have hlength : (input.take length).length = length := by
        rw [length_take]
        omega
      refine ⟨input.take length, input.drop length, (take_append_drop _ _).symm, ⟨hlength, rfl⟩, ?_⟩
      rw [hlength]

lemma readMember_reads {value : Read Byte MetadataValue} {E : MetadataValue → List Byte → Prop}
    (h : Reads value E) :
    Reads (readMember value) fun member part => ∃ head e, Head (.text, member.1.length) head ∧
      E member.2 e ∧ part = head ++ (member.1 ++ e) := by
  have hrest : ∀ a : MajorType × Nat, Reads (if a.1 ≠ .text then fail else do
      let key ← readBytes a.2
      let item ← value
      pure (key, item) : Read Byte (List Byte × MetadataValue)) fun member part => a.1 = .text ∧
        a.2 = member.1.length ∧ ∃ e, E member.2 e ∧ part = member.1 ++ e := by
    intro a
    split
    next htype =>
      apply fail.congr
      intro member part
      exact ⟨fun h => h.elim, fun h => htype h.1⟩
    next htype =>
      apply ((readBytes_reads a.2).bind fun key => h.bind fun item => .pure (key, item)).congr
      intro member part
      constructor
      · intro hm
        obtain ⟨key, d, d', ⟨hlength, hd⟩, ⟨item, c, c', hc, ⟨hmember, hc'⟩, hd'⟩, hpart⟩ := hm
        rw [hmember]
        refine ⟨not_not.mp htype, hlength.symm, c, hc, ?_⟩
        rw [hpart, hd', hd, hc', append_nil]
      · intro hm
        obtain ⟨-, hlength, e, he, hpart⟩ := hm
        exact ⟨member.1, member.1, e, ⟨hlength.symm, rfl⟩,
          ⟨member.2, e, [], he, ⟨rfl, rfl⟩, (append_nil e).symm⟩, hpart⟩
  apply (readHead_reads.bind hrest).congr
  intro member part
  constructor
  · intro hm
    obtain ⟨a, d, d', hd, ⟨htype, hlength, e, he, hd'⟩, hpart⟩ := hm
    refine ⟨d, e, ?_, he, by rw [hpart, hd']⟩
    rw [← htype, ← hlength]
    exact hd
  · intro hm
    obtain ⟨head, e, hhead, he, hpart⟩ := hm
    exact ⟨(.text, member.1.length), head, member.1 ++ e, hhead, ⟨rfl, rfl, e, he, rfl⟩, hpart⟩

def Body (levels : Nat) (head : MajorType × Nat) : MetadataValue → List Byte → Prop
  | .unsigned n, e => head = (.unsigned, n) ∧ e = []
  | .byteString bytes, e => head = (.byteString, bytes.length) ∧ e = bytes
  | .text bytes, e => head = (.text, bytes.length) ∧ e = bytes
  | .boolean b, e => head = (.simple, if b then 21 else 20) ∧ e = []
  | .array elements, e => head = (.array, elements.length) ∧ elements.length ≤ 32 ∧
      ∃ parts, List.Forall₂ (Encodes levels) elements parts ∧ e = parts.flatten
  | .map members, e => head = (.map, members.length) ∧ members.length ≤ 32 ∧
      ∃ parts, List.Forall₂ (fun member part => ∃ head e, Head (.text, member.1.length) head ∧
        Encodes levels member.2 e ∧
        part = head ++ (member.1 ++ e)) members parts ∧ e = parts.flatten

lemma encodes_succ (levels : Nat) (v : MetadataValue) (e : List Byte) :
    Encodes (levels + 1) v e ↔ ∃ head d d', Head head d ∧ Body levels head v d' ∧ e = d ++ d' := by
  cases v with
  | unsigned n =>
    constructor
    · intro h
      exact ⟨_, e, [], h, ⟨rfl, rfl⟩, (append_nil e).symm⟩
    · intro h
      obtain ⟨head, d, d', hd, ⟨hhead, hd'⟩, he⟩ := h
      rw [he, hd', append_nil, Encodes, ← hhead]
      exact hd
  | byteString bytes | text bytes =>
    constructor
    · intro h
      obtain ⟨head, hhead, he⟩ := h
      exact ⟨_, head, bytes, hhead, ⟨rfl, rfl⟩, he⟩
    · intro h
      obtain ⟨head, d, d', hd, ⟨hhead, hd'⟩, he⟩ := h
      exact ⟨d, hhead ▸ hd, by rw [he, hd']⟩
  | boolean b =>
    constructor
    · intro h
      exact ⟨_, e, [], h, ⟨rfl, rfl⟩, (append_nil e).symm⟩
    · intro h
      obtain ⟨head, d, d', hd, ⟨hhead, hd'⟩, he⟩ := h
      rw [he, hd', append_nil, Encodes, ← hhead]
      exact hd
  | array elements =>
    constructor
    · intro h
      obtain ⟨hitems, head, parts, hhead, hparts, he⟩ := h
      exact ⟨_, head, _, hhead, ⟨rfl, hitems, parts, hparts, rfl⟩, he⟩
    · intro h
      obtain ⟨head, d, d', hd, ⟨hhead, hitems, parts, hparts, hd'⟩, he⟩ := h
      exact ⟨hitems, d, parts, hhead ▸ hd, hparts, by rw [he, hd']⟩
  | map members =>
    constructor
    · intro h
      obtain ⟨hitems, head, parts, hhead, hparts, he⟩ := h
      exact ⟨_, head, _, hhead, ⟨rfl, hitems, parts, hparts, rfl⟩, he⟩
    · intro h
      obtain ⟨head, d, d', hd, ⟨hhead, hitems, parts, hparts, hd'⟩, he⟩ := h
      exact ⟨hitems, d, parts, hhead ▸ hd, hparts, by rw [he, hd']⟩

lemma readItems_reads {α : Type} {item : Read Byte α} {E : α → List Byte → Prop} (h : Reads item E)
    (n : Nat) (c : List α → MetadataValue) :
    Reads (if metadataMaxItems < n then fail
      else do let items ← item.times n; pure (c items) : Read Byte MetadataValue)
      fun v e => ∃ items, v = c items ∧ items.length = n ∧ n ≤ 32 ∧
        ∃ parts, List.Forall₂ E items parts ∧ e = parts.flatten := by
  unfold metadataMaxItems
  split
  · apply Reads.fail.congr
    intro v e
    constructor
    · exact False.elim
    · intro hv
      obtain ⟨items, -, -, hle, -⟩ := hv
      omega
  · apply ((h.times n).map c).congr
    intro v e
    constructor
    · intro hv
      obtain ⟨items, hv, hlength, hparts⟩ := hv
      exact ⟨items, hv, hlength, by omega, hparts⟩
    · intro hv
      obtain ⟨items, hv, hlength, -, hparts⟩ := hv
      exact ⟨items, hv, hlength, hparts⟩

lemma readBody_reads {levels : Nat} (h : Reads (readValue levels) (Encodes levels))
    (head : MajorType × Nat) : Reads (match head.1 with
      | .unsigned => pure (.unsigned head.2)
      | .byteString => do
        let payload ← readBytes head.2
        pure (.byteString payload)
      | .text => do
        let payload ← readBytes head.2
        pure (.text payload)
      | .array =>
        if metadataMaxItems < head.2 then fail
        else do
          let elements ← (readValue levels).times head.2
          pure (.array elements)
      | .map =>
        if metadataMaxItems < head.2 then fail
        else do
          let members ← (readMember (readValue levels)).times head.2
          pure (.map members)
      | .simple => if head.2 ≠ falseValue ∧ head.2 ≠ trueValue then fail
          else pure (.boolean (head.2 = trueValue))
      | .negative => fail
      | .tag => fail : Read Byte MetadataValue) (Body levels head) := by
  obtain ⟨t, n⟩ := head
  cases t with
  | unsigned =>
    apply (Reads.pure _).congr
    intro v e
    cases v <;> simp [Body, eq_comm]
  | byteString =>
    apply ((readBytes_reads n).map MetadataValue.byteString).congr
    intro v e
    cases v with
    | byteString bytes =>
      constructor
      · intro hv
        obtain ⟨payload, hbytes, hlength, he⟩ := hv
        rw [MetadataValue.byteString.inj hbytes]
        exact ⟨by rw [hlength], he⟩
      · intro hv
        exact ⟨bytes, rfl, (Prod.mk.inj hv.1).2.symm, hv.2⟩
    | _ => simp [Body]
  | text =>
    apply ((readBytes_reads n).map MetadataValue.text).congr
    intro v e
    cases v with
    | text bytes =>
      constructor
      · intro hv
        obtain ⟨payload, hbytes, hlength, he⟩ := hv
        rw [MetadataValue.text.inj hbytes]
        exact ⟨by rw [hlength], he⟩
      · intro hv
        exact ⟨bytes, rfl, (Prod.mk.inj hv.1).2.symm, hv.2⟩
    | _ => simp [Body]
  | array =>
    apply (readItems_reads h n MetadataValue.array).congr
    intro v e
    cases v with
    | array elements =>
      constructor
      · intro hv
        obtain ⟨items, hitems, hlength, hle, hparts⟩ := hv
        rw [MetadataValue.array.inj hitems]
        exact ⟨by rw [hlength], hlength.trans_le hle, hparts⟩
      · intro hv
        obtain ⟨hn, hle, hparts⟩ := hv
        have hlength := (Prod.mk.inj hn).2
        exact ⟨elements, rfl, hlength.symm, hlength.trans_le hle, hparts⟩
    | _ => simp [Body]
  | map =>
    apply (readItems_reads (readMember_reads h) n MetadataValue.map).congr
    intro v e
    cases v with
    | map members =>
      constructor
      · intro hv
        obtain ⟨items, hitems, hlength, hle, hparts⟩ := hv
        rw [MetadataValue.map.inj hitems]
        exact ⟨by rw [hlength], hlength.trans_le hle, hparts⟩
      · intro hv
        obtain ⟨hn, hle, hparts⟩ := hv
        have hlength := (Prod.mk.inj hn).2
        exact ⟨members, rfl, hlength.symm, hlength.trans_le hle, hparts⟩
    | _ => simp [Body]
  | simple =>
    dsimp only
    unfold falseValue trueValue
    split
    next hother =>
      apply fail.congr
      intro v e
      cases v with
      | boolean b => cases b <;> simp [Body, hother]
      | _ => simp [Body]
    next hboolean =>
      apply (Reads.pure _).congr
      intro v e
      cases v with
      | boolean b =>
        rcases (show n = 20 ∨ n = 21 by omega) with hn | hn
        · rw [hn]
          cases b <;> simp [Body]
        · rw [hn]
          cases b <;> simp [Body]
      | _ => simp [Body]
  | negative | tag =>
    apply fail.congr
    intro v e
    cases v <;> simp [Body]

/-- Values are read back from their encodings, and nothing else is read. -/
theorem readValue_reads (levels : Nat) : Reads (readValue levels) (Encodes levels) := by
  induction levels with
  | zero =>
    apply fail.congr
    intro v e
    rfl
  | succ levels ih =>
    apply (readHead_reads.bind (readBody_reads ih)).congr
    intro v e
    exact (encodes_succ levels v e).symm

end Cbor

end NeverD.Evm
