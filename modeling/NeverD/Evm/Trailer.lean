import NeverD.Evm.Metadata

namespace NeverD.Evm
open List

open NeverD.Lib Cbor

def metadataLengthBytes : Nat := 2

inductive MetadataLanguage
  | unknown
  | solidity
  | vyper
deriving DecidableEq

inductive MetadataFieldKind
  | compilerVersion
  | sourceHash
  | flag
deriving DecidableEq

inductive MetadataField
  | solc
  | vyper
  | ipfs
  | swarm0
  | swarm1
  | experimental
deriving DecidableEq

structure MetadataFieldInfo where
  id : MetadataField
  kind : MetadataFieldKind
  language : MetadataLanguage
  key : String
deriving DecidableEq

def metadataFieldInfos : List MetadataFieldInfo :=
  [⟨.solc, .compilerVersion, .solidity, "solc"⟩, ⟨.vyper, .compilerVersion, .vyper, "vyper"⟩,
    ⟨.ipfs, .sourceHash, .unknown, "ipfs"⟩, ⟨.swarm0, .sourceHash, .unknown, "bzzr0"⟩,
    ⟨.swarm1, .sourceHash, .unknown, "bzzr1"⟩, ⟨.experimental, .flag, .unknown, "experimental"⟩]

def keyBytes (key : String) : List Byte := key.toList.map fun c => BitVec.ofNat 8 c.toNat

def findMetadataField (key : List Byte) : Option MetadataFieldInfo :=
  metadataFieldInfos.find? fun info => keyBytes info.key = key

inductive MetadataValueKind
  | unsigned
  | byteString
  | text
  | boolean
  | array
  | map
deriving DecidableEq

def MetadataValue.kind : MetadataValue → MetadataValueKind
  | .unsigned _ => .unsigned
  | .byteString _ => .byteString
  | .text _ => .text
  | .boolean _ => .boolean
  | .array _ => .array
  | .map _ => .map

structure MetadataEntry where
  key : List Byte
  field : Option MetadataFieldInfo
  value : MetadataValue

inductive MetadataContainer
  | solidityMap
  | vyperSequence
deriving DecidableEq

def MetadataContainer.lengthCountsItself : MetadataContainer → Bool
  | .solidityMap => false
  | .vyperSequence => true

def metadataContainers : List MetadataContainer := [.solidityMap, .vyperSequence]

inductive MetadataSequenceElement
  | compilerMap
  | immutableSectionLength
  | dataSectionLengths
  | runtimeCodeLength
  | integrityHash
deriving DecidableEq

structure MetadataSequenceElementInfo where
  id : MetadataSequenceElement
  positionFromEnd : Nat
  valueKind : MetadataValueKind
  required : Bool
deriving DecidableEq

def metadataSequenceElementInfos : List MetadataSequenceElementInfo :=
  [⟨.compilerMap, 0, .map, true⟩, ⟨.immutableSectionLength, 1, .unsigned, true⟩,
    ⟨.dataSectionLengths, 2, .array, true⟩, ⟨.runtimeCodeLength, 3, .unsigned, true⟩,
    ⟨.integrityHash, 4, .byteString, false⟩]

def findMetadataSequenceElement (positionFromEnd : Nat) : Option MetadataSequenceElementInfo :=
  metadataSequenceElementInfos.find? fun info => info.positionFromEnd = positionFromEnd

def minMetadataSequenceLength : Nat :=
  (metadataSequenceElementInfos.filter fun info => info.required).length
def maxMetadataSequenceLength : Nat := metadataSequenceElementInfos.length

structure MetadataSequenceEntry where
  element : MetadataSequenceElementInfo
  value : MetadataValue

structure ContractMetadata where
  container : MetadataContainer
  offset : Nat
  size : Nat
  entries : List MetadataEntry
  sequence : List MetadataSequenceEntry

def readCompilerMap : MetadataValue → Option (List MetadataEntry)
  | .map members =>
    let entries :=
      members.map fun (key, value) => MetadataEntry.mk key (findMetadataField key) value
    if entries.any fun entry => entry.field.isSome then some entries else none
  | _ => none

def readSequence (length : Nat) : List MetadataValue → Nat → ContractMetadata →
    Option ContractMetadata
  | [], _, metadata => some metadata
  | value :: rest, index, metadata =>
    match findMetadataSequenceElement (length - 1 - index) with
    | none => none
    | some element =>
      if element.valueKind ≠ value.kind then none
      else if element.valueKind = .map then
        match readCompilerMap value with
        | none => none
        | some entries => readSequence length rest (index + 1) { metadata with entries := entries }
      else
        readSequence length rest (index + 1) { metadata with
            sequence := metadata.sequence ++ [⟨element, value⟩] }

def readContainer (metadata : ContractMetadata) (value : MetadataValue) : Option ContractMetadata :=
  match metadata.container with
  | .solidityMap => (readCompilerMap value).map fun entries => { metadata with entries := entries }
  | .vyperSequence =>
    match value with
    | .array elements =>
      if elements.length < minMetadataSequenceLength ∨
        maxMetadataSequenceLength < elements.length then none
      else readSequence elements.length elements 0 metadata
    | _ => none

def declaredLength (code : List Byte) : Nat → Nat → Nat → Option Nat
  | 0, _, declared => some declared
  | n + 1, i, declared =>
    match code[i]? with
    | none => none
    | some b => declaredLength code n (i + 1) ((declared <<< bitsPerByte) ||| b.toNat)

/-- Read the footer of a container. -/
def readFooter (code : List Byte) (container : MetadataContainer) :
    Option (Option ContractMetadata) :=
  if code.length ≤ metadataLengthBytes then some none
  else match declaredLength code metadataLengthBytes (code.length - metadataLengthBytes) 0 with
    | none => none
    | some declared =>
      let total := if container.lengthCountsItself then declared else declared + metadataLengthBytes
      if total ≤ metadataLengthBytes ∨ code.length < total then some none
      else
        let metadata := ContractMetadata.mk container (code.length - total) total [] []
        let slice := (code.drop metadata.offset).take (total - metadataLengthBytes)
        match readValue (metadataMaxDepth + 1) ⟨slice, 0, false⟩ with
        | none => none
        | some (none, _) => some none
        | some (some value, c) =>
          if c.position ≠ c.input.length then some none else some (readContainer metadata value)

def findFooter (code : List Byte) : List MetadataContainer → Option (Option ContractMetadata)
  | [] => some none
  | container :: rest =>
    match readFooter code container with
    | none => none
    | some (some metadata) => some (some metadata)
    | some none => findFooter code rest

def findContractMetadata (code : List Byte) : Option (Option ContractMetadata) :=
  findFooter code metadataContainers

/-- Values that nest less than a number of levels, with few items in a container and short numbers
and texts. -/
def Within : Nat → MetadataValue → Prop
  | 0, _ => False
  | _ + 1, .unsigned n => n < 2 ^ 16
  | _ + 1, .byteString bytes => bytes.length < 2 ^ 16
  | _ + 1, .text bytes => bytes.length < 2 ^ 16
  | _ + 1, .boolean _ => True
  | levels + 1, .array elements => elements.length ≤ 32 ∧ ∀ v ∈ elements, Within levels v
  | levels + 1, .map members => members.length ≤ 32 ∧ ∀ m ∈ members, m.1.length < 2 ^ 16 ∧
      Within levels m.2

lemma head_iff (t : MajorType) {n : Nat} : (∃ e, Head (t, n) e) ↔ n < 2 ^ 16 := by
  constructor
  · intro h
    obtain ⟨e, he⟩ := h
    cases he with
    | immediate _ _ hn => omega
    | oneByte _ _ hn => omega
    | twoBytes _ _ hn => exact hn
  · intro hn
    exact ⟨_, .twoBytes t n hn⟩

lemma forall₂_exists {α β : Type} {R : α → β → Prop} {as : List α} :
    (∃ bs, List.Forall₂ R as bs) ↔ ∀ a ∈ as, ∃ b, R a b := by
  induction as with
  | nil => exact ⟨fun _ a ha => (not_mem_nil ha).elim, fun _ => ⟨[], .nil⟩⟩
  | cons a as ih =>
    rw [forall_mem_cons, ← ih]
    constructor
    · intro h
      obtain ⟨bs, hbs⟩ := h
      cases hbs with
      | cons hb hbs => exact ⟨⟨_, hb⟩, _, hbs⟩
    · intro h
      obtain ⟨⟨b, hb⟩, bs, hbs⟩ := h
      exact ⟨b :: bs, .cons hb hbs⟩

lemma within_iff {levels : Nat} {v : MetadataValue} : Within levels v ↔
    ∃ e, Encodes levels v e := by
  induction levels generalizing v with
  | zero => exact ⟨fun h => h.elim, fun h => h.choose_spec.elim⟩
  | succ levels ih =>
    cases v with
    | unsigned n => exact (head_iff .unsigned).symm
    | byteString bytes =>
      rw [Within, ← head_iff .byteString]
      exact ⟨fun ⟨head, h⟩ => ⟨_, head, h, rfl⟩, fun ⟨_, head, h, _⟩ => ⟨head, h⟩⟩
    | text bytes =>
      rw [Within, ← head_iff .text]
      exact ⟨fun ⟨head, h⟩ => ⟨_, head, h, rfl⟩, fun ⟨_, head, h, _⟩ => ⟨head, h⟩⟩
    | boolean b =>
      rw [Within, true_iff]
      exact (head_iff .simple).mpr (by cases b <;> decide)
    | array elements =>
      have hall : (∀ v ∈ elements, Within levels v) ↔
          ∃ parts, List.Forall₂ (Encodes levels) elements parts := by
        rw [forall₂_exists]
        exact ⟨fun h v hv => ih.mp (h v hv), fun h v hv => ih.mpr (h v hv)⟩
      rw [Within, hall]
      constructor
      · intro h
        obtain ⟨hitems, parts, hparts⟩ := h
        obtain ⟨head, hhead⟩ := (head_iff .array).mpr (show elements.length < 2 ^ 16 by omega)
        exact ⟨_, hitems, head, parts, hhead, hparts, rfl⟩
      · intro h
        obtain ⟨e, hitems, head, parts, hhead, hparts, he⟩ := h
        exact ⟨hitems, parts, hparts⟩
    | map members =>
      have hall : (∀ m ∈ members, m.1.length < 2 ^ 16 ∧ Within levels m.2) ↔
          ∃ parts, List.Forall₂ (fun member part => ∃ head e, Head (.text, member.1.length) head ∧
            Encodes levels member.2 e ∧ part = head ++ (member.1 ++ e)) members parts := by
        rw [forall₂_exists]
        constructor
        · intro h m hm
          obtain ⟨head, hhead⟩ := (head_iff .text).mpr (h m hm).1
          obtain ⟨e, he⟩ := ih.mp (h m hm).2
          exact ⟨_, head, e, hhead, he, rfl⟩
        · intro h m hm
          obtain ⟨part, head, e, hhead, he, -⟩ := h m hm
          exact ⟨(head_iff .text).mp ⟨head, hhead⟩, ih.mpr ⟨e, he⟩⟩
      rw [Within, hall]
      constructor
      · intro h
        obtain ⟨hitems, parts, hparts⟩ := h
        obtain ⟨head, hhead⟩ := (head_iff .map).mpr (show members.length < 2 ^ 16 by omega)
        exact ⟨_, hitems, head, parts, hhead, hparts, rfl⟩
      · intro h
        obtain ⟨e, hitems, head, parts, hhead, hparts, he⟩ := h
        exact ⟨hitems, parts, hparts⟩

theorem encodes_unique {levels : Nat} {v w : MetadataValue} {e : List Byte}
    (hv : Encodes levels v e) (hw : Encodes levels w e) : w = v := by
  have h1 := (readValue_reads levels).complete [] e [] v hv
  have h2 := (readValue_reads levels).complete [] e [] w hw
  rw [h1] at h2
  exact (Option.some.inj (Prod.mk.inj (Option.some.inj h2)).1).symm

lemma exists_last_two {code : List Byte} (h : 2 < code.length) :
    ∃ front hi lo, code = front ++ [hi, lo] := by
  rcases eq_nil_or_concat code with hnil | ⟨front, lo, hcode⟩
  · rw [hnil] at h
    cases h
  · rcases eq_nil_or_concat front with hnil | ⟨front', hi, hfront⟩
    · rw [hcode, hnil] at h
      simp at h
    · exact ⟨front', hi, lo, by rw [hcode, hfront]; simp⟩

lemma declaredLength_last (front : List Byte) (hi lo : Byte) :
    declaredLength (front ++ [hi, lo]) metadataLengthBytes
      ((front ++ [hi, lo]).length - metadataLengthBytes) 0 =
      some (2 ^ 8 * hi.toNat + lo.toNat) := by
  have hlength : (front ++ [hi, lo]).length - metadataLengthBytes = front.length := by
    rw [length_append]
    rfl
  have hsecond : (front ++ [hi, lo])[front.length + 1]? = some lo := by
    have h := getElem_behind (front ++ [hi]) [] lo
    rw [append_assoc, length_append] at h
    exact h
  rw [hlength]
  unfold metadataLengthBytes
  simp only [declaredLength]
  rw [getElem_behind]
  rw [hsecond]
  dsimp only
  rw [join_byte, join_byte]
  simp

/-- A footer frames one value, at the end of the code. -/
structure Framed (code : List Byte) (metadata : ContractMetadata) : Prop where
  whole : metadata.offset + metadata.size = code.length
  framed : ∃ front e hi lo v, code = front ++ (e ++ [hi, lo]) ∧ metadata.offset = front.length ∧
    metadata.size = e.length + 2 ∧
    2 ^ 8 * hi.toNat + lo.toNat = (if metadata.container.lengthCountsItself then e.length + 2
      else e.length) ∧
    Encodes (metadataMaxDepth + 1) v e ∧ (∀ w, Encodes (metadataMaxDepth + 1) w e → w = v) ∧
    readContainer ⟨metadata.container, metadata.offset, metadata.size, [], []⟩ v = some metadata

lemma readSequence_keeps {length index : Nat} {values : List MetadataValue}
    {metadata result : ContractMetadata}
    (h : readSequence length values index metadata = some result) :
    result.container = metadata.container ∧ result.offset = metadata.offset ∧
      result.size = metadata.size := by
  induction values generalizing index metadata with
  | nil =>
    rw [← Option.some.inj h]
    exact ⟨rfl, rfl, rfl⟩
  | cons value values ih =>
    unfold readSequence at h
    split at h
    · cases h
    · split at h
      · cases h
      · split at h
        · split at h
          · cases h
          · have hkeeps := ih h
            exact hkeeps
        · have hkeeps := ih h
          exact hkeeps

lemma readContainer_keeps {metadata result : ContractMetadata} {v : MetadataValue}
    (h : readContainer metadata v = some result) :
    result.container = metadata.container ∧ result.offset = metadata.offset ∧
      result.size = metadata.size := by
  unfold readContainer at h
  split at h
  · obtain ⟨entries, -, hentries⟩ := Option.map_eq_some_iff.mp h
    rw [← hentries]
    exact ⟨rfl, rfl, rfl⟩
  · split at h
    · split at h
      · cases h
      · exact readSequence_keeps h
    · cases h

theorem readFooter_framed (code : List Byte) (container : MetadataContainer) :
    ∃ result, readFooter code container = some result ∧ ∀ metadata, result = some metadata →
      Framed code metadata := by
  unfold readFooter
  split
  · exact ⟨none, rfl, fun metadata h => (nomatch h)⟩
  next hlong =>
    obtain ⟨front, hi, lo, hcode⟩ := exists_last_two (not_le.mp hlong)
    rw [hcode, declaredLength_last]
    dsimp only
    generalize htotal : (if container.lengthCountsItself = true then 2 ^ 8 * hi.toNat + lo.toNat
      else 2 ^ 8 * hi.toNat + lo.toNat + metadataLengthBytes) = total
    split
    · exact ⟨none, rfl, fun metadata h => (nomatch h)⟩
    next hfits =>
      have hlength : (front ++ [hi, lo]).length = front.length + 2 := by rw [length_append]; rfl
      rw [hlength] at hfits ⊢
      unfold metadataLengthBytes at hfits htotal ⊢
      -- The slice is what stands before the two bytes.
      generalize hslice : front.drop (front.length + 2 - total) = e
      have hdrop : (front ++ [hi, lo]).drop (front.length + 2 - total) = e ++ [hi, lo] := by
        rw [drop_append_of_le_length (by omega), hslice]
      have helength : e.length = total - 2 := by
        rw [← hslice, length_drop]
        omega
      rw [hdrop, ← helength, take_left]
      obtain ⟨result, c, hread, hinput, -, -, -, hvalue⟩ :=
        (readValue_reads (metadataMaxDepth + 1)).sound [] e
      rw [nil_append, length_nil] at hread
      rw [hread]
      cases result with
      | none => exact ⟨none, rfl, fun metadata h => (nomatch h)⟩
      | some v =>
        dsimp only
        split
        · exact ⟨none, rfl, fun metadata h => (nomatch h)⟩
        next hexhausted =>
          refine ⟨_, rfl, ?_⟩
          intro metadata hmetadata
          obtain ⟨e', rest, hsplit, hencodes, hc⟩ := hvalue v rfl
          have hrest : rest = [] := by
            rw [hc] at hexhausted
            simp only [length_nil, zero_add, nil_append, ne_eq, not_not] at hexhausted
            rw [hsplit, length_append] at hexhausted
            exact eq_nil_of_length_eq_zero (by omega)
          rw [hrest, append_nil] at hsplit
          rw [← hsplit] at hencodes
          obtain ⟨hkeepContainer, hkeepOffset, hkeepSize⟩ := readContainer_keeps hmetadata
          dsimp only at hkeepContainer hkeepOffset hkeepSize
          refine ⟨by rw [hkeepOffset, hkeepSize, hlength]; omega, ?_⟩
          refine ⟨front.take (front.length + 2 - total), e, hi, lo, v, ?_,
            ?_, by omega, ?_, hencodes, fun w hw => encodes_unique hencodes hw, ?_⟩
          · rw [← append_assoc, ← hslice, take_append_drop]
          · rw [hkeepOffset, length_take]
            omega
          · rw [hkeepContainer]
            split
            next hcounts =>
              rw [if_pos hcounts] at htotal
              omega
            next hcounts =>
              rw [if_neg hcounts] at htotal
              omega
          · rw [hkeepContainer, hkeepOffset, hkeepSize]
            exact hmetadata

lemma findFooter_framed (code : List Byte) (containers : List MetadataContainer) :
    ∃ result, findFooter code containers = some result ∧ ∀ metadata, result = some metadata →
      Framed code metadata := by
  induction containers with
  | nil => exact ⟨none, rfl, fun metadata h => (nomatch h)⟩
  | cons container containers ih =>
    obtain ⟨result, hresult, hframed⟩ := readFooter_framed code container
    unfold findFooter
    rw [hresult]
    cases result with
    | none => exact ih
    | some metadata => exact ⟨some metadata, rfl, hframed⟩

/-- The reader inverts the encodings of a trailer's values, on every input it stays inside and reads
only encodings, and a trailer that is found frames one value at the end of the code. -/
theorem findContractMetadata_inverts :
    (∀ v, Within (metadataMaxDepth + 1) v → (∃ e, Encodes (metadataMaxDepth + 1) v e) ∧
      ∀ before e rest, Encodes (metadataMaxDepth + 1) v e →
        readValue (metadataMaxDepth + 1) ⟨before ++ (e ++ rest), before.length, false⟩ =
          some (some v, ⟨before ++ (e ++ rest), before.length + e.length, false⟩)) ∧
    (∀ bytes : List Byte, ∃ result c, readValue (metadataMaxDepth + 1) ⟨bytes, 0, false⟩ =
      some (result, c) ∧ c.position ≤ bytes.length ∧ (result = none → c.failed = true) ∧
      ∀ v, result = some v → Encodes (metadataMaxDepth + 1) v (bytes.take c.position)) ∧
    ∀ code : List Byte, ∃ result, findContractMetadata code = some result ∧
      ∀ metadata, result = some metadata → Framed code metadata := by
  refine ⟨?_, ?_, ?_⟩
  · intro v hv
    exact ⟨within_iff.mp hv,
      fun before e rest he => (readValue_reads _).complete before e rest v he⟩
  · intro bytes
    obtain ⟨result, c, hread, -, -, hin, hfailed, hvalue⟩ :=
      (readValue_reads (metadataMaxDepth + 1)).sound [] bytes
    refine ⟨result, c, hread, hin, hfailed, ?_⟩
    intro v hv
    obtain ⟨e, rest, hsplit, hencodes, hc⟩ := hvalue v hv
    rw [hc, length_nil, zero_add, hsplit, take_left]
    exact hencodes
  · intro code
    exact findFooter_framed code metadataContainers

end NeverD.Evm
