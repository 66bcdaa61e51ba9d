import NeverD.Lib.BlockFold

namespace NeverD.Support
open Lib.BlockFold Nat

def blockBytes : Nat := 64

def messageEnd : UInt8 := 0x80

def lengthBytes : Nat := 8

def kLoadByteCheckpointBytes : Nat := 1024 * 1024

abbrev State := Vector UInt32 8

def initialState : State :=
  #v[0x6A09E667, 0xBB67AE85, 0x3C6EF372, 0xA54FF53A, 0x510E527F, 0x9B05688C, 0x1F83D9AB, 0x5BE0CD19]

class Compression where
  block : State → List UInt8 → State

class PortableSHA256 where
  Hasher : Type
  new : Hasher
  update : Hasher → List UInt8 → Hasher
  final : Hasher → List UInt8
  hash : List UInt8 → List UInt8

def memcpy (buffer : List UInt8) (pos : Nat) (bytes : List UInt8) : List UInt8 :=
  buffer.take pos ++ bytes ++ buffer.drop (pos + bytes.length)

def write32be (x : UInt32) : List UInt8 := [24, 16, 8, 0].map fun shift :
    UInt32 => (x >>> shift).toUInt8

def write64be (x : UInt64) : List UInt8 :=
  [56, 48, 40, 32, 24, 16, 8, 0].map fun shift : UInt64 => (x >>> shift).toUInt8

section

variable [Compression]

def compress (state : State) (data : List UInt8) (blocks : Nat) : State :=
  foldBlocks Compression.block blockBytes blocks state data

def divideCeil (a b : Nat) : Nat := (a + b - 1) / b

def tailBlocks (rest : Nat) : Nat := divideCeil (rest + 1 + lengthBytes) blockBytes

def digest (state : State) : List UInt8 := state.toList.flatMap write32be

def finish (state : State) (last : List UInt8) (rest : Nat) (length : UInt64) : List UInt8 :=
  let tail := List.replicate (tailBlocks (blockBytes - 1) * blockBytes) 0
  let tail := if rest ≠ 0 then memcpy tail 0 (last.take rest) else tail
  let tail := tail.set rest messageEnd
  let tailBytes := tailBlocks rest * blockBytes
  let tail := memcpy tail (tailBytes - lengthBytes) (write64be (length * 8))
  digest (compress state tail (tailBytes / blockBytes))

def compressChunks (data : List UInt8) (blocks : Nat) : Nat → State → Nat → State
  | 0, state, _ => state
  | fuel + 1, state, done =>
    if done < blocks then
      let count := min (kLoadByteCheckpointBytes / blockBytes) (blocks - done)
      compressChunks data blocks fuel (compress state (data.drop (done * blockBytes)) count)
        (done + count)
    else state

def sha256WithExtensions (data : List UInt8) (progress : Bool) : List UInt8 :=
  let blocks := data.length / blockBytes
  let state :=
    if progress then compressChunks data blocks blocks initialState 0
      else compress initialState data blocks
  finish state (data.drop (blocks * blockBytes)) (data.length % blockBytes)
    (UInt64.ofNat data.length)

end

section

variable [PortableSHA256]

def updateChunks (data : List UInt8) : Nat → PortableSHA256.Hasher → Nat → PortableSHA256.Hasher
  | 0, hash, _ => hash
  | fuel + 1, hash, done =>
    if done < data.length then
      let count := min kLoadByteCheckpointBytes (data.length - done)
      updateChunks data fuel (PortableSHA256.update hash ((data.drop done).take count))
        (done + count)
    else hash

/-- The digest of bytes at hand. No report stops the work. -/
def sha256 [Compression] (usesHardware : Bool) (data : List UInt8) (progress : Bool) : List UInt8 :=
  if usesHardware then sha256WithExtensions data progress
  else if ¬ progress then PortableSHA256.hash data
  else PortableSHA256.final (updateChunks data data.length PortableSHA256.new 0)

end

section

variable [Compression] [PortableSHA256]

structure SHA256Stream where
  state : State
  pending : List UInt8
  pendingBytes : Nat
  length : UInt64
  portable : Option PortableSHA256.Hasher

namespace SHA256Stream

variable (usesHardware : Bool)

def start (s : SHA256Stream) : SHA256Stream :=
  if usesHardware then { s with pendingBytes := 0, length := 0, state := initialState }
  else { s with pendingBytes := 0, length := 0, portable := some PortableSHA256.new }

def new : SHA256Stream :=
  start usesHardware
    { state := Vector.replicate 8 0
      pending := List.replicate blockBytes 0
      pendingBytes := 0
      length := 0
      portable := none }

def absorb (s : SHA256Stream) (data : List UInt8) : SHA256Stream :=
  let blocks := data.length / blockBytes
  let state := if blocks ≠ 0 then compress s.state data blocks else s.state
  let data := data.drop (blocks * blockBytes)
  { s with
    state := state
    pending := if data ≠ [] then memcpy s.pending 0 data else s.pending
    pendingBytes := data.length }

def update (s : SHA256Stream) (data : List UInt8) : SHA256Stream :=
  match s.portable with
  | some hash => { s with portable := some (PortableSHA256.update hash data) }
  | none =>
    let s := { s with length := s.length + UInt64.ofNat data.length }
    if s.pendingBytes ≠ 0 then
      let taken := min (blockBytes - s.pendingBytes) data.length
      let pending := memcpy s.pending s.pendingBytes (data.take taken)
      if s.pendingBytes + taken ≠ blockBytes then
        { s with pending := pending, pendingBytes := s.pendingBytes + taken }
      else
        absorb { s with pending := pending, state := compress s.state pending 1, pendingBytes := 0 }
          (data.drop taken)
    else absorb s data

def final (s : SHA256Stream) : List UInt8 × SHA256Stream :=
  match s.portable with
  | some hash => (PortableSHA256.final hash, start usesHardware { s with portable := none })
  | none => (finish s.state s.pending s.pendingBytes s.length, start usesHardware s)

def digests : SHA256Stream → List (List (List UInt8)) → List (List UInt8)
  | _, [] => []
  | s, chunks :: uses =>
    let ended := final usesHardware (chunks.foldl update s)
    ended.1 :: digests ended.2 uses

end SHA256Stream

end

section

def paddingZeros (length : Nat) : Nat :=
  (2 * blockBytes - 1 - lengthBytes - length % blockBytes) % blockBytes

def padded (message : List UInt8) : List UInt8 :=
  message ++ messageEnd :: List.replicate (paddingZeros message.length) 0 ++
    write64be (UInt64.ofNat (8 * message.length))

variable [Compression]

/-- The blocks of the padded message, compressed one after the other. -/
def hashOf (message : List UInt8) : List UInt8 :=
  digest (absorbed Compression.block blockBytes initialState (padded message))

end

section
open List

lemma blockBytes_pos : 0 < blockBytes := by decide

lemma memcpy_zero {buffer bytes : List UInt8} :
    memcpy buffer 0 bytes = bytes ++ buffer.drop bytes.length := by
  rw [memcpy, take_zero, nil_append, Nat.zero_add]

lemma length_memcpy {buffer bytes : List UInt8} {pos : Nat}
    (h : pos + bytes.length ≤ buffer.length) :
    (memcpy buffer pos bytes).length = buffer.length := by
  rw [memcpy, length_append, length_append, length_take, length_drop]
  omega

lemma take_memcpy {buffer : List UInt8} {pos : Nat} (h : pos ≤ buffer.length) (bytes : List UInt8) :
    (memcpy buffer pos bytes).take (pos + bytes.length) = buffer.take pos ++ bytes := by
  have hlen : (buffer.take pos ++ bytes).length = pos + bytes.length := by
    rw [length_append, length_take, Nat.min_eq_left h]
  rw [memcpy, ← hlen, take_left]

theorem tailBlocks_mul (r : Nat) (hr : r < blockBytes) :
    tailBlocks r * blockBytes = r + 1 + paddingZeros r + lengthBytes := by
  unfold tailBlocks divideCeil paddingZeros blockBytes lengthBytes at *
  omega

def tailOf (last : List UInt8) (length : UInt64) : List UInt8 :=
  last ++ messageEnd :: List.replicate (paddingZeros last.length) 0 ++ write64be length

lemma memcpy_tail (last : List UInt8) (length : UInt64) {size : Nat}
    (hsize : last.length + 1 + paddingZeros last.length + lengthBytes ≤ size) :
    memcpy ((memcpy (List.replicate size 0) 0 last).set last.length messageEnd)
      (last.length + 1 + paddingZeros last.length) (write64be length) =
    tailOf last length ++ List.replicate
      (size - (last.length + 1 + paddingZeros last.length + lengthBytes)) 0 := by
  have hset : (memcpy (List.replicate size 0) 0 last).set last.length messageEnd =
      (last ++ messageEnd :: List.replicate (paddingZeros last.length) 0) ++
        List.replicate (size - (last.length + 1 + paddingZeros last.length)) 0 := by
    have hsucc : size - last.length =
        (paddingZeros last.length + (size - (last.length + 1 + paddingZeros last.length))) + 1 := by
          omega
    rw [memcpy_zero, drop_replicate, set_append_right _ _ (Nat.le_refl _), Nat.sub_self, hsucc,
      replicate_succ, set_cons_zero, replicate_add, append_assoc, cons_append]
  have hlen : (last ++ messageEnd :: List.replicate (paddingZeros last.length) 0).length =
      last.length + 1 + paddingZeros last.length := by
    rw [length_append, length_cons, length_replicate]
    omega
  have hword : (write64be length).length = lengthBytes := rfl
  rw [hset, memcpy, ← hlen, take_left, drop_append, drop_of_length_le (Nat.le_add_right _ _),
    nil_append, drop_replicate, tailOf, hword, Nat.add_sub_cancel_left, Nat.sub_sub]

variable [Compression]

lemma finish_eq {last : List UInt8} {r : Nat} (hr : r < blockBytes) (hlast : r ≤ last.length)
    (state : State) (length : UInt64) : finish state last r length =
      digest (absorbed Compression.block blockBytes state (tailOf (last.take r) (length * 8))) := by
  have hlen : (last.take r).length = r := by rw [length_take, Nat.min_eq_left hlast]
  have hblocks := tailBlocks_mul r hr
  have hfront : (if r ≠ 0 then memcpy (List.replicate (tailBlocks (blockBytes - 1) * blockBytes) 0)
    0 (last.take r)
      else List.replicate (tailBlocks (blockBytes - 1) * blockBytes) 0) =
      memcpy (List.replicate (tailBlocks (blockBytes - 1) * blockBytes) 0) 0 (last.take r) := by
    split
    · rfl
    next h =>
      rw [not_not] at h
      rw [h, take_zero, memcpy_zero, nil_append, length_nil, drop_zero]
  have hpos : tailBlocks r * blockBytes - lengthBytes = r + 1 + paddingZeros r := by omega
  have htail : (tailOf (last.take r) (length * 8)).length = tailBlocks r * blockBytes := by
    rw [tailOf, length_append, length_append, length_cons, length_replicate, hlen, hblocks]
    show _ + 8 = _ + lengthBytes
    rw [lengthBytes]
    omega
  have hsize : r + 1 + paddingZeros r + lengthBytes ≤ tailBlocks (blockBytes - 1) * blockBytes := by
    rw [← hblocks]
    apply Nat.mul_le_mul_right
    unfold tailBlocks divideCeil blockBytes lengthBytes at *
    omega
  have hfits : (last.take r).length + 1 + paddingZeros (last.take r).length + lengthBytes ≤
      tailBlocks (blockBytes - 1) * blockBytes := hlen.symm ▸ hsize
  have hcopy := memcpy_tail (last.take r) (length * 8) hfits
  rw [hlen] at hcopy
  unfold finish
  dsimp only
  rw [hfront, hpos, hcopy, compress, absorbed, htail, foldBlocks_append]
  apply Nat.le_of_eq
  rw [Nat.mul_div_cancel _ blockBytes_pos, htail]

theorem finish_message {message last : List UInt8} {length : UInt64}
    (hlast : last.take (message.length % blockBytes) = rest blockBytes message)
    (hlength : length = UInt64.ofNat message.length) :
    finish (absorbed Compression.block blockBytes initialState message) last
      (message.length % blockBytes) length = hashOf message := by
  have hr : message.length % blockBytes < blockBytes := mod_lt _ blockBytes_pos
  have hle : message.length % blockBytes ≤ last.length := by
    have hcount := congrArg List.length hlast
    rw [length_take, length_rest] at hcount
    omega
  have hzeros : paddingZeros (message.length % blockBytes) = paddingZeros message.length := by
    rw [paddingZeros, mod_mod, paddingZeros]
  have hbits : length * 8 = UInt64.ofNat (8 * message.length) := by
    rw [hlength, UInt64.ofNat_mul, UInt64.mul_comm]
    rfl
  rw [finish_eq hr hle, hlast, hashOf, padded, append_assoc, absorbed_append blockBytes_pos, tailOf,
    length_rest, hzeros, hbits, append_assoc]

lemma compressChunks_eq (data : List UInt8) (blocks : Nat) {fuel : Nat} :
    ∀ {done : Nat}, done ≤ blocks → blocks - done ≤ fuel → ∀ s : State,
      compressChunks data blocks fuel (foldBlocks Compression.block blockBytes done s data) done =
        foldBlocks Compression.block blockBytes blocks s data := by
  induction fuel with
  | zero =>
    intro done hdone hfuel s
    obtain rfl : done = blocks := by omega
    rfl
  | succ fuel ih =>
    intro done hdone hfuel s
    rw [compressChunks]
    split
    · have hchunk : 0 < kLoadByteCheckpointBytes / blockBytes := by decide
      dsimp only
      rw [compress, ← foldBlocks_add]
      apply ih
      · omega
      · omega
    · obtain rfl : done = blocks := by omega
      rfl

lemma sha256WithExtensions_eq (message : List UInt8) (progress : Bool) :
    sha256WithExtensions message progress = hashOf message := by
  have hstate : (if progress = true then
      compressChunks message (message.length / blockBytes) (message.length / blockBytes)
        initialState 0
      else compress initialState message (message.length / blockBytes)) =
      absorbed Compression.block blockBytes initialState message := by
    split
    · exact compressChunks_eq message _ (Nat.zero_le _) (sub_le _ _) initialState
    · rfl
  unfold sha256WithExtensions
  dsimp only
  rw [hstate]
  apply finish_message _ rfl
  apply take_of_length_le
  exact Nat.le_of_eq (length_rest message)

end

section
open List

variable [Compression] [PortableSHA256]

/-- It gives the digest of a message, in one call and in parts. -/
structure PortableSHA256.Correct : Prop where
  hash : ∀ message, PortableSHA256.hash message = hashOf message
  final : ∀ chunks : List (List UInt8),
    PortableSHA256.final (chunks.foldl PortableSHA256.update PortableSHA256.new) =
    hashOf chunks.flatten

omit [Compression] in
lemma updateChunks_eq (data : List UInt8) {fuel : Nat} : ∀ done : Nat, data.length - done ≤ fuel →
    ∀ hash : PortableSHA256.Hasher, ∃ chunks : List (List UInt8),
      updateChunks data fuel hash done = chunks.foldl PortableSHA256.update hash ∧
        chunks.flatten = data.drop done := by
  induction fuel with
  | zero =>
    intro done hfuel hash
    exact ⟨[], rfl, (drop_of_length_le (by omega)).symm⟩
  | succ fuel ih =>
    intro done hfuel hash
    rw [updateChunks]
    split
    next hlt =>
      have hchunk : 0 < kLoadByteCheckpointBytes := by decide
      obtain ⟨chunks, hfold, hflat⟩ :=
        ih (done + min kLoadByteCheckpointBytes (data.length - done)) (by omega)
        (PortableSHA256.update hash
          ((data.drop done).take (min kLoadByteCheckpointBytes (data.length - done))))
      refine ⟨_ :: chunks, hfold, ?_⟩
      rw [flatten_cons, hflat, ← drop_drop, take_append_drop]
    · exact ⟨[], rfl, (drop_of_length_le (by omega)).symm⟩

lemma sha256_eq (hP : PortableSHA256.Correct) (usesHardware : Bool) (message : List UInt8)
    (progress : Bool) : sha256 usesHardware message progress = hashOf message := by
  rw [sha256]
  split
  · exact sha256WithExtensions_eq message progress
  · split
    · exact hP.hash message
    · obtain ⟨chunks, hfold, hflat⟩ := updateChunks_eq message 0 (sub_le _ _) PortableSHA256.new
      rw [hfold, hP.final, hflat, drop_zero]

end

namespace SHA256Stream

variable [Compression] [PortableSHA256] {usesHardware : Bool} {s : SHA256Stream}
    {message data : List UInt8}

/-- The stream has taken the message: its whole blocks are compressed, and the rest is pending. -/
structure Holds (s : SHA256Stream) (message : List UInt8) : Prop where
  portable : s.portable = none
  state : s.state = absorbed Compression.block blockBytes initialState message
  pendingBytes : s.pendingBytes = message.length % blockBytes
  pending : s.pending.take s.pendingBytes = rest blockBytes message
  size : s.pending.length = blockBytes
  length : s.length = UInt64.ofNat message.length

lemma Holds.absorb (hp : s.portable = none) (hsize : s.pending.length = blockBytes)
    (hstate : s.state = absorbed Compression.block blockBytes initialState message)
    (hrest : rest blockBytes message = [])
    (hlength : s.length = UInt64.ofNat (message ++ data).length) :
    (absorb s data).Holds (message ++ data) := by
  have hmod : (message ++ data).length % blockBytes = data.length % blockBytes := by
    have hzero : message.length % blockBytes = 0 := by rw [← length_rest, hrest, List.length_nil]
    rw [List.length_append, Nat.add_mod, hzero, Nat.zero_add, Nat.mod_mod]
  have hleft : data.drop (data.length / blockBytes * blockBytes) = rest blockBytes data := rfl
  have hlt : (rest blockBytes data).length < blockBytes := by
    rw [length_rest]
    exact Nat.mod_lt _ blockBytes_pos
  refine ⟨hp, ?_, ?_, ?_, ?_, hlength⟩
  · show (if _ then _ else _) = _
    rw [absorbed_append blockBytes_pos, hrest, List.nil_append, ← hstate]
    split
    · rfl
    next h =>
      rw [not_not] at h
      rw [absorbed, h, foldBlocks]
  · show (data.drop _).length = _
    rw [hleft, length_rest, hmod]
  · show (if _ then _ else _ : List UInt8).take (data.drop _).length = _
    rw [rest_append blockBytes_pos, hrest, List.nil_append, hleft]
    split
    · rw [memcpy_zero, List.take_left]
    next h =>
      rw [not_not] at h
      rw [h]
      rfl
  · show (if _ then _ else _ : List UInt8).length = _
    rw [hleft]
    split
    · rw [length_memcpy, hsize]
      rw [Nat.zero_add, hsize]
      exact Nat.le_of_lt hlt
    · exact hsize

variable (h : s.Holds message)
include h

lemma Holds.update : (s.update data).Holds (message ++ data) := by
  have hlength : s.length + UInt64.ofNat data.length = UInt64.ofNat (message ++ data).length := by
    rw [h.length, List.length_append, UInt64.ofNat_add]
  have hlt : s.pendingBytes < blockBytes := by
    rw [h.pendingBytes]
    exact Nat.mod_lt _ blockBytes_pos
  unfold SHA256Stream.update
  rw [h.portable]
  dsimp only
  split
  · have hfit : s.pendingBytes ≤ s.pending.length := by
      rw [h.size]
      exact Nat.le_of_lt hlt
    have hrest : (rest blockBytes message).length = s.pendingBytes := by
      rw [length_rest, h.pendingBytes]
    have htaken : (data.take (min (blockBytes - s.pendingBytes) data.length)).length =
        min (blockBytes - s.pendingBytes) data.length := by
          rw [List.length_take, Nat.min_assoc, Nat.min_self]
    have hpending := take_memcpy hfit (data.take (min (blockBytes - s.pendingBytes) data.length))
    rw [htaken, h.pending] at hpending
    have hsize : (memcpy s.pending s.pendingBytes
        (data.take (min (blockBytes - s.pendingBytes) data.length))).length = blockBytes := by
      rw [length_memcpy, h.size]
      rw [htaken, h.size]
      omega
    split
    · -- The block is not full: all the data went into it.
      rename_i hnot
      have hall : min (blockBytes - s.pendingBytes) data.length = data.length := by omega
      rw [hall, List.take_length] at hpending hsize
      have hshort : (rest blockBytes message ++ data).length < blockBytes := by
        rw [List.length_append, hrest]
        omega
      rw [hall, List.take_length]
      refine ⟨rfl, ?_, ?_, ?_, hsize, hlength⟩
      · rw [absorbed_append blockBytes_pos, absorbed_short hshort]
        exact h.state
      · calc s.pendingBytes + data.length = (rest blockBytes message ++ data).length := by
              rw [List.length_append, hrest]
          _ = (rest blockBytes message ++ data).length % blockBytes :=
            (Nat.mod_eq_of_lt hshort).symm
          _ = (message ++ data).length % blockBytes := by
            rw [List.length_append, length_rest, List.length_append, Nat.mod_add_mod]
      · rw [rest_append blockBytes_pos, rest_short hshort]
        exact hpending
    next hfull =>
      rw [not_not] at hfull
      rw [hfull, List.take_of_length_le (Nat.le_of_eq hsize)] at hpending
      have hblock : (rest blockBytes message ++
          data.take (min (blockBytes - s.pendingBytes) data.length)).length = blockBytes := by
        rw [← hpending, hsize]
      have hjoin : message ++ data =
          (message ++ data.take (min (blockBytes - s.pendingBytes) data.length)) ++
          data.drop (min (blockBytes - s.pendingBytes) data.length) := by
        rw [List.append_assoc, List.take_append_drop]
      rw [hjoin]
      apply Holds.absorb
      · rfl
      · exact hsize
      · rw [absorbed_append blockBytes_pos, absorbed_block hblock blockBytes_pos, ← hpending,
          ← h.state]
        show Compression.block s.state (List.take blockBytes _) = _
        rw [List.take_of_length_le (Nat.le_of_eq hsize)]
      · rw [rest_append blockBytes_pos, rest_block hblock blockBytes_pos]
      · rw [← hjoin]
        exact hlength
  next hnone =>
    rw [not_not] at hnone
    apply Holds.absorb
    · rfl
    · exact h.size
    · exact h.state
    · rw [← List.length_eq_zero_iff, length_rest, ← h.pendingBytes, hnone]
    · exact hlength

lemma Holds.foldl (chunks : List (List UInt8)) :
    (chunks.foldl SHA256Stream.update s).Holds (message ++ chunks.flatten) := by
  induction chunks generalizing s message with
  | nil => rwa [List.flatten_nil, List.append_nil]
  | cons chunk chunks ih =>
    rw [List.flatten_cons, ← List.append_assoc]
    exact ih h.update

lemma Holds.final : (s.final true).1 = hashOf message := by
  unfold SHA256Stream.final
  rw [h.portable]
  rw [h.state, h.pendingBytes]
  apply finish_message _ h.length
  rw [← h.pendingBytes]
  exact h.pending

omit h

inductive Reached (usesHardware : Bool) : SHA256Stream → Prop
  | created : Reached usesHardware (new usesHardware)
  | updated {s : SHA256Stream} (data : List UInt8) : Reached usesHardware s →
      Reached usesHardware (s.update data)
  | ended {s : SHA256Stream} : Reached usesHardware s →
      Reached usesHardware (s.final usesHardware).2

def Fresh (usesHardware : Bool) (s : SHA256Stream) : Prop :=
  if usesHardware then s.Holds [] else s.portable = some PortableSHA256.new

lemma fresh_start_hardware (hp : s.portable = none) (hsize : s.pending.length = blockBytes) :
    (start true s).Holds [] where
  portable := hp
  state := rfl
  pendingBytes := rfl
  pending := rfl
  size := hsize
  length := rfl

lemma fresh_new (usesHardware : Bool) : Fresh usesHardware (new usesHardware) := by
  cases usesHardware with
  | true => exact fresh_start_hardware rfl rfl
  | false => rfl

lemma foldl_portable {hash : PortableSHA256.Hasher} (h : s.portable = some hash)
    (chunks : List (List UInt8)) :
    chunks.foldl SHA256Stream.update s =
      { s with portable := some (chunks.foldl PortableSHA256.update hash) } := by
  induction chunks generalizing s hash with
  | nil =>
    rw [List.foldl_nil, List.foldl_nil, ← h]
  | cons chunk chunks ih =>
    have hstep : s.update chunk =
        { s with portable := some (PortableSHA256.update hash chunk) } := by
      unfold SHA256Stream.update
      rw [h]
    rw [List.foldl_cons, hstep, ih rfl, List.foldl_cons]

/-- One use of a stream: the digest of the parts joined, and a stream that has taken nothing. -/
theorem Fresh.use (hP : PortableSHA256.Correct) (h : Fresh usesHardware s)
    (chunks : List (List UInt8)) :
    ((chunks.foldl SHA256Stream.update s).final usesHardware).1 = hashOf chunks.flatten ∧
      Fresh usesHardware ((chunks.foldl SHA256Stream.update s).final usesHardware).2 := by
  cases usesHardware with
  | true =>
    have hall := Holds.foldl h chunks
    rw [List.nil_append] at hall
    refine ⟨hall.final, ?_⟩
    unfold SHA256Stream.final
    rw [hall.portable]
    exact fresh_start_hardware hall.portable hall.size
  | false =>
    rw [foldl_portable h]
    exact ⟨hP.final chunks, rfl⟩

lemma Fresh.digests_eq (hP : PortableSHA256.Correct) (h : Fresh usesHardware s)
    (uses : List (List (List UInt8))) :
    s.digests usesHardware uses = uses.map fun chunks => hashOf chunks.flatten := by
  induction uses generalizing s with
  | nil => rfl
  | cons chunks uses ih =>
    obtain ⟨hdigest, hfresh⟩ := h.use hP chunks
    rw [digests, ih hfresh, hdigest, List.map_cons]

def Kept (usesHardware : Bool) (s : SHA256Stream) : Prop :=
  if usesHardware then s.portable = none else s.state = Vector.replicate 8 0 ∧
    s.portable.isSome = true

lemma final_snd (s : SHA256Stream) :
    (s.final usesHardware).2 = start usesHardware { s with portable := none } := by
  unfold SHA256Stream.final
  cases hp : s.portable with
  | none =>
    dsimp only
    rw [← hp]
  | some hash => rfl

lemma update_portable_none (h : s.portable = none) : (s.update data).portable = none := by
  unfold SHA256Stream.update
  rw [h]
  dsimp only
  split
  · split
    · rfl
    · rfl
  · rfl

lemma Reached.kept (h : Reached usesHardware s) : Kept usesHardware s := by
  induction h with
  | created =>
    cases usesHardware with
    | true => exact rfl
    | false => exact ⟨rfl, rfl⟩
  | @updated s data _ ih =>
    cases usesHardware with
    | true => exact update_portable_none ih
    | false =>
      obtain ⟨hash, hhash⟩ := Option.isSome_iff_exists.mp ih.2
      have hstep := foldl_portable hhash [data]
      rw [List.foldl_cons, List.foldl_nil] at hstep
      rw [hstep]
      exact ⟨ih.1, rfl⟩
  | @ended s _ ih =>
    rw [final_snd]
    cases usesHardware with
    | true => exact rfl
    | false => exact ⟨ih.1, rfl⟩

/-- After its digest a stream is as new, but for bytes that count as not yet given. -/
theorem Reached.final_eq (h : Reached usesHardware s) :
    (s.final usesHardware).2 = { SHA256Stream.new usesHardware with pending := s.pending } := by
  rw [final_snd]
  cases usesHardware with
  | true => rfl
  | false =>
    have hstate : s.state = Vector.replicate 8 0 := h.kept.1
    unfold SHA256Stream.new start
    rw [if_neg Bool.false_ne_true, if_neg Bool.false_ne_true, hstate]

/-- A stream that is used any number of times gives the digest of each message, however it was
split. -/
theorem digests_sha256 (hP : PortableSHA256.Correct) (usesHardware : Bool) :
    (∀ uses, (new usesHardware).digests usesHardware uses =
      uses.map fun chunks => sha256 usesHardware chunks.flatten false) ∧
    (∀ message progress, sha256 usesHardware message progress =
      digest (absorbed Compression.block blockBytes initialState (padded message))) ∧
    ∀ s, Reached usesHardware s →
      (s.final usesHardware).2 = { new usesHardware with pending := s.pending } := by
  refine ⟨?_, fun message progress => sha256_eq hP usesHardware message progress,
    fun s hs => hs.final_eq⟩
  intro uses
  rw [(fresh_new usesHardware).digests_eq hP]
  apply List.map_congr_left
  intro chunks _
  exact (sha256_eq hP usesHardware chunks.flatten false).symm

end SHA256Stream

def roundConstants : List UInt32 :=
  [0x428A2F98, 0x71374491, 0xB5C0FBCF, 0xE9B5DBA5, 0x3956C25B, 0x59F111F1, 0x923F82A4, 0xAB1C5ED5,
    0xD807AA98, 0x12835B01, 0x243185BE, 0x550C7DC3, 0x72BE5D74, 0x80DEB1FE, 0x9BDC06A7, 0xC19BF174,
    0xE49B69C1, 0xEFBE4786, 0x0FC19DC6, 0x240CA1CC, 0x2DE92C6F, 0x4A7484AA, 0x5CB0A9DC, 0x76F988DA,
    0x983E5152, 0xA831C66D, 0xB00327C8, 0xBF597FC7, 0xC6E00BF3, 0xD5A79147, 0x06CA6351, 0x14292967,
    0x27B70A85, 0x2E1B2138, 0x4D2C6DFC, 0x53380D13, 0x650A7354, 0x766A0ABB, 0x81C2C92E, 0x92722C85,
    0xA2BFE8A1, 0xA81A664B, 0xC24B8B70, 0xC76C51A3, 0xD192E819, 0xD6990624, 0xF40E3585, 0x106AA070,
    0x19A4C116, 0x1E376C08, 0x2748774C, 0x34B0BCB5, 0x391C0CB3, 0x4ED8AA4A, 0x5B9CCA4F, 0x682E6FF3,
    0x748F82EE, 0x78A5636F, 0x84C87814, 0x8CC70208, 0x90BEFFFA, 0xA4506CEB, 0xBEF9A3F7, 0xC67178F2]

def rotr (x n : UInt32) : UInt32 := x >>> n ||| x <<< (32 - n)

def schedule (block : List UInt8) : Nat → List UInt32
  | 0 => []
  | t + 1 =>
    let words := schedule block t
    let word (i : Nat) : UInt32 := words.getD i 0
    let byte (i : Nat) : UInt32 := (block.getD i 0).toUInt32
    words ++ [if t < 16 then
        byte (4 * t) <<< 24 ||| byte (4 * t + 1) <<< 16 ||| byte (4 * t + 2) <<< 8 |||
          byte (4 * t + 3)
      else
        let x := word (t - 15)
        let y := word (t - 2)
        (rotr y 17 ^^^ rotr y 19 ^^^ y >>> 10) + word (t - 7) +
          (rotr x 7 ^^^ rotr x 18 ^^^ x >>> 3) + word (t - 16)]

def compressRound (s : State) (k w : UInt32) : State :=
  let (a, b, c, d, e, f, g, h) := (s[0], s[1], s[2], s[3], s[4], s[5], s[6], s[7])
  let t1 := h + (rotr e 6 ^^^ rotr e 11 ^^^ rotr e 25) + (e &&& f ^^^ ~~~e &&& g) + k + w
  let t2 := (rotr a 2 ^^^ rotr a 13 ^^^ rotr a 22) + (a &&& b ^^^ a &&& c ^^^ b &&& c)
  #v[t1 + t2, a, b, c, d + t1, e, f, g]

@[reducible] def standardCompression : Compression where
  block s block :=
    let rounds :=
      (roundConstants.zip (schedule block 64)).foldl (fun s kw => compressRound s kw.1 kw.2) s
    Vector.ofFn fun i => s[i] + rounds[i]

/-- A hasher that keeps the message. -/
@[reducible] def keptMessage : PortableSHA256 where
  Hasher := List UInt8
  new := []
  update kept data := kept ++ data
  final := @hashOf standardCompression
  hash := @hashOf standardCompression

lemma keptMessage_correct : @PortableSHA256.Correct standardCompression keptMessage := by
  refine @PortableSHA256.Correct.mk standardCompression keptMessage (fun _ => rfl) ?_
  intro chunks
  have hfold : ∀ (chunks : List (List UInt8)) (kept : List UInt8),
      chunks.foldl (fun kept data => kept ++ data) kept = kept ++ chunks.flatten := by
    intro chunks
    induction chunks with
    | nil => exact fun kept => (List.append_nil kept).symm
    | cons chunk chunks ih =>
      intro kept
      rw [List.foldl_cons, ih, List.flatten_cons, List.append_assoc]
  exact congrArg (@hashOf standardCompression) (hfold chunks [])

/-- A message of three blocks in parts that cross their bounds, and then one that is empty. -/
theorem SHA256Stream.digests_sha256_twice :
      @digests standardCompression keptMessage true (@new keptMessage true)
      [[List.replicate 60 0x61, [], List.replicate 90 0x62], []] =
        [@sha256 keptMessage standardCompression true (List.replicate 60 0x61 ++
          List.replicate 90 0x62) false,
          @sha256 keptMessage standardCompression true [] false] := by
  have h := (@digests_sha256 standardCompression keptMessage keptMessage_correct true).1
    [[List.replicate 60 0x61, [], List.replicate 90 0x62], []]
  rw [h, List.map_cons, List.flatten_cons, List.flatten_cons, List.flatten_cons, List.flatten_nil,
    List.append_nil, List.nil_append]
  rfl

end NeverD.Support
