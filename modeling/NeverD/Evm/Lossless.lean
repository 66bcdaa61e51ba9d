import NeverD.Evm.LowIR

namespace NeverD.Evm
open List

open NeverD.Lib
open LowInstruction (encoding is isExecutable isActive isAssigned immediate)
open Option (some)

section

variable {code : Code} {fork : Hardfork} {pc : Nat} {instructions : List LowInstruction}

lemma Tiles.encodings (h : Tiles code fork pc instructions) :
    instructions.flatMap encoding = code.drop pc := by
  induction instructions generalizing pc with
  | nil =>
    have hend : pc = code.length := h
    rw [hend, drop_length]
    rfl
  | cons i rest ih =>
    obtain ⟨hlt, hi, hrest⟩ := h
    have hstands := stands_of_decode hlt hi
    calc (i :: rest).flatMap encoding = i.encoding ++ code.drop i.nextPC := by
          rw [flatMap_cons, ih hrest]
      _ = (code.drop pc).take i.encoding.length ++ (code.drop pc).drop i.encoding.length := by
          rw [hstands.bytes, drop_drop, hstands.next]
      _ = code.drop pc := take_append_drop _ _

variable {i : LowInstruction}

variable (h : Tiles code fork pc instructions)
include h

lemma Tiles.mem (hi : i ∈ instructions) :
    pc ≤ i.pc ∧ i.pc < code.length ∧ decodeInstructionAt code i.pc fork = some i := by
  induction instructions generalizing pc with
  | nil => cases hi
  | cons first rest ih =>
    obtain ⟨hlt, hfirst, hrest⟩ := h
    have hstands := stands_of_decode hlt hfirst
    rcases mem_cons.mp hi with heq | hi
    · rw [heq, hstands.starts]
      exact ⟨Nat.le_refl _, hlt, hfirst⟩
    · obtain ⟨hle, hin⟩ := ih hrest hi
      have := hstands.lt_next
      exact ⟨by omega, hin⟩

lemma Tiles.stands (hi : i ∈ instructions) : StandsAt code i.pc i :=
  stands_of_decode (h.mem hi).2.1 (h.mem hi).2.2

lemma Tiles.ordered : instructions.Pairwise fun i j => i.nextPC ≤ j.pc := by
  induction instructions generalizing pc with
  | nil => exact List.Pairwise.nil
  | cons i rest ih =>
    obtain ⟨-, -, hrest⟩ := h
    apply pairwise_cons.mpr
    exact ⟨fun j hj => (hrest.mem hj).1, ih hrest⟩

lemma Tiles.sorted : instructions.Pairwise fun i j => i.pc < j.pc := by
  apply List.Pairwise.imp_of_mem _ h.ordered
  intro i j hi _ hle
  have := (h.stands hi).lt_next
  omega

lemma Tiles.next {n : Nat}
    (hi : instructions[n]? = some i) :
    (instructions[n + 1]?).elim code.length LowInstruction.pc = i.nextPC := by
  induction instructions generalizing pc n with
  | nil => cases hi
  | cons first rest ih =>
    obtain ⟨hlt, hfirst, hrest⟩ := h
    rw [getElem?_cons_succ]
    cases n with
    | zero =>
      rw [getElem?_cons_zero] at hi
      rw [← some.inj hi]
      cases rest with
      | nil => exact (show first.nextPC = code.length from hrest).symm
      | cons second rest =>
        obtain ⟨hlt', hsecond, -⟩ := hrest
        exact (stands_of_decode hlt' hsecond).starts
    | succ n =>
      rw [getElem?_cons_succ] at hi
      exact ih hrest hi

lemma Tiles.first : (instructions.head?).elim code.length LowInstruction.pc = pc := by
  cases instructions with
  | nil => exact (show pc = code.length from h).symm
  | cons i rest => exact (stands_of_decode h.1 h.2.1).starts

lemma Tiles.apart {j : LowInstruction} (hi : i ∈ instructions)
    (hj : j ∈ instructions) : ¬(i.pc < j.pc ∧ j.pc < i.nextPC) := by
  intro hinside
  induction instructions generalizing pc with
  | nil => cases hi
  | cons first rest ih =>
    have hordered := (pairwise_cons.mp h.ordered).1
    have hfirst := (h.stands mem_cons_self).lt_next
    rcases mem_cons.mp hi with hi | hi
    · rcases mem_cons.mp hj with hj | hj
      · rw [hi, hj] at hinside
        omega
      · have := hordered j hj
        rw [hi] at hinside
        omega
    · rcases mem_cons.mp hj with hj | hj
      · have := hordered i hi
        rw [hj] at hinside
        omega
      · exact ih h.2.2 hi hj

end

lemma opcodeInfo_op {byte : BitVec 8} {fork : Hardfork} {info : OpcodeInfo}
    (h : opcodeInfo byte fork = some info) : info.op = byte := by
  unfold opcodeInfo at h
  split at h
  · cases h
  · rename_i assigned hassigned
    have hop := assignedOpcodeInfo_op hassigned
    split at h
    · cases h
    · split at h
      · rw [← some.inj h]
        exact hop
      · rw [← some.inj h]
        exact hop

lemma decodeOpcode_op (byte : BitVec 8) (pc : Nat) (fork : Hardfork) :
    (decodeOpcode byte pc fork).info.op = byte := by
  unfold decodeOpcode
  cases hactive : opcodeInfo byte fork with
  | some info => exact opcodeInfo_op hactive
  | none =>
    cases hassigned : assignedOpcodeInfo byte with
    | some info => exact assignedOpcodeInfo_op hassigned
    | none => rfl

section

variable {code : Code} {pc : Nat} {fork : Hardfork} {i : LowInstruction}

theorem decodeInstructionAt_opcode (hpc : pc < code.length)
    (h : decodeInstructionAt code pc fork = some i) :
    code[pc]? = some i.info.op ∧ i.info = (decodeOpcode i.info.op pc fork).info ∧
    i.decodeStatus = (decodeOpcode i.info.op pc fork).decodeStatus ∧
    i = { (decodeImmediate (decodeOpcode i.info.op pc fork) code (pc + 1)).1 with
    nextPC := i.nextPC } := by
  have hbyte := getElem?_eq_getElem hpc
  rw [decodeInstructionAt_eq hbyte] at h
  have hextended := @decodeImmediate_extended code[pc] pc fork code (pc + 1) hpc
  have hinfo : i.info = (decodeOpcode code[pc] pc fork).info := by
    rw [← some.inj h]
    exact hextended.info
  have hstatus : i.decodeStatus = (decodeOpcode code[pc] pc fork).decodeStatus := by
    rw [← some.inj h]
    exact hextended.status
  have hop : i.info.op = code[pc] := by rw [hinfo, decodeOpcode_op]
  rw [hop]
  refine ⟨hbyte, hinfo, hstatus, ?_⟩
  rw [← some.inj h]

lemma opcodeInfo_jumpdest {info : OpcodeInfo} (h : opcodeInfo jumpdest fork = some info) :
    info.immediate = .none ∧ info.isAssigned = true := by
  have hassigned : assignedOpcodeInfo jumpdest =
      some ⟨0x5b, "JUMPDEST", 0, 0, 0, .none, .control, .frontier, .none, .none, .none, .none,
        false⟩ := by decide
  unfold opcodeInfo at h
  rw [hassigned] at h
  dsimp only at h
  split at h
  · cases h
  · rw [if_neg (fun hop => absurd hop.1 (by decide))] at h
    rw [← some.inj h]
    exact ⟨rfl, rfl⟩

lemma is_jumpdest (hpc : pc < code.length) (h : decodeInstructionAt code pc fork = some i) :
    i.is jumpdest = true ↔ i.isActive = true ∧ i.info.op = jumpdest := by
  unfold is isExecutable
  simp only [Bool.and_eq_true, decide_eq_true_eq]
  refine ⟨fun hall => ⟨hall.1.1.1, hall.2⟩, ?_⟩
  intro hboth
  obtain ⟨hactive, hop⟩ := hboth
  obtain ⟨-, hinfo, hstatus, heq⟩ := decodeInstructionAt_opcode hpc h
  rw [hop] at hinfo hstatus heq
  have hactive' : (decodeOpcode jumpdest pc fork).isActive = true := by
    unfold isActive
    rw [← hstatus]
    exact hactive
  have hrecord := isActive_decodeOpcode.mp hactive'
  obtain ⟨himmediate, hassigned⟩ := opcodeInfo_jumpdest hrecord
  have hplain : decodeImmediate (decodeOpcode jumpdest pc fork) code (pc + 1) =
      (decodeOpcode jumpdest pc fork, pc + 1) := by
    unfold decodeImmediate
    rw [if_pos hactive', himmediate]
  rw [hplain] at heq
  refine ⟨⟨⟨hactive, ?_⟩, ?_⟩, hop⟩
  · unfold isAssigned
    rw [hinfo]
    exact hassigned
  · rw [heq]
    unfold LowInstruction.hasWellFormedImmediate
    rw [himmediate]
    rfl

/-- The immediate of a push: the bytes that are there, and zeros for those that are not. -/
structure PushesBytes (code : Code) (i : LowInstruction) : Prop where
  encoding : i.encoding = i.info.op :: (code.drop (i.pc + 1)).take i.info.immediateBytes
  value : i.immediate.toNat = wordOfBytes ((code.drop (i.pc + 1)).take i.info.immediateBytes ++
    List.replicate (i.info.immediateBytes - (code.length - (i.pc + 1))) 0)
  status : i.immediateStatus = if code.length < i.pc + 1 + i.info.immediateBytes then .truncated
    else .complete

lemma decodeInstructionAt_pushes (hpc : pc < code.length)
    (h : decodeInstructionAt code pc fork = some i)
    (hactive : i.isActive = true) (hpush : i.info.immediate = .pushData) : PushesBytes code i := by
  obtain ⟨-, hinfo, hstatus, heq⟩ := decodeInstructionAt_opcode hpc h
  have hstarts := (stands_of_decode hpc h).starts
  have hactive' : (decodeOpcode i.info.op pc fork).isActive = true := by
    unfold isActive
    rw [← hstatus]
    exact hactive
  have hle := opcodeInfo_immediateBytes_le (isActive_decodeOpcode.mp hactive')
  have hdata : decodeImmediate (decodeOpcode i.info.op pc fork) code (pc + 1) =
      decodePushData (decodeOpcode i.info.op pc fork) code (pc + 1) := by
    unfold decodeImmediate
    rw [if_pos hactive', ← hinfo, hpush]
  rw [hdata] at heq
  obtain ⟨h1, -, h3, h4⟩ := decodePushBytes_spec code i.info.immediateBytes 0
    ⟨0, [i.info.op], pc + 1, .complete⟩ hpc (by simp) (by rw [hinfo]; omega)
  have hlength : ((code.drop (pc + 1)).take i.info.immediateBytes).length =
      min i.info.immediateBytes (code.length - (pc + 1)) := by
    rw [length_take, length_drop]
  have hmissing : i.info.immediateBytes - min i.info.immediateBytes (code.length - (pc + 1)) =
      i.info.immediateBytes - (code.length - (pc + 1)) := by omega
  rw [hlength] at h3 h4
  rw [hmissing] at h4
  have hdata' : ∃ data, data =
      decodePushBytes code (decodeOpcode i.info.op pc fork).info.immediateBytes
      ⟨0, [i.info.op], pc + 1, .complete⟩ ∧
      i.encoding = data.encoding ∧ i.immediate = data.value ∧ i.immediateStatus = data.status :=
    ⟨_, rfl, congrArg encoding heq, congrArg immediate heq,
      congrArg LowInstruction.immediateStatus heq⟩
  obtain ⟨data, hbytes, hencoding, himmediate, hcomplete⟩ := hdata'
  rw [← hinfo] at hbytes
  rw [← hbytes] at h1 h3 h4
  refine ⟨?_, ?_, ?_⟩
  · rw [hencoding, h1, hstarts]
    rfl
  · rw [himmediate, h4, hstarts]
    rfl
  · rw [hcomplete, h3, hstarts]
    apply if_congr _ rfl rfl
    omega

end

/-- Decoded instructions that spell the code, each in its place. -/
structure Lossless (code : Code) (fork : Hardfork) (decoded : DecodedBytecode) : Prop where
  spells : decoded.instructions.flatMap LowInstruction.encoding = code
  first : (decoded.instructions.head?).elim code.length LowInstruction.pc = 0
  next : ∀ n i, decoded.instructions[n]? = some i →
    (decoded.instructions[n + 1]?).elim code.length LowInstruction.pc = i.nextPC
  length : ∀ i ∈ decoded.instructions, i.encoding ≠ [] ∧ i.nextPC = i.pc + i.encoding.length
  canonical : ∀ i ∈ decoded.instructions, decodeInstructionAt code i.pc fork = some i
  destinations : ∀ pc, pc ∈ decoded.jumpDestinations ↔
    ∃ i ∈ decoded.instructions, i.pc = pc ∧ i.isActive = true ∧ i.info.op = jumpdest
  destinationsApart : ∀ pc ∈ decoded.jumpDestinations, ∀ i ∈ decoded.instructions,
    ¬(i.pc < pc ∧ pc < i.nextPC)
  pushes : ∀ i ∈ decoded.instructions, i.isActive = true → i.info.immediate = .pushData →
    PushesBytes code i

variable {instructions : List LowInstruction}

lemma mem_destinationsOf {pc : Nat} :
    pc ∈ destinationsOf instructions ↔ ∃ i ∈ instructions, i.pc = pc ∧ i.is jumpdest = true := by
  unfold destinationsOf
  rw [mem_map]
  constructor
  · intro h
    obtain ⟨i, hi, hpc⟩ := h
    obtain ⟨hmem, his⟩ := mem_filter.mp hi
    exact ⟨i, hmem, hpc, his⟩
  · intro h
    obtain ⟨i, hmem, hpc, his⟩ := h
    exact ⟨i, mem_filter.mpr ⟨hmem, his⟩, hpc⟩

lemma lossless_of_tiles {code : Code} {fork : Hardfork} {decoded : DecodedBytecode}
    (htiles : Tiles code fork 0 decoded.instructions)
    (hjumps : decoded.jumpDestinations = destinationsOf decoded.instructions) :
    Lossless code fork decoded where
  spells := htiles.encodings
  first := htiles.first
  next n i hi := htiles.next hi
  length i hi := ⟨(htiles.stands hi).nonempty, (htiles.stands hi).next⟩
  canonical i hi := (htiles.mem hi).2.2
  destinations pc := by
    rw [hjumps, mem_destinationsOf]
    apply exists_congr
    intro i
    apply and_congr_right
    intro hi
    rw [is_jumpdest (htiles.mem hi).2.1 (htiles.mem hi).2.2]
  destinationsApart pc hpc i hi := by
    rw [hjumps] at hpc
    obtain ⟨j, hj, hpc, -⟩ := mem_destinationsOf.mp hpc
    rw [← hpc]
    exact htiles.apart hi hj
  pushes i hi := decodeInstructionAt_pushes (htiles.mem hi).2.1 (htiles.mem hi).2.2

lemma verifyInstructions_accepts {low : EVMLowIR} (hsize : low.code.length < 2 ^ 64)
    {pc : Nat} (h : Tiles low.code low.fork pc instructions) :
    verifyInstructions low instructions pc (destinationsOf instructions) = .ok (low.code.length,
      []) := by
  induction instructions generalizing pc with
  | nil =>
    have hend : pc = low.code.length := h
    rw [hend]
    rfl
  | cons i rest ih =>
    obtain ⟨hlt, hi, hrest⟩ := h
    have hstands := stands_of_decode hlt hi
    have hnext := hstands.next
    have hinside := hstands.inside
    have hih := ih hrest
    unfold verifyInstructions
    rw [hstands.starts, if_neg, hi]
    · dsimp only
      rw [if_neg (fun h => h rfl), if_neg (fun h => h hstands.bytes.symm), destinationsOf_cons,
        hstands.starts]
      split
      · rw [if_neg (fun h => h rfl)]
        exact hih
      · exact hih
    · rintro (h | h | h | h | h)
      · exact h rfl
      · exact hstands.nonempty h
      · omega
      · exact h hnext
      · omega

lemma Tiles.isEmpty {code : Code} {fork : Hardfork}
    (h : Tiles code fork 0 instructions) : instructions.isEmpty = code.isEmpty := by
  cases instructions with
  | nil =>
    have hend : 0 = code.length := h
    rw [length_eq_zero_iff.mp hend.symm]
    rfl
  | cons i rest =>
    have hlt : 0 < code.length := h.1
    cases code with
    | nil => exact absurd hlt (Nat.lt_irrefl 0)
    | cons b code => rfl

lemma verifyLowIRForExecution_accepts {low : EVMLowIR} (hsize : low.code.length < 2 ^ 64)
    (htiles : Tiles low.code low.fork 0 low.instructions)
    (hjumps : low.jumpDestinations = destinationsOf low.instructions) :
    verifyLowIRForExecution low = .ok () := by
  unfold verifyLowIRForExecution verifyLowIRExecutionStructure
  rw [if_neg (by omega), hjumps, verifyInstructions_accepts hsize htiles]
  dsimp only
  rw [if_neg, if_neg (fun h => h rfl)]
  rintro (h | h)
  · exact h rfl
  · exact h htiles.isEmpty

end NeverD.Evm
