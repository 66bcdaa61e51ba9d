import NeverD.Evm.Decoder

namespace NeverD.Evm
open List Nat Option

open NeverD.Lib

variable {bytes : Nat} {byte : BitVec 8} {fork : Hardfork}

def joinBytes (value : Nat) (bytes : Code) : Nat :=
  bytes.foldl (fun value b => 256 * value + b.toNat) value

def wordOfBytes (bytes : Code) : Nat := joinBytes 0 bytes

lemma shift_byte {value : BitVec 256} (h : value.toNat < 256 ^ 31) (b : BitVec 8) :
    ((value <<< 8) ||| b.setWidth 256).toNat = 256 * value.toNat + b.toNat := by
  have hb : b.toNat < 2 ^ 8 := b.isLt
  rw [BitVec.toNat_or, BitVec.toNat_shiftLeft, BitVec.toNat_setWidth, shiftLeft_eq,
    mod_eq_of_lt (show value.toNat * 2 ^ 8 < 2 ^ 256 by omega),
    mod_eq_of_lt (show b.toNat < 2 ^ 256 by omega),
    ← shiftLeft_eq, ← shiftLeft_add_eq_or_of_lt hb, shiftLeft_eq]
  omega

-- The bytes that are present come first; the loop then only shifts.
lemma decodePushBytes_spec (code : Code) (n k : Nat) (data : PushData) (hpc : data.pc ≤ code.length)
    (hvalue : data.value.toNat < 256 ^ k) (hroom : k + n ≤ 32) :
    let present := (code.drop data.pc).take n
    (decodePushBytes code n data).encoding = data.encoding ++ present ∧
    (decodePushBytes code n data).pc = data.pc + present.length ∧
    (decodePushBytes code n data).status = (if present.length < n then .truncated
      else data.status) ∧
    (decodePushBytes code n data).value.toNat =
      joinBytes data.value.toNat (present ++ List.replicate (n - present.length) 0) := by
  induction n generalizing k data with
  | zero => simp [decodePushBytes, joinBytes]
  | succ n ih =>
    have hsmall : data.value.toNat < 256 ^ 31 :=
      Nat.lt_of_lt_of_le hvalue (Nat.pow_le_pow_right (by decide) (by omega))
    have hgrow : ∀ b : BitVec 8, 256 * data.value.toNat + b.toNat < 256 ^ (k + 1) := by
      intro b
      have hb : b.toNat < 2 ^ 8 := b.isLt
      rw [Nat.pow_succ]
      omega
    unfold decodePushBytes
    cases hbyte : code[data.pc]? with
    | some b =>
      obtain ⟨hlt, hb⟩ := List.getElem?_eq_some_iff.mp hbyte
      have hdrop : code.drop data.pc = b :: code.drop (data.pc + 1) := by
        rw [drop_eq_getElem_cons hlt, hb]
      have hnext := shift_byte hsmall b
      have hih := ih (k + 1) ⟨(data.value <<< 8) ||| b.setWidth 256, data.encoding ++ [b],
        data.pc + 1, data.status⟩ hlt (by dsimp only; rw [hnext]; exact hgrow b) (by omega)
      dsimp only at hih ⊢
      rw [hdrop, take_succ_cons]
      obtain ⟨h1, h2, h3, h4⟩ := hih
      refine ⟨?_, ?_, ?_, ?_⟩
      · rw [h1, append_assoc]
        rfl
      · rw [h2, length_cons]
        omega
      · rw [h3, length_cons]
        simp only [Nat.add_lt_add_iff_right]
      · rw [h4, hnext, length_cons, Nat.add_sub_add_right, cons_append]
        rfl
    | none =>
      have hend : data.pc = code.length := by
        have := List.getElem?_eq_none_iff.mp hbyte
        omega
      have hdrop : code.drop data.pc = [] := by rw [hend, drop_length]
      have hnext := shift_byte hsmall 0
      have hzero : data.value <<< 8 ||| (0 : BitVec 8).setWidth 256 = data.value <<< 8 := by simp
      rw [hzero] at hnext
      have hih := ih (k + 1) { data with value := data.value <<< 8, status := .truncated } hpc
        (by dsimp only; rw [hnext]; exact hgrow 0) (by omega)
      dsimp only at hih ⊢
      rw [hdrop] at hih ⊢
      rw [take_nil] at hih ⊢
      obtain ⟨h1, h2, h3, h4⟩ := hih
      refine ⟨h1, h2, ?_, ?_⟩
      · rw [h3]
        simp
      · rw [h4, hnext, length_nil, Nat.sub_zero, Nat.sub_zero, nil_append, nil_append,
          replicate_succ]
        rfl

structure StandsAt (code : Code) (pc : Nat) (i : LowInstruction) : Prop where
  starts : i.pc = pc
  nonempty : i.encoding ≠ []
  next : i.nextPC = pc + i.encoding.length
  inside : i.nextPC ≤ code.length
  bytes : (code.drop pc).take i.encoding.length = i.encoding

variable {options : DecodeOptions} {i : LowInstruction}

lemma decodeEIP8024Immediate_keeps {result : LowInstruction} {encoded : BitVec 8}
    (h : decodeEIP8024Immediate i encoded = some result) :
    result.pc = i.pc ∧ result.info = i.info ∧ result.decodeStatus = i.decodeStatus ∧
      result.encoding = i.encoding := by
  unfold decodeEIP8024Immediate at h
  split at h
  · obtain ⟨depth, -, hresult⟩ := map_eq_some_iff.mp h
    rw [← hresult]
    exact ⟨rfl, rfl, rfl, rfl⟩
  · obtain ⟨pair, -, hresult⟩ := map_eq_some_iff.mp h
    rw [← hresult]
    exact ⟨rfl, rfl, rfl, rfl⟩
  · cases h
  · cases h

structure Extended (code : Code) (pc : Nat) (i : LowInstruction) (result : LowInstruction × Nat) :
    Prop where
  starts : result.1.pc = i.pc
  info : result.1.info = i.info
  status : result.1.decodeStatus = i.decodeStatus
  inside : result.2 ≤ code.length
  bytes : ∃ rest, result.1.encoding = i.encoding ++ rest ∧ result.2 = pc + rest.length ∧
    (code.drop pc).take rest.length = rest

variable {code : Code} {pc : Nat}

lemma extended_self (i : LowInstruction) (hpc : pc ≤ code.length) : Extended code pc i (i, pc) :=
  ⟨rfl, rfl, rfl, hpc, [], (append_nil _).symm, rfl, rfl⟩

lemma decodeConditionalImmediate_extended (i : LowInstruction) (hpc : pc ≤ code.length) :
    Extended code pc i (decodeConditionalImmediate i code pc) := by
  unfold decodeConditionalImmediate
  dsimp only
  split
  next result hresult =>
    obtain ⟨h1, h2, h3, h4⟩ := decodeEIP8024Immediate_keeps hresult
    split
    next hlt =>
      have hbyte : code[pc]? = some code[pc] := getElem?_eq_getElem hlt
      rw [hbyte, getD_some]
      refine ⟨h1, h2, h3, hlt, [code[pc]], by rw [← h4], rfl, ?_⟩
      rw [drop_eq_getElem_cons hlt]
      rfl
    · exact ⟨h1, h2, h3, hpc, [], by rw [← h4, append_nil], rfl, rfl⟩
  · exact ⟨rfl, rfl, rfl, hpc, [], (append_nil _).symm, rfl, rfl⟩

lemma decodePushData_extended (i : LowInstruction) (hpc : pc ≤ code.length)
    (hbytes : i.info.immediateBytes ≤ 32) : Extended code pc i (decodePushData i code pc) := by
  obtain ⟨h1, h2, -, -⟩ :=
    decodePushBytes_spec code i.info.immediateBytes 0 ⟨0, i.encoding, pc, .complete⟩ hpc
    (by simp) (by omega)
  dsimp only at h1 h2
  have hlength : ((code.drop pc).take i.info.immediateBytes).length ≤ code.length - pc := by
    rw [length_take, length_drop]
    omega
  refine ⟨rfl, rfl, rfl, ?_, (code.drop pc).take i.info.immediateBytes, h1, h2, ?_⟩
  · change (decodePushBytes code _ _).pc ≤ _
    rw [h2]
    omega
  · rw [length_take]
    exact take_eq_take_min.symm

lemma opcodeInfo_immediateBytes_le {info : OpcodeInfo}
    (h : opcodeInfo byte fork = some info) : info.immediateBytes ≤ 32 := by
  unfold opcodeInfo at h
  split at h
  · cases h
  next assigned hassigned =>
    have hle := immediateBytes_le hassigned
    split at h
    · cases h
    · split at h
      · rw [← Option.some.inj h]
        exact hle
      · rw [← Option.some.inj h]
        exact hle

lemma isActive_decodeOpcode :
    (decodeOpcode byte pc fork).isActive = true ↔
    opcodeInfo byte fork = some (decodeOpcode byte pc fork).info := by
  unfold LowInstruction.isActive decodeOpcode
  cases hactive : opcodeInfo byte fork with
  | none =>
    cases assignedOpcodeInfo byte <;> simp
  | some info => simp

lemma decodeImmediate_extended {byte : BitVec 8} {pc : Nat} {fork : Hardfork} {code : Code}
    {next : Nat} (hnext : next ≤ code.length) :
    Extended code next (decodeOpcode byte pc fork)
      (decodeImmediate (decodeOpcode byte pc fork) code next) := by
  unfold decodeImmediate
  split
  next hactive =>
    have hle := opcodeInfo_immediateBytes_le (isActive_decodeOpcode.mp hactive)
    split
    · exact extended_self _ hnext
    · exact decodePushData_extended _ hnext hle
    · exact decodeConditionalImmediate_extended _ hnext
    · exact decodeConditionalImmediate_extended _ hnext
  · exact extended_self _ hnext

lemma decodeInstructionAt_eq (h : code[pc]? = some byte) (fork : Hardfork) :
      decodeInstructionAt code pc fork =
      some { (decodeImmediate (decodeOpcode byte pc fork) code (pc + 1)).1 with
        nextPC := (decodeImmediate (decodeOpcode byte pc fork) code (pc + 1)).2 } := by
  unfold decodeInstructionAt
  rw [h]

theorem decodeInstructionAt_stands (fork : Hardfork) (hpc : pc < code.length) :
    ∃ i, decodeInstructionAt code pc fork = some i ∧ StandsAt code pc i := by
  have hextended := @decodeImmediate_extended code[pc] pc fork code (pc + 1) hpc
  rw [decodeInstructionAt_eq (getElem?_eq_getElem hpc)]
  generalize decodeImmediate (decodeOpcode code[pc] pc fork) code (pc + 1) = result at hextended ⊢
  obtain ⟨hstarts, -, -, hinside, rest, hencoding, hnext, hrest⟩ := hextended
  change result.1.encoding = code[pc] :: rest at hencoding
  refine ⟨_, rfl, hstarts, ?_, ?_, hinside, ?_⟩
  · dsimp only
    rw [hencoding]
    simp
  · dsimp only
    rw [hencoding, hnext, length_cons]
    omega
  · dsimp only
    rw [hencoding, drop_eq_getElem_cons hpc, length_cons, take_succ_cons, hrest]

/-- Instructions that lie one behind the other from a place to the end of the code. -/
def Tiles (code : Code) (fork : Hardfork) : Nat → List LowInstruction → Prop
  | pc, [] => pc = code.length
  | pc, i :: rest => pc < code.length ∧ decodeInstructionAt code pc fork = some i ∧
      Tiles code fork i.nextPC rest

def destinationsOf (instructions : List LowInstruction) : List Nat :=
  (instructions.filter fun i => i.is jumpdest).map LowInstruction.pc

lemma StandsAt.lt_next (h : StandsAt code pc i) : pc < i.nextPC := by
  have hlength := length_pos_iff.mpr h.nonempty
  have hnext := h.next
  omega

lemma stands_of_decode (hpc : pc < code.length)
    (h : decodeInstructionAt code pc fork = some i) : StandsAt code pc i := by
  obtain ⟨j, hj, hstands⟩ := decodeInstructionAt_stands fork hpc
  rw [h] at hj
  rw [Option.some.inj hj]
  exact hstands

structure Appends (code : Code) (fork : Hardfork) (pc : Nat) (result decoded : DecodedBytecode) :
    Prop where
  keepsFork : decoded.fork = result.fork
  keepsStrict : decoded.strict = result.strict
  keepsCode : decoded.code = result.code
  appended : ∃ rest, decoded.instructions = result.instructions ++ rest ∧ Tiles code fork pc rest ∧
    decoded.jumpDestinations = result.jumpDestinations ++ destinationsOf rest

lemma destinationsOf_cons (i : LowInstruction) (rest : List LowInstruction) :
    destinationsOf (i :: rest) = (if i.is jumpdest then [i.pc] else []) ++ destinationsOf rest := by
  unfold destinationsOf
  rw [filter_cons]
  split <;> rfl

lemma decodeFrom_appends {fuel : Nat}
    {result decoded : DecodedBytecode} (hpc : pc ≤ code.length)
    (hbelow : ∀ d ∈ result.jumpDestinations, d < pc)
    (h : decodeFrom code options fuel pc result bytes = .ok decoded) :
    Appends code options.fork pc result decoded := by
  have hdone : ∀ {pc : Nat} {result : DecodedBytecode}, pc ≤ code.length → ¬pc < code.length →
      result = decoded → Appends code options.fork pc result decoded := by
    intro pc result hpc hend heq
    rw [heq]
    exact ⟨rfl, rfl, rfl, [], (append_nil _).symm,
      show pc = code.length by omega, (append_nil _).symm⟩
  induction fuel generalizing pc result bytes with
  | zero =>
    unfold decodeFrom at h
    split at h
    · cases h
    next hend => exact hdone hpc hend (Except.ok.inj h)
  | succ fuel ih =>
    unfold decodeFrom at h
    split at h
    next hlt =>
      split at h
      · cases h
      · split at h
        · cases h
        next i hi =>
          split at h
          · cases h
          next diagnostics bytes' hdiagnose =>
            have hstands := stands_of_decode hlt hi
            have hnext := hstands.lt_next
            have hdestinations :
              (if i.is jumpdest = true then OrderedSet.insert i.pc result.jumpDestinations
                else result.jumpDestinations) = result.jumpDestinations ++ if i.is jumpdest then
                [i.pc] else [] := by
              split
              · rw [hstands.starts, OrderedSet.insert_last hbelow]
              · rw [append_nil]
            rw [hdestinations] at h
            have hrest := ih hstands.inside (by
              intro d hd
              rcases mem_append.mp hd with hd | hd
              · have := hbelow d hd
                omega
              · split at hd
                · rw [mem_singleton.mp hd, hstands.starts]
                  exact hnext
                · cases hd) h
            obtain ⟨hfork, hstrict, hcode, rest, hinstructions, htiles, hjumps⟩ := hrest
            refine ⟨hfork, hstrict, hcode, i :: rest, ?_, ⟨hlt, hi, htiles⟩, ?_⟩
            · rw [hinstructions]
              simp
            · rw [hjumps, destinationsOf_cons]
              simp
    next hend => exact hdone hpc hend (Except.ok.inj h)

theorem decodeBytecode_tiles {decoded : DecodedBytecode}
    (h : decodeBytecode code options = .ok decoded) :
    decoded.fork = options.fork ∧ decoded.strict = options.strict ∧ decoded.code = code ∧
    code.length < 2 ^ 64 ∧ Tiles code options.fork 0 decoded.instructions ∧
    decoded.jumpDestinations = destinationsOf decoded.instructions := by
  unfold decodeBytecode at h
  split at h
  · cases h
  · split at h
    · cases h
    · split at h
      · cases h
      · split at h
        · cases h
        next hsize =>
          obtain ⟨hfork, hstrict, hcode, rest, hinstructions, htiles, hjumps⟩ :=
            decodeFrom_appends (Nat.zero_le _) (fun d hd => (not_mem_nil hd).elim) h
          have hword := options.wordSize
          rw [nil_append] at hinstructions hjumps
          rw [hinstructions]
          exact ⟨hfork, hstrict, hcode, by omega, htiles, hjumps⟩

theorem appendDiagnostic_not_stuck {diagnostics : List Diagnostic} {entry : Diagnostic}
    : appendDiagnostic diagnostics entry bytes options ≠ .error .stuck := by
  unfold appendDiagnostic decoderError
  split
  · simp
  · split <;> simp

lemma diagnoseInstruction_not_stuck {diagnostics : List Diagnostic}
    : diagnoseInstruction i diagnostics bytes options ≠ .error .stuck := by
  unfold diagnoseInstruction
  dsimp only
  split
  next e he =>
    split at he
    · intro heq
      rw [Except.error.inj heq] at he
      exact appendDiagnostic_not_stuck he
    · cases he
  · split
    · exact appendDiagnostic_not_stuck
    · simp

theorem decodeFrom_not_stuck {fuel : Nat} {result : DecodedBytecode}
    (hfuel : code.length - pc ≤ fuel) :
    decodeFrom code options fuel pc result bytes ≠ .error .stuck := by
  induction fuel generalizing pc result bytes with
  | zero =>
    unfold decodeFrom
    rw [if_neg (by omega)]
    simp
  | succ fuel ih =>
    unfold decodeFrom
    split
    next hlt =>
      split
      · simp [decoderError]
      · obtain ⟨i, hi, hstands⟩ := decodeInstructionAt_stands options.fork hlt
        have hnext := hstands.lt_next
        rw [hi]
        dsimp only
        split
        next e he =>
          intro heq
          rw [Except.error.inj heq] at he
          exact diagnoseInstruction_not_stuck he
        · exact ih (by omega)
    · simp

lemma decodeBytecode_not_stuck (code : Code) (options : DecodeOptions) :
    decodeBytecode code options ≠ .error .stuck := by
  unfold decodeBytecode
  split
  · simp [decoderError]
  · split
    · simp [decoderError]
    · split
      · simp [decoderError]
      · split
        · simp [decoderError]
        · exact decodeFrom_not_stuck (Nat.le_refl _)

end NeverD.Evm
