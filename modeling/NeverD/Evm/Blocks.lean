import Mathlib.Data.List.TakeWhile
import NeverD.Evm.Lossless

namespace NeverD.Evm
open List

open NeverD.Lib
open Except (ok)

variable {codeSize : Nat} {i : LowInstruction}

section

variable {options : AnalyzeOptions} {pc : Nat} {starts result : List Nat}

lemma insertBlockStart_spec (hsorted : starts.Pairwise (· < ·))
    (h : insertBlockStart options pc starts = .ok result) :
    result.Pairwise (· < ·) ∧ ∀ s, s ∈ result ↔ s = pc ∨ s ∈ starts := by
  unfold insertBlockStart at h
  split at h
  next hmem =>
    rw [← ok.inj h]
    refine ⟨hsorted, ?_⟩
    intro s
    constructor
    · exact .inr
    · intro hs
      rcases hs with hs | hs
      · rw [hs]
        exact hmem
      · exact hs
  · split at h
    · cases h
    · rw [← ok.inj h]
      exact ⟨OrderedSet.sorted_insert hsorted, fun s => OrderedSet.mem_insert⟩

lemma insertBlockStartIf_spec {condition : Bool} (hsorted : starts.Pairwise (· < ·))
    (h : insertBlockStartIf condition options pc starts = .ok result) :
    result.Pairwise (· < ·) ∧ ∀ s, s ∈ result ↔ (condition = true ∧ s = pc) ∨ s ∈ starts := by
  unfold insertBlockStartIf at h
  split at h
  next hcondition =>
    obtain ⟨hresult, hmem⟩ := insertBlockStart_spec hsorted h
    refine ⟨hresult, ?_⟩
    intro s
    rw [hmem, and_iff_right hcondition]
  next hcondition =>
    rw [← ok.inj h]
    refine ⟨hsorted, ?_⟩
    intro s
    rw [or_iff_right]
    exact fun hs => hcondition hs.1

def MakesStart (codeSize : Nat) (i : LowInstruction) (s : Nat) : Prop :=
  (i.is jumpdest = true ∧ s = i.pc) ∨ (i.isTerminator = true ∧ i.nextPC < codeSize ∧ s = i.nextPC)

lemma insertBlockStarts_spec {instructions : List LowInstruction}
    (hsorted : starts.Pairwise (· < ·))
    (h : insertBlockStarts codeSize options instructions starts = .ok result) :
    result.Pairwise (· < ·) ∧ ∀ s, s ∈ result ↔ (∃ i ∈ instructions, MakesStart codeSize i s) ∨
      s ∈ starts := by
  induction instructions generalizing starts with
  | nil =>
    rw [← ok.inj h]
    exact ⟨hsorted, by simp⟩
  | cons i rest ih =>
    unfold insertBlockStarts at h
    split at h
    · cases h
    next starts1 hfirst =>
      split at h
      · cases h
      next starts2 hsecond =>
        obtain ⟨hsorted1, hmem1⟩ := insertBlockStartIf_spec hsorted hfirst
        obtain ⟨hsorted2, hmem2⟩ := insertBlockStartIf_spec hsorted1 hsecond
        obtain ⟨hresult, hmem⟩ := ih hsorted2 h
        refine ⟨hresult, ?_⟩
        intro s
        rw [hmem, hmem2, hmem1, exists_mem_cons_iff]
        generalize (∃ i, i ∈ rest ∧ MakesStart codeSize i s) = later
        unfold MakesStart
        simp only [Bool.and_eq_true, decide_eq_true_eq, and_assoc]
        tauto

end

/-- Blocks in a row from an instruction to the last one; none is empty. -/
def Partitions (instructions : List LowInstruction) : Nat → List LowBlock → Prop
  | n, [] => n = instructions.length
  | n, b :: rest =>
    b.firstInstruction = n ∧ 0 < b.instructionCount ∧ n + b.instructionCount ≤ instructions.length ∧
    Partitions instructions (n + b.instructionCount) rest

def LowBlock.slice (b : LowBlock) (instructions : List LowInstruction) : List LowInstruction :=
  (instructions.drop b.firstInstruction).take b.instructionCount

variable {blocks : List LowBlock}

lemma Partitions.joined {instructions : List LowInstruction} {n : Nat}
    (h : Partitions instructions n blocks) :
    (blocks.flatMap fun b => b.slice instructions) = instructions.drop n := by
  induction blocks generalizing n with
  | nil =>
    have hend : n = instructions.length := h
    rw [hend, drop_length]
    rfl
  | cons b rest ih =>
    obtain ⟨hfirst, -, -, hrest⟩ := h
    rw [flatMap_cons, ih hrest, LowBlock.slice, hfirst, ← drop_drop, take_append_drop]

lemma blocksFrom_nil {options : AnalyzeOptions} {starts : List Nat} :
    blocksFrom [] codeSize options starts blocks = .ok blocks := by
  induction starts with
  | nil => rfl
  | cons s starts ih => exact ih

lemma instructionIndex_none {pc n : Nat} {instructions : List LowInstruction}
    (h : ∀ i ∈ instructions, pc < i.pc) : instructionIndex pc instructions n = none := by
  induction instructions generalizing n with
  | nil => rfl
  | cons i rest ih =>
    have hi := h i mem_cons_self
    unfold instructionIndex
    rw [ih fun j hj => h j (mem_cons_of_mem _ hj), if_neg (by omega)]
    rfl

section

variable {instructions : List LowInstruction}
    (hsorted : instructions.Pairwise fun i j => i.pc < j.pc)

include hsorted

lemma instructionIndex_eq {n m : Nat} {i : LowInstruction} (hi : instructions[n]? = some i) :
    instructionIndex i.pc instructions m = some (m + n) := by
  induction instructions generalizing n m with
  | nil => cases hi
  | cons first rest ih =>
    obtain ⟨hfirst, hrest⟩ := pairwise_cons.mp hsorted
    unfold instructionIndex
    cases n with
    | zero =>
      rw [getElem?_cons_zero] at hi
      rw [← Option.some.inj hi, if_pos rfl]
      rw [instructionIndex_none hfirst]
      rfl
    | succ n =>
      rw [getElem?_cons_succ] at hi
      rw [ih hrest hi]
      show some (m + 1 + n) = some (m + (n + 1))
      congr 1
      omega

lemma index_unique {n m : Nat} {j : LowInstruction} (hi : instructions[n]? = some i)
    (hj : instructions[m]? = some j) (hpc : i.pc = j.pc) : n = m := by
  have hn := @instructionIndex_eq _ hsorted n 0 i hi
  have hm := @instructionIndex_eq _ hsorted m 0 j hj
  rw [hpc, hm] at hn
  have := Option.some.inj hn
  omega

/-- What a block of some starts is: it starts at its first instruction and ends at the next
block's. -/
structure Bounded (instructions : List LowInstruction) (codeSize : Nat) (starts : List Nat)
    (b : LowBlock) : Prop where
  start : b.startPC ∈ starts
  first : ∃ i, instructions[b.firstInstruction]? = some i ∧ i.pc = b.startPC
  end_ : (instructions[b.firstInstruction + b.instructionCount]?).elim codeSize LowInstruction.pc =
    b.endPC

-- A block reaches up to the instruction at the next start, since every start is the place of an
-- instruction.
lemma blocksFrom_spec {options : AnalyzeOptions} (hinside : ∀ i ∈ instructions, i.pc < codeSize)
    {startPC n : Nat} {rest : List Nat} {result : List LowBlock}
    (hi : instructions[n]? = some i) (hstart : i.pc = startPC)
    (hstarts : (startPC :: rest).Pairwise (· < ·))
    (hplaces : ∀ s ∈ rest, ∃ j ∈ instructions, j.pc = s)
    (h : blocksFrom instructions codeSize options (startPC :: rest) blocks = .ok result) :
    ∃ added, result = blocks ++ added ∧ Partitions instructions n added ∧
      ∀ b ∈ added, Bounded instructions codeSize (startPC :: rest) b := by
  induction rest generalizing startPC n i blocks with
  | nil =>
    have hlt : n < instructions.length := (List.getElem?_eq_some_iff.mp hi).1
    have hcount : ((instructions.drop n).takeWhile fun i => i.pc < codeSize).length =
        instructions.length - n := by
      rw [takeWhile_eq_self_iff.mpr, length_drop]
      intro j hj
      exact decide_eq_true (hinside j (mem_of_mem_drop hj))
    unfold blocksFrom at h
    rw [← hstart, @instructionIndex_eq _ hsorted n 0 i hi, Nat.zero_add] at h
    dsimp only [List.headD] at h
    rw [hcount] at h
    split at h
    · cases h
    · refine ⟨_, (ok.inj h).symm, ⟨rfl, ?_, ?_, ?_⟩, ?_⟩
      · dsimp only
        omega
      · dsimp only
        omega
      · show n + (instructions.length - n) = instructions.length
        omega
      · intro b hb
        rw [mem_singleton.mp hb]
        refine ⟨by rw [← hstart]; exact mem_cons_self, ⟨i, hi, rfl⟩, ?_⟩
        dsimp only
        rw [getElem?_eq_none (by omega)]
        rfl
  | cons nextPC rest ih =>
    obtain ⟨hbelow, hrest⟩ := pairwise_cons.mp hstarts
    obtain ⟨j, hj, hnext⟩ := hplaces nextPC mem_cons_self
    obtain ⟨m, hm⟩ := getElem?_of_mem hj
    have hlt : startPC < nextPC := hbelow nextPC mem_cons_self
    have hnm : n < m := OrderedSet.index_lt hsorted hi hm (by omega)
    have hmlt : m < instructions.length := (List.getElem?_eq_some_iff.mp hm).1
    have hcount : ((instructions.drop n).takeWhile fun i => i.pc < nextPC).length = m - n := by
      rw [← hnext]
      apply OrderedSet.length_takeWhile_below (hsorted.drop)
      rw [getElem?_drop, Nat.add_sub_cancel' (by omega)]
      exact hm
    have hsum : n + (m - n) = m := by omega
    unfold blocksFrom at h
    rw [← hstart, @instructionIndex_eq _ hsorted n 0 i hi, Nat.zero_add] at h
    dsimp only [List.headD] at h
    rw [hcount] at h
    split at h
    · cases h
    · obtain ⟨added, hresult, hpartitions, hbounded⟩ :=
        ih hm hnext hrest (fun s hs => hplaces s (mem_cons_of_mem _ hs)) h
      refine ⟨⟨i.pc, nextPC, n, m - n⟩ :: added, ?_, ⟨rfl, ?_, ?_, ?_⟩, ?_⟩
      · rw [hresult, append_assoc]
        rfl
      · dsimp only
        omega
      · dsimp only
        omega
      · rw [hsum]
        exact hpartitions
      · intro b hb
        rcases mem_cons.mp hb with hb | hb
        · rw [hb]
          refine ⟨by rw [← hstart]; exact mem_cons_self, ⟨i, hi, rfl⟩, ?_⟩
          rw [hsum, hm]
          exact hnext
        · obtain ⟨h1, h2, h3⟩ := hbounded b hb
          exact ⟨mem_cons_of_mem _ h1, h2, h3⟩

end

/-- Where a block may start: at the entry, at a jump destination, or right behind a terminator. -/
def StartsRightly (instructions : List LowInstruction) (b : LowBlock) : Prop :=
  ∃ i, instructions[b.firstInstruction]? = some i ∧ i.pc = b.startPC ∧
    (b.startPC = 0 ∨ (i.isActive = true ∧ i.info.op = jumpdest) ∨
      ∃ n j, b.firstInstruction = n + 1 ∧ instructions[n]? = some j ∧ j.isTerminator = true)

/-- Blocks that hold every instruction once, in order. -/
structure CutsInstructions (low : EVMLowIR) : Prop where
  partitions : Partitions low.instructions 0 low.blocks
  joined : (low.blocks.flatMap fun b => b.slice low.instructions) = low.instructions
  starts : ∀ b ∈ low.blocks, StartsRightly low.instructions b
  ends : ∀ b ∈ low.blocks,
    (low.instructions[b.firstInstruction + b.instructionCount]?).elim low.code.length
    LowInstruction.pc = b.endPC

section

variable {code : Code} {fork : Hardfork} {instructions : List LowInstruction}

lemma MakesStart.place (htiles : Tiles code fork 0 instructions) (hi : i ∈ instructions) {s : Nat}
    (h : MakesStart code.length i s) : ∃ j ∈ instructions, j.pc = s := by
  rcases h with h | h
  · exact ⟨i, hi, h.2.symm⟩
  · obtain ⟨-, hlt, hs⟩ := h
    obtain ⟨n, hn⟩ := getElem?_of_mem hi
    have hnext := htiles.next hn
    cases hj : instructions[n + 1]? with
    | none =>
      rw [hj] at hnext
      have : code.length = i.nextPC := hnext
      omega
    | some j =>
      rw [hj] at hnext
      exact ⟨j, mem_of_getElem? hj, by rw [hs]; exact hnext⟩

lemma startsRightly_of_mem (htiles : Tiles code fork 0 instructions) {b : LowBlock}
    {starts : List Nat}
    (hmem : ∀ s ∈ starts, s = 0 ∨ ∃ i ∈ instructions, MakesStart code.length i s)
    (hb : Bounded instructions code.length starts b) : StartsRightly instructions b := by
  obtain ⟨i, hi, hpc⟩ := hb.first
  have himem := mem_of_getElem? hi
  refine ⟨i, hi, hpc, ?_⟩
  rcases hmem b.startPC hb.start with h | h
  · exact .inl h
  · obtain ⟨j, hj, h⟩ := h
    rcases h with h | h
    · -- Two instructions at one place are the same.
      have hsame : i = j := by
        have hdecode := (htiles.mem himem).2.2
        rw [hpc, h.2, (htiles.mem hj).2.2] at hdecode
        exact (Option.some.inj hdecode).symm
      rw [hsame]
      exact .inr (.inl ((is_jumpdest (htiles.mem hj).2.1 (htiles.mem hj).2.2).mp h.1))
    · obtain ⟨hterminator, hlt, hs⟩ := h
      obtain ⟨n, hn⟩ := getElem?_of_mem hj
      have hnext := htiles.next hn
      cases hafter : instructions[n + 1]? with
      | none =>
        rw [hafter] at hnext
        have : code.length = j.nextPC := hnext
        omega
      | some k =>
        rw [hafter] at hnext
        have hk : k.pc = j.nextPC := hnext
        have hindex := index_unique htiles.sorted hi hafter (by omega)
        exact .inr (.inr ⟨n, j, hindex, hn, hterminator⟩)

end

lemma sliceBlocks_spec {decoded : DecodedBytecode} {options : AnalyzeOptions} {fork : Hardfork}
    {low : EVMLowIR}
    (htiles : Tiles decoded.code fork 0 decoded.instructions)
    (h : sliceBlocks decoded options = .ok low) :
    low.toDecodedBytecode = decoded ∧ CutsInstructions low := by
  unfold sliceBlocks at h
  split at h
  · cases h
  next entry hentry =>
    split at h
    · cases h
    next starts hstarts =>
      split at h
      · cases h
      next blocks hblocks =>
        obtain ⟨hsorted0, hmem0⟩ := insertBlockStart_spec List.Pairwise.nil hentry
        obtain ⟨hsorted, hmem⟩ := insertBlockStarts_spec hsorted0 hstarts
        have horigin : ∀ s ∈ starts, s = 0 ∨ ∃ i ∈ decoded.instructions,
            MakesStart decoded.code.length i s := by
          intro s hs
          rcases (hmem s).mp hs with hs | hs
          · exact .inr hs
          · rcases (hmem0 s).mp hs with hs | hs
            · exact .inl hs
            · cases hs
        have hzero : 0 ∈ starts := (hmem 0).mpr (.inr ((hmem0 0).mpr (.inl rfl)))
        obtain ⟨rest, hrest⟩ := OrderedSet.head_of_least hsorted hzero fun s _ => Nat.zero_le s
        rw [← ok.inj h]
        refine ⟨rfl, ?_⟩
        suffices hcut : Partitions decoded.instructions 0 blocks ∧
            ∀ b ∈ blocks, Bounded decoded.instructions decoded.code.length starts b from
          ⟨hcut.1, hcut.1.joined, fun b hb => startsRightly_of_mem htiles horigin (hcut.2 b hb),
            fun b hb => (hcut.2 b hb).end_⟩
        cases hinstructions : decoded.instructions with
        | nil =>
          rw [hinstructions, blocksFrom_nil] at hblocks
          rw [← ok.inj hblocks]
          exact ⟨rfl, fun b hb => (not_mem_nil hb).elim⟩
        | cons i others =>
          rw [← hinstructions]
          have hi : decoded.instructions[0]? = some i := by rw [hinstructions]; rfl
          have hfirst : i.pc = 0 := by
            have hfirst := htiles.first
            rw [hinstructions] at hfirst
            exact hfirst
          have hplaces : ∀ s ∈ rest, ∃ j ∈ decoded.instructions, j.pc = s := by
            intro s hs
            rcases horigin s (by rw [hrest]; exact mem_cons_of_mem _ hs) with h | h
            · exact ⟨i, mem_of_getElem? hi, by rw [hfirst, h]⟩
            · obtain ⟨j, hj, h⟩ := h
              exact h.place htiles hj
          rw [hrest] at hsorted hblocks ⊢
          obtain ⟨added, hadded, hcut⟩ :=
            blocksFrom_spec htiles.sorted (fun j hj => (htiles.mem hj).2.1) hi hfirst
            hsorted hplaces hblocks
          rw [hadded]
          exact hcut

/-- Decoding is lossless. What it gives is the code again, cut into instructions and blocks, and it
is accepted for execution. Decoding never looks outside the code, nor does it go on without an
end. -/
theorem decode_lossless {Flow : Type} (analyzeControlFlow : EVMLowIR → AnalyzeOptions →
    Except DecodeFailure Flow) (code : Code) :
    (∀ (options : DecodeOptions) (decoded : DecodedBytecode),
      decodeBytecode code options = .ok decoded →
      Lossless code options.fork decoded) ∧
      (∀ (options : AnalyzeOptions) (low : EVMLowIR) (flow : Flow),
      decodeLowIR analyzeControlFlow code options = .ok (low, flow) →
        low.code = code ∧ Lossless code options.fork low.toDecodedBytecode ∧ CutsInstructions low ∧
        verifyLowIRForExecution low = .ok ()) ∧
    ∀ options : DecodeOptions, decodeBytecode code options ≠ .error .stuck := by
  refine ⟨?_, ?_, decodeBytecode_not_stuck code⟩
  · intro options decoded h
    obtain ⟨-, -, -, -, htiles, hjumps⟩ := decodeBytecode_tiles h
    exact lossless_of_tiles htiles hjumps
  · intro options low flow h
    unfold decodeLowIR at h
    split at h
    · cases h
    · split at h
      · cases h
      next decoded hdecoded =>
        split at h
        · cases h
        next sliced hsliced =>
          split at h
          · cases h
          · have hlow : sliced = low := congrArg Prod.fst (Except.ok.inj h)
            obtain ⟨hfork, -, hcode, hsize, htiles, hjumps⟩ := decodeBytecode_tiles hdecoded
            rw [hlow] at hsliced
            have htiles' : Tiles decoded.code options.fork 0 decoded.instructions := by
              rw [hcode]
              exact htiles
            obtain ⟨hsame, hcut⟩ := sliceBlocks_spec htiles' hsliced
            rw [← hsame] at hfork hcode hjumps htiles
            refine ⟨hcode, lossless_of_tiles htiles hjumps, hcut, ?_⟩
            apply verifyLowIRForExecution_accepts _ _ hjumps
            · rw [hcode]
              exact hsize
            · rw [hcode, hfork]
              exact htiles

-- A push of a jump destination's byte, two blocks behind it, and a push that the code cuts off.
def sampleCode : Code := [0x60, 0x5b, 0x5b, 0x00, 0x5b, 0x61, 0x5b]

def sampleOptions : AnalyzeOptions := ⟨⟨.cancun, false, 64, 64, 64, 64, by decide⟩, 64⟩

theorem decode_lossless_sample : ∃ low : EVMLowIR,
    decodeLowIR (fun _ _ => Except.ok ()) sampleCode sampleOptions = .ok (low, ()) ∧
    low.jumpDestinations = [2, 4] ∧ Lossless sampleCode .cancun low.toDecodedBytecode ∧
    CutsInstructions low ∧ verifyLowIRForExecution low = .ok () := by
  have hdecoded : ∃ low : EVMLowIR, decodeLowIR (fun _ _ => Except.ok ()) sampleCode sampleOptions =
      .ok (low, ()) ∧ low.jumpDestinations = [2, 4] := ⟨_, rfl, rfl⟩
  obtain ⟨low, hlow, hjumps⟩ := hdecoded
  obtain ⟨-, hlossless, hcut, hverify⟩ :=
    (decode_lossless (fun _ _ => Except.ok ()) sampleCode).2.1 _ _ _ hlow
  exact ⟨low, hlow, hjumps, hlossless, hcut, hverify⟩

end NeverD.Evm
