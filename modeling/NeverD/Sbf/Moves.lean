import NeverD.Sbf.Execute
import NeverD.Sbf.Slots

namespace NeverD.Sbf

def Progress.machine {σ : Type} : Progress σ → Machine σ
  | .running m => m
  | .stopped m _ _ _ => m

namespace Executable

variable {σ : Type} {p : Executable} {environment : ExecutionEnvironment σ}
    {options : InterpreterOptions}

def raw (p : Executable) (slot : Nat) : RawInstruction :=
  decodeRaw p.image.text p.image.version slot

def validation (p : Executable) (slot : Nat) : InstructionValidation :=
  validateInstruction p.image.text p.image.version (p.raw slot)

structure Fetches (p : Executable) (slot : Nat) (info : OpcodeInfo) : Prop where
  inText : slot < p.image.text.instructionCount
  info : (p.raw slot).info = some info
  valid : (p.validation slot).valid = true

/-- The ways in which control leaves a slot, with the open calls before and after. -/
inductive Move (p : Executable) (slot : Nat) (info : OpcodeInfo) (frames : List CallFrame) :
    Nat → List CallFrame → Prop
  | wide (h : info.id = .lddw) : Move p slot info frames (slot + lddwSlotCount) frames
  | straight (h : info.id ≠ .lddw) (hjump : info.op ≠ .jump)
      (hbranch : isConditional info.op = false)
      (hcall : info.op ≠ .call) (hcallX : info.op ≠ .callX) (hexit : info.op ≠ .exit) :
      Move p slot info frames (slot + 1) frames
  | jump (h : info.op = .jump) :
      Move p slot info frames ((p.validation slot).branchTarget.getD 0) frames
  | taken (h : isConditional info.op = true) :
      Move p slot info frames ((p.validation slot).branchTarget.getD 0) frames
  | notTaken (h : isConditional info.op = true) : Move p slot info frames (slot + 1) frames
  | syscall (h : info.op = .call) (hcallee : p.image.callee slot = none)
      (hsrc : versionHasFeature p.image.version .staticSyscalls = true → (p.raw slot).src = 0) :
      Move p slot info frames (slot + 1) frames
  | call {frame : CallFrame} {target : Nat} (h : info.op = .call) (hcallee : p.image.callee slot =
      some target)
      (hreturn : frame.returnSlot = slot + 1) : Move p slot info frames target (frame :: frames)
  | indirect {frame : CallFrame} {target : Nat} (h : info.op = .callX)
      (hreturn : frame.returnSlot = slot + 1) : Move p slot info frames target (frame :: frames)
  | exit {frame : CallFrame} {rest : List CallFrame} (h : info.op = .exit)
      (hframes : frames = frame :: rest) : Move p slot info frames frame.returnSlot rest

variable {m' m : Machine σ}

lemma pushFrame_running {target : Nat} (h : p.pushFrame options m target = .running m') :
    m'.pc = target ∧ ∃ frame, frame.returnSlot = m.pc + 1 ∧ m'.frames = frame :: m.frames := by
  unfold pushFrame at h
  split at h
  · cases h
  · injection h with h
    rw [← h]
    exact ⟨rfl, _, rfl, rfl⟩

lemma pushFrame_trace (m : Machine σ) (target : Nat) :
    (p.pushFrame options m target).machine.trace = m.trace := by
  unfold pushFrame
  split <;> rfl

theorem dispatchSyscall_keeps (p : Executable) (environment : ExecutionEnvironment σ)
    (m : Machine σ) (hash : BitVec 32) : (p.dispatchSyscall environment m hash).2.pc = m.pc ∧
      (p.dispatchSyscall environment m hash).2.frames = m.frames ∧
      (p.dispatchSyscall environment m hash).2.trace = m.trace := by
  unfold dispatchSyscall
  dsimp only
  split <;> split <;> exact ⟨rfl, rfl, rfl⟩

lemma staticCall_trace (m : Machine σ) (i : RawInstruction) :
    (p.staticCall environment options m i).machine.trace = m.trace := by
  have hkeeps := p.dispatchSyscall_keeps environment m i.immediate
  unfold staticCall
  dsimp only
  split
  · split <;> exact hkeeps.2.2
  · split
    · split
      · rfl
      · exact pushFrame_trace m _
    · rfl

lemma legacyCall_trace (m : Machine σ) (i : RawInstruction) :
    (p.legacyCall environment options m i).machine.trace = m.trace := by
  have hkeeps := p.dispatchSyscall_keeps environment m i.immediate
  unfold legacyCall
  dsimp only
  split
  · split
    · split
      · rw [pushFrame_trace]
        exact hkeeps.2.2
      · exact hkeeps.2.2
    · exact hkeeps.2.2
  · rw [pushFrame_trace]
    exact hkeeps.2.2
  · exact hkeeps.2.2
  · exact hkeeps.2.2

lemma indirectCall_trace (m : Machine σ) (register : Nat) :
    (p.indirectCall options m register).machine.trace = m.trace := by
  unfold indirectCall
  dsimp only
  split
  next m' hm' =>
    have htrace : m'.trace = m.trace := by
      rw [← @pushFrame_trace σ p options m _, hm']
      rfl
    split <;> exact htrace
  · exact pushFrame_trace m _

lemma execute_trace (m : Machine σ) (i : RawInstruction) (info : OpcodeInfo)
    (v : InstructionValidation) :
    (p.execute environment options m i info v).machine.trace = m.trace := by
  unfold execute
  split
  · rfl
  · split
    · rfl
    · rfl
    · dsimp only
      split
      · rfl
      · split
        · split <;> rfl
        · split
          · split
            · exact staticCall_trace m i
            · exact legacyCall_trace m i
          · split
            · exact indirectCall_trace m _
            · split
              · unfold Executable.exit
                split <;> rfl
              · rfl

variable {info : OpcodeInfo}

theorem operate_some {v : Version} {i : RawInstruction} {registers : Registers}
    {memory : List MemoryRegion} {r : Faulting (Registers × List MemoryRegion)}
    (h : operate v info i registers memory = some r) :
    info.op ≠ .jump ∧ isConditional info.op = false ∧ info.op ≠ .call ∧ info.op ≠ .callX ∧
      info.op ≠ .exit := by
  unfold operate at h
  cases hop : info.op <;> simp_all [isConditional]

lemma staticCall_move (hop : info.op = .call)
    (hs : versionHasFeature p.image.version .staticSyscalls = true)
    (h : p.staticCall environment options m (p.raw m.pc) = .running m') :
    Move p m.pc info m.frames m'.pc m'.frames := by
  have hkeeps := p.dispatchSyscall_keeps environment m (p.raw m.pc).immediate
  unfold staticCall at h
  dsimp only at h
  have hcallee : p.image.callee m.pc =
      if (p.raw m.pc).src = 1 ∧ 0 ≤ (m.pc : Int) + 1 + (p.raw m.pc).immediate.toInt ∧
          (m.pc : Int) + 1 + (p.raw m.pc).immediate.toInt < p.image.text.instructionCount then
        some ((m.pc : Int) + 1 + (p.raw m.pc).immediate.toInt).toNat else none := if_pos hs
  by_cases hzero : (p.raw m.pc).src = 0
  · rw [if_pos hzero] at h
    have hnone : p.image.callee m.pc = none := by
      rw [hcallee, if_neg]
      omega
    split at h
    · cases h
    · cases h
    · injection h with h
      rw [← h]
      rw [hkeeps.1]
      change Move p m.pc info m.frames (m.pc + 1)
        (p.dispatchSyscall environment m (p.raw m.pc).immediate).2.frames
      rw [hkeeps.2.1]
      exact .syscall hop hnone fun _ => hzero
  · rw [if_neg hzero] at h
    split at h
    next hone =>
      split at h
      · cases h
      next hrange =>
        obtain ⟨hpc, frame, hreturn, hframes⟩ := pushFrame_running h
        rw [hpc, hframes]
        apply Move.call hop ?_ hreturn
        rw [hcallee, if_pos ⟨hone, by omega, by omega⟩]
    · cases h

lemma legacyCall_move (hop : info.op = .call)
    (hs : ¬versionHasFeature p.image.version .staticSyscalls = true)
    (h : p.legacyCall environment options m (p.raw m.pc) = .running m') :
    Move p m.pc info m.frames m'.pc m'.frames := by
  have hkeeps := p.dispatchSyscall_keeps environment m (p.raw m.pc).immediate
  have hcallee : p.image.callee m.pc = (p.image.findFunction (p.raw m.pc).immediate).map
      (·.targetSlot) := if_neg hs
  have hpush : ∀ {function : ProgramFunctionEntry}, p.image.findFunction (p.raw m.pc).immediate =
      some function →
      p.pushFrame options (p.dispatchSyscall environment m (p.raw m.pc).immediate).2
        function.targetSlot = .running m' → Move p m.pc info m.frames m'.pc m'.frames := by
    intro function hf hrun
    obtain ⟨hpc, frame, hreturn, hframes⟩ := pushFrame_running hrun
    rw [hpc, hframes, hkeeps.2.1]
    apply Move.call hop
    · rw [hcallee, hf]
      rfl
    · rw [hreturn, hkeeps.1]
  unfold legacyCall at h
  dsimp only at h
  split at h
  · split at h
    · split at h
      · exact hpush ‹_› h
      · cases h
    · cases h
  · exact hpush ‹_› h
  · cases h
  next hf =>
    injection h with h
    rw [← h]
    rw [hkeeps.1]
    rw [hkeeps.2.1]
    apply Move.syscall hop
    · rw [hcallee, hf]
      rfl
    · intro hyes
      exact absurd hyes hs

lemma indirectCall_move {register : Nat} (hop : info.op = .callX)
    (h : p.indirectCall options m register = .running m') :
    Move p m.pc info m.frames m'.pc m'.frames := by
  unfold indirectCall at h
  dsimp only at h
  split at h
  next m'' hm'' =>
    obtain ⟨hpc, frame, hreturn, hframes⟩ := pushFrame_running hm''
    split at h
    · cases h
    · injection h with h
      rw [← h, hframes]
      exact .indirect hop hreturn
  next hno => exact absurd h (hno m')

lemma exit_move (hop : info.op = .exit)
    (h : Executable.exit m = .running m') : Move p m.pc info m.frames m'.pc m'.frames := by
  unfold Executable.exit at h
  split at h
  · cases h
  next frame frames hframes =>
    injection h with h
    rw [← h]
    exact .exit hop hframes

lemma execute_move (hinfo : info.Consistent)
    (h : p.execute environment options m (p.raw m.pc) info (p.validation m.pc) = .running m') :
    Move p m.pc info m.frames m'.pc m'.frames := by
  unfold execute at h
  by_cases hid : info.id = .lddw
  · rw [if_pos hid] at h
    injection h with h
    rw [← h]
    exact .wide hid
  rw [if_neg hid] at h
  split at h
  next hoperate =>
    obtain ⟨hjump, hbranch, hcall, hcallX, hexit⟩ := operate_some hoperate
    injection h with h
    rw [← h]
    exact .straight hid hjump hbranch hcall hcallX hexit
  · cases h
  · dsimp only at h
    by_cases hjump : info.op = .jump
    · rw [if_pos hjump] at h
      injection h with h
      rw [← h]
      exact .jump hjump
    rw [if_neg hjump] at h
    by_cases hbranch : info.isConditionalBranch = true
    · have hcond : isConditional info.op = true := hinfo.2.2.1 ▸ hbranch
      rw [if_pos hbranch] at h
      split at h
      · injection h with h
        rw [← h]
        exact .taken hcond
      · injection h with h
        rw [← h]
        exact .notTaken hcond
    rw [if_neg hbranch] at h
    by_cases hcall : info.op = .call
    · rw [if_pos hcall] at h
      by_cases hs : versionHasFeature p.image.version .staticSyscalls = true
      · rw [if_pos hs] at h
        exact staticCall_move hcall hs h
      · rw [if_neg hs] at h
        exact legacyCall_move hcall hs h
    rw [if_neg hcall] at h
    by_cases hcallX : info.op = .callX
    · rw [if_pos hcallX] at h
      exact indirectCall_move hcallX h
    rw [if_neg hcallX] at h
    by_cases hexit : info.op = .exit
    · rw [if_pos hexit] at h
      exact exit_move hexit h
    · rw [if_neg hexit] at h
      cases h

def traceEntry (p : Executable) (m : Machine σ) : InterpreterTraceEntry :=
  ⟨m.pc, p.image.textAddress + BitVec.ofNat 64 (m.pc * instructionSize), (p.raw m.pc).rawOpcode,
    (p.raw m.pc).info.elim .unknown (·.id), m.frames.length⟩

def fetched (p : Executable) (options : InterpreterOptions) (m : Machine σ) : Machine σ :=
  { m with
    trace := if options.recordTrace then m.trace ++ [p.traceEntry m] else m.trace
    steps := m.steps + 1
    finalSlot := m.pc }

lemma step_eq (m : Machine σ) (h : m.pc < p.image.text.instructionCount) :
      p.step environment options m = match (p.raw m.pc).info with
      | some info =>
        if (p.validation m.pc).valid then
          p.execute environment options (p.fetched options m) (p.raw m.pc) info (p.validation m.pc)
        else fail (p.fetched options m) (p.validation m.pc).rule.executionFault
          (p.validation m.pc).rule.message
      | none =>
        fail (p.fetched options m) (p.validation m.pc).rule.executionFault
          (p.validation m.pc).rule.message := by
  unfold step
  rw [if_neg (by omega)]
  rfl

lemma step_trace (m : Machine σ) (h : m.pc < p.image.text.instructionCount) :
    (p.step environment options m).machine.trace =
      if options.recordTrace then m.trace ++ [p.traceEntry m] else m.trace := by
  rw [step_eq m h]
  split
  · split
    · exact execute_trace _ _ _ _
    · rfl
  · rfl

lemma step_overrun (m : Machine σ) (h : p.image.text.instructionCount ≤ m.pc) :
    (p.step environment options m).machine.trace = m.trace ∧
    ∀ m', p.step environment options m ≠ .running m' := by
  unfold step
  rw [if_pos h]
  exact ⟨rfl, fun m' h => by cases h⟩

/-- A step that goes on has fetched an instruction that passes its checks, and it is one of the
moves. -/
theorem step_move (h : p.step environment options m = .running m') :
    ∃ info, p.Fetches m.pc info ∧ Move p m.pc info m.frames m'.pc m'.frames := by
  by_cases hin : m.pc < p.image.text.instructionCount
  · rw [step_eq m hin] at h
    split at h
    next info hinfo =>
      by_cases hv : (p.validation m.pc).valid = true
      · rw [if_pos hv] at h
        exact ⟨info, ⟨hin, hinfo, hv⟩,
          execute_move (m := p.fetched options m) (getOpcodeInfo_consistent hinfo) h⟩
      · rw [if_neg hv] at h
        cases h
    · cases h
  · exact absurd h ((step_overrun m (Nat.le_of_not_lt hin)).2 m')

end Executable

end NeverD.Sbf
