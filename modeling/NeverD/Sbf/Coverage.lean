import NeverD.Sbf.Blocks
import NeverD.Sbf.Moves

namespace NeverD.Sbf
open List Option Bool DecodeContext

open NeverD.Lib

variable {slot : Nat} {info : OpcodeInfo}

namespace Executable

variable {σ : Type} (p : Executable) (environment : ExecutionEnvironment σ)
    (options : InterpreterOptions)

def executedFrom : Nat → Machine σ → List Nat
  | 0, _ => []
  | left + 1, m =>
    if p.image.text.instructionCount ≤ m.pc then []
    else m.pc :: match p.step environment options m with
      | .running m' => executedFrom left m'
      | .stopped _ _ _ _ => []

def executedSlots : List Nat :=
  match p.executeRaw environment options with
  | .ok _ => p.executedFrom environment options options.maxSteps (p.start environment)
  | .error _ => []

variable {p environment options}

lemma run_trace (hrecord : options.recordTrace = true) (left : Nat) (m : Machine σ) :
    (p.run environment options left m).trace.map (·.slot) =
      m.trace.map (·.slot) ++ p.executedFrom environment options left m := by
  induction left generalizing m with
  | zero =>
    exact (append_nil _).symm
  | succ left ih =>
    unfold run executedFrom
    by_cases hin : m.pc < p.image.text.instructionCount
    · rw [if_neg (by omega)]
      have htrace := @step_trace σ p environment options m hin
      rw [if_pos hrecord] at htrace
      cases hs : p.step environment options m with
      | running m' =>
        rw [hs] at htrace
        change m'.trace = _ at htrace
        rw [ih m', htrace, map_append, append_assoc]
        rfl
      | stopped m' status fault message =>
        rw [hs] at htrace
        change m'.trace = _ at htrace
        change m'.trace.map _ = _
        rw [htrace, map_append]
        rfl
    · rw [if_pos (by omega), append_nil]
      have hover := @step_overrun σ p environment options m (not_lt.mp hin)
      cases hs : p.step environment options m with
      | running m' => exact absurd hs (hover.2 m')
      | stopped m' status fault message =>
        have htrace := hover.1
        rw [hs] at htrace
        exact congrArg _ htrace

theorem executeRaw_trace {r : ExecutionResult} (hrecord : options.recordTrace = true)
    (h : p.executeRaw environment options = .ok r) :
    r.trace.map (·.slot) = p.executedSlots environment options := by
  unfold executedSlots
  rw [h]
  obtain ⟨_, -, h⟩ := of_bind_ok h
  obtain ⟨_, -, h⟩ := of_bind_ok h
  injection h with h
  rw [← h, run_trace hrecord]
  rfl

/-- The slot holds an indirect call that passes its checks. -/
def CallsIndirectly (p : Executable) (slot : Nat) : Prop :=
  (p.validation slot).valid = true ∧ ∃ info, (p.raw slot).info = some info ∧ info.op = .callX

/-- Control goes from an exit to the slot behind a call of a function. -/
def Returns (p : Executable) (a call b : Nat) : Prop :=
  (∃ info, p.Fetches a info ∧ info.op = .exit) ∧
    (∃ info, p.Fetches call info ∧ info.op = .call) ∧ (p.image.callee call).isSome = true ∧
    b = call + 1

end Executable

namespace Listing

variable {c : DecodeContext} {low : Listing} {entries : List Bool} {p : Executable}

section

variable (hl : c.Listed low.instructions) (hp : p.image = c.image)

include hl hp

theorem fetches_entry (h : p.Fetches slot info) :
    low.instructions[slot]? = some (c.resolvedAt slot) ∧
      (c.resolvedAt slot).isContinuation = false ∧
      (c.resolvedAt slot).isInvalid = false ∧ (c.resolvedAt slot).info = some info ∧
      (c.validation slot).valid = true ∧ (c.raw slot).info = some info := by
  obtain ⟨hin, hinfo, hvalid⟩ := h
  unfold Executable.validation at hvalid
  unfold Executable.raw at hinfo hvalid
  rw [hp] at hin hinfo hvalid
  have hv : (c.validation slot).valid = true := hvalid
  have hraw : (c.raw slot).info = some info := hinfo
  have hsize : slot < low.instructions.length := by
    rw [hl.length]
    exact hin
  have hat := getElem?_eq_getElem hsize
  have hstart : (low.instructions[slot]).isContinuation = false := by
    by_contra hno
    have hzero := hl.zero hat (eq_true_of_not_eq_false hno)
    have hnone : (c.raw slot).info = none := by
      change getOpcodeInfo (c.image.text.byte slot 0) _ = none
      rw [hzero]
      exact getOpcodeInfo_zero _
    rw [hnone] at hraw
    cases hraw
  have heq := hl.starts hat hstart
  rw [← heq]
  refine ⟨hat, hstart, ?_, ?_, hv, hraw⟩
  · rw [heq, resolvedAt_isInvalid, hv]
    rfl
  · rw [heq, resolvedAt_info, hraw]

def Joined (low : Listing) (entries : List Bool) (a b : Nat) : Prop :=
  ∀ j k, low.InBlock entries j a → low.InBlock entries k b → j ≠ k →
    ∃ kind ∈ [EdgeKind.branch, .branchTaken, .fallthrough, .call],
    low.HasEdge entries j (some k) kind

variable (h : p.Fetches slot info)
include h

theorem joined_next (hop : info.op ≠ .jump)
    (hexit : info.op ≠ .exit) (hcall : (c.resolvedAt slot).call ≠ .unsupported) :
    Joined low entries slot (slot + (c.resolvedAt slot).slotWidth) := by
  obtain ⟨hi, hstart, hvalid, hinfo, -, hraw⟩ := fetches_entry hl hp h
  have hexit' : info.isExit = false := by
    rw [(getOpcodeInfo_consistent hraw).2.2.2.2.1]
    simpa using hexit
  intro j k hj hk hne
  by_cases hend : Cuts.upper (low.ordered entries) low.size j ≤ slot + (c.resolvedAt slot).slotWidth
  · exact ⟨.fallthrough, by
      simp, hj.fallthrough_edge hl hi hstart hvalid hinfo hop hexit' hcall hend hk⟩
  · -- The slot behind is still in the block.
    exfalso
    apply hne
    obtain ⟨start, hs, hle, -⟩ := hj
    exact InBlock.unique ⟨start, hs, by omega, by omega⟩ hk

lemma lands_next : low.Lands entries (slot + (c.resolvedAt slot).slotWidth) := by
  obtain ⟨hi, hstart, -⟩ := fetches_entry hl hp h
  intro hcont
  exfalso
  unfold continuationAt at hcont
  cases hn : low.instructions[slot + (c.resolvedAt slot).slotWidth]? with
  | none =>
    rw [hn] at hcont
    cases hcont
  | some j =>
    rw [hn] at hcont
    have hno := hl.next hi hstart j hn
    change j.isContinuation = true at hcont
    rw [hno] at hcont
    cases hcont

lemma slotWidth_narrow (hid : info.id ≠ .lddw) : (c.resolvedAt slot).slotWidth = 1 := by
  obtain ⟨-, -, -, -, hvalid, hraw⟩ := fetches_entry hl hp h
  obtain ⟨info', hinfo', hwide, -⟩ := validateInstruction_valid hvalid
  rw [hraw] at hinfo'
  injection hinfo' with hinfo'
  rw [resolvedAt_slotWidth, if_neg]
  change (validateInstruction _ _ (c.raw slot)).hasLDDWContinuation ≠ true
  rw [hwide, ← hinfo']
  simpa using hid

lemma slotWidth_wide (hid : info.id = .lddw) : (c.resolvedAt slot).slotWidth = lddwSlotCount := by
  obtain ⟨-, -, -, -, hvalid, hraw⟩ := fetches_entry hl hp h
  obtain ⟨info', hinfo', hwide, -⟩ := validateInstruction_valid hvalid
  rw [hraw] at hinfo'
  injection hinfo' with hinfo'
  rw [resolvedAt_slotWidth, if_pos]
  change (validateInstruction _ _ (c.raw slot)).hasLDDWContinuation = true
  rw [hwide, ← hinfo']
  simpa using hid

lemma call_ne_unsupported (hop : info.op ≠ .call) : (c.resolvedAt slot).call ≠ .unsupported := by
  obtain ⟨-, -, -, -, hvalid, hraw⟩ := fetches_entry hl hp h
  have hid : info.id ≠ .callImm :=
    fun hid => hop ((getOpcodeInfo_consistent hraw).2.2.2.2.2.2.1.mp hid)
  have hdecoded : (c.decodeAt slot).info = some info := by
    rw [← hraw, ← resolvedAt_info]
    exact (c.resolvedAt_keeps slot).info.symm
  have heq : c.resolvedAt slot = c.decodeAt slot := by
    unfold resolvedAt resolveInstruction
    split
    · rfl
    · rw [hdecoded]
      dsimp only
      rw [if_pos hid]
  rw [heq]
  unfold decodeAt
  dsimp only
  rw [if_pos hvalid]
  dsimp only
  split <;> decide

lemma branch_target (hb : info.isBranch = true) :
    ∃ t, (p.validation slot).branchTarget = some t ∧ (c.resolvedAt slot).branchTarget = some t ∧
      low.Lands entries t := by
  obtain ⟨-, -, -, -, hvalid, hraw⟩ := fetches_entry hl hp h
  have hbranch := resolvedAt_branchTarget hvalid
  obtain ⟨info', hinfo', -, htarget, hin⟩ := validateInstruction_valid hvalid
  rw [hraw] at hinfo'
  injection hinfo' with hinfo'
  rw [← hinfo', if_pos hb] at htarget
  rw [← hinfo'] at hin
  have hsame : p.validation slot = c.validation slot := by
    unfold Executable.validation Executable.raw validation raw
    rw [hp]
  refine ⟨(branchSlot (c.raw slot)).toNat, ?_, ?_, ?_⟩
  · rw [hsame]
    exact htarget
  · rw [hbranch]
    exact htarget
  · intro hcont
    exfalso
    unfold continuationAt at hcont
    cases hn : low.instructions[(branchSlot (c.raw slot)).toNat]? with
    | none =>
      rw [hn] at hcont
      cases hcont
    | some j =>
      rw [hn] at hcont
      exact (hin hb).2 (hl.zero hn hcont)

theorem call_target {t : Nat} (hop : info.op = .call)
    (hcallee : p.image.callee slot = some t) : low.Lands entries t ∧ Joined low entries slot t ∧
      ∀ l k, low.InBlock entries l slot → low.InBlock entries k (slot + 1) →
        low.HasEdge entries l (some k) .fallthrough := by
  obtain ⟨hi, hstart, hvalid, hinfo, hv, hraw⟩ := fetches_entry hl hp h
  have hconsistent := getOpcodeInfo_consistent hraw
  have hid : info.id = .callImm := hconsistent.2.2.2.2.2.2.1.mpr hop
  rw [hp] at hcallee
  obtain ⟨hkind, htarget⟩ := resolvedAt_internal hv hraw hid hcallee
  have hjump : info.op ≠ .jump := by simp [hop]
  have hcond : info.isConditionalBranch = false := by
    rw [hconsistent.2.2.1, hop]
    rfl
  have hcall : info.isCall = true := by
    rw [hconsistent.2.2.2.1]
    simp [hop]
  have hexit : info.isExit = false := by
    rw [hconsistent.2.2.2.2.1]
    simp [hop]
  have hwidth := slotWidth_narrow hl hp h (by rw [hid]; decide)
  refine ⟨lands_callTarget hi hstart hvalid (by rw [hinfo]; rfl) htarget, ?_, ?_⟩
  · intro j k hj hk _
    exact ⟨.call, by
      simp, hj.call_edge hl hi hstart hvalid hinfo hjump hcond hcall hkind htarget hk⟩
  · intro l k hbl hbk
    have htr : (c.resolvedAt slot).transfersControl = true := by
      unfold LowInstruction.transfersControl
      rw [hinfo]
      simp [hcall]
    have hend := hbl.ends hl hi hstart (.inr htr)
    rw [← hwidth] at hbk
    exact hbl.fallthrough_edge hl hi hstart hvalid hinfo hjump hexit (by rw [hkind]; decide)
      hend hbk

/-- Control moves along an edge, unless it returns from a call. -/
theorem move_joined {t : Nat} {frames frames' : List CallFrame}
    (hdirect : ¬p.CallsIndirectly slot) (hm : p.Move slot info frames t frames') :
    (low.Lands entries t ∧ Joined low entries slot t ∧
      (frames' = frames ∨ ∃ frame, frames' = frame :: frames ∧ frame.returnSlot = slot + 1 ∧
        info.op = .call ∧ (p.image.callee slot).isSome = true)) ∨
    ∃ frame, frames = frame :: frames' ∧ t = frame.returnSlot ∧ info.op = .exit := by
  obtain ⟨hi, hstart, hvalid, hinfo, hv, hraw⟩ := fetches_entry hl hp h
  have hconsistent := getOpcodeInfo_consistent hraw
  have hbranch : info.op = .jump ∨ isConditional info.op = true → info.isBranch = true := by
    intro hor
    rw [hconsistent.2.1]
    simpa using hor
  cases hm with
  | wide hid =>
    have hop : info.op = .loadImm := hconsistent.2.2.2.2.2.1.mp hid
    rw [← slotWidth_wide hl hp h hid]
    exact .inl ⟨lands_next hl hp h, joined_next hl hp h (by simp [hop]) (by simp [hop])
      (call_ne_unsupported hl hp h (by simp [hop])), .inl rfl⟩
  | straight hid hjump hcond hcall hcallX hexit =>
    rw [← slotWidth_narrow hl hp h hid]
    exact .inl ⟨lands_next hl hp h,
      joined_next hl hp h hjump hexit (call_ne_unsupported hl hp h hcall), .inl rfl⟩
  | jump hjump =>
    obtain ⟨d, hd, hd', hlands⟩ := branch_target hl hp h (hbranch (.inl hjump))
    rw [hd, getD_some]
    refine .inl ⟨hlands, ?_, .inl rfl⟩
    intro j k hj hk _
    exact ⟨.branch, by
      simp, hj.jump_edge hl hi hstart hvalid hinfo hjump (hbranch (.inl hjump)) hd' hk⟩
  | taken hcond =>
    obtain ⟨d, hd, hd', hlands⟩ := branch_target hl hp h (hbranch (.inr hcond))
    have hjump : info.op ≠ .jump := by
      intro hop
      rw [hop] at hcond
      cases hcond
    rw [hd, getD_some]
    refine .inl ⟨hlands, ?_, .inl rfl⟩
    intro j k hj hk _
    exact ⟨.branchTaken, by
      simp, hj.taken_edge hl hi hstart hvalid hinfo hjump (hconsistent.2.2.1 ▸ hcond)
      (hbranch (.inr hcond)) hd' hk⟩
  | notTaken hcond =>
    have hne : ∀ op, isConditional op = false → info.op ≠ op := by
      intro op hop heq
      rw [heq, hop] at hcond
      cases hcond
    have hid : info.id ≠ .lddw := fun hid => hne _ rfl (hconsistent.2.2.2.2.2.1.mp hid)
    rw [← slotWidth_narrow hl hp h hid]
    exact .inl ⟨lands_next hl hp h, joined_next hl hp h (hne _ rfl) (hne _ rfl)
      (call_ne_unsupported hl hp h (hne _ rfl)), .inl rfl⟩
  | syscall hop hcallee hsrc =>
    have hid : info.id = .callImm := hconsistent.2.2.2.2.2.2.1.mpr hop
    have hsys : (c.resolvedAt slot).call = .syscall := by
      unfold Executable.raw at hsrc
      rw [hp] at hcallee hsrc
      exact resolvedAt_syscall hv hraw hid hcallee hsrc
    rw [← slotWidth_narrow hl hp h (by rw [hid]; decide)]
    exact .inl ⟨lands_next hl hp h,
      joined_next hl hp h (by simp [hop]) (by simp [hop]) (by rw [hsys]; decide), .inl rfl⟩
  | @call frame target hop hcallee hreturn =>
    obtain ⟨hlands, hjoined, -⟩ := call_target hl hp h hop hcallee
    exact .inl ⟨hlands, hjoined, .inr ⟨frame, rfl, hreturn, hop, by rw [hcallee]; rfl⟩⟩
  | indirect hop hreturn => exact absurd ⟨h.valid, info, h.info, hop⟩ hdirect
  | @exit frame rest hop hframes => exact .inr ⟨frame, hframes, rfl, hop⟩

omit h

end

/-- Control has been at the slot: it lies in a block that the search marks. -/
def Visited (low : Listing) (entries : List Bool) (slot : Nat) : Prop :=
  low.Lands entries slot ∧ ∃ k, low.InBlock entries k slot ∧ k ∈ low.reachableBlocks entries

/-- The slots at two positions in a row are joined by an edge, or the second one is where an earlier
call returns to. -/
def Follows (low : Listing) (entries : List Bool) (p : Executable) (slots : List Nat)
    (n a b : Nat) : Prop :=
  Joined low entries a b ∨ ∃ n' call : Nat, n' < n ∧ slots[n']? = some call ∧ p.Returns a call b ∧
      ∀ l k, low.InBlock entries l call → low.InBlock entries k b →
      low.HasEdge entries l (some k) .fallthrough

lemma Follows.append {slots : List Nat} {n a b : Nat} (h : Follows low entries p slots n a b)
    (rest : List Nat) : Follows low entries p (slots ++ rest) n a b := by
  rcases h with h | ⟨n', call, hlt, hcall, hrest⟩
  · exact .inl h
  · refine .inr ⟨n', call, hlt, ?_, hrest⟩
    rw [getElem?_append_left (List.getElem?_eq_some_iff.mp hcall).1]
    exact hcall

structure Traced (low : Listing) (entries : List Bool) (p : Executable) (slots : List Nat) :
    Prop where
  follows : ∀ {n a b : Nat}, slots[n]? = some a → slots[n + 1]? = some b →
    Follows low entries p slots n a b
  visited : ∀ slot ∈ slots, Visited low entries slot

lemma Traced.nil (low : Listing) (entries : List Bool) (p : Executable) :
    Traced low entries p [] := by
  constructor
  · intro n a b ha
    cases ha
  · intro slot hslot
    cases hslot

/-- What holds of a machine that has executed some slots. Each open call was made at one of them. -/
structure Tracked (low : Listing) (entries : List Bool) (p : Executable) {σ : Type}
    (slots : List Nat) (m : Machine σ) : Prop where
  traced : Traced low entries p slots
  frames : ∀ frame ∈ m.frames, ∃ n call : Nat, slots[n]? = some call ∧ frame.returnSlot = call + 1 ∧
    (∃ info, p.Fetches call info ∧ info.op = .call) ∧ (p.image.callee call).isSome = true
  next : m.pc < low.size → Visited low entries m.pc ∧
    ∀ n a : Nat, slots.length = n + 1 → slots[n]? = some a → Follows low entries p slots n a m.pc

variable {σ : Type} {slots : List Nat} {m : Machine σ}

theorem Tracked.push (h : Tracked low entries p slots m) (hin : m.pc < low.size) :
    Traced low entries p (slots ++ [m.pc]) := by
  obtain ⟨hvisited, hnext⟩ := h.next hin
  constructor
  · intro n a b ha hb
    apply Follows.append
    by_cases hn : n + 1 < slots.length
    · rw [getElem?_append_left hn] at hb
      rw [getElem?_append_left (by omega)] at ha
      exact h.traced.follows ha hb
    · have hlt : n + 1 < (slots ++ [m.pc]).length := (List.getElem?_eq_some_iff.mp hb).1
      rw [length_append, length_singleton] at hlt
      have hlength : slots.length = n + 1 := by omega
      rw [getElem?_append_left (by omega)] at ha
      rw [getElem?_append_right (by omega), hlength, Nat.sub_self] at hb
      injection hb with hb
      rw [← hb]
      exact hnext n a hlength ha
  · intro slot hslot
    rcases mem_append.mp hslot with hslot | hslot
    · exact h.traced.visited slot hslot
    · rw [mem_singleton.mp hslot]
      exact hvisited

theorem visited_of_edge {j k : Nat} {kind : EdgeKind} (hj : j ∈ low.reachableBlocks entries)
    (he : low.HasEdge entries j (some k) kind) (hk : low.InBlock entries k slot)
    (hlands : low.Lands entries slot) : Visited low entries slot :=
  ⟨hlands, k, hk, (low.reachableBlocks_closed entries).2 j k kind hj he⟩

variable (hl : c.Listed low.instructions) (hp : p.image = c.image)
  {environment : ExecutionEnvironment σ} {options : InterpreterOptions}

include hl hp

lemma Tracked.step (h : Tracked low entries p slots m) (hdirect : ¬p.CallsIndirectly m.pc)
    {m' : Machine σ}
    (hstep : p.step environment options m = .running m') :
    Tracked low entries p (slots ++ [m.pc]) m' := by
  obtain ⟨info, hfetch, hmove⟩ := Executable.step_move hstep
  have hin : m.pc < low.size := by
    unfold Listing.size
    rw [hl.length, ← hp]
    exact hfetch.inText
  obtain ⟨-, j, hj, hreach⟩ := (h.next hin).1
  have hlast : (slots ++ [m.pc])[slots.length]? = some m.pc := by
    rw [getElem?_append_right le_rfl, Nat.sub_self]
    rfl
  have hfirst : low.continuationAt 0 = false := by
    unfold continuationAt
    rw [getElem?_eq_getElem (show 0 < low.instructions.length from lt_of_le_of_lt
      (Nat.zero_le _) hin)]
    exact hl.first _ (getElem?_eq_getElem _)
  have hframes : ∀ frame ∈ m.frames, ∃ n call : Nat, (slots ++ [m.pc])[n]? = some call ∧
      frame.returnSlot = call + 1 ∧
      (∃ info, p.Fetches call info ∧ info.op = .call) ∧ (p.image.callee call).isSome = true := by
    intro frame hframe
    obtain ⟨n, call, hn, hrest⟩ := h.frames frame hframe
    refine ⟨n, call, ?_, hrest⟩
    rw [getElem?_append_left (List.getElem?_eq_some_iff.mp hn).1]
    exact hn
  rcases move_joined hl hp hfetch hdirect
    hmove with ⟨hlands, hjoined, hcalls⟩ | ⟨frame, hpop, hreturn, hexit⟩
  · constructor
    · exact h.push hin
    · intro frame hframe
      rcases hcalls with hsame | ⟨opened, hopened, hslot, hop, hcallee⟩
      · rw [hsame] at hframe
        exact hframes frame hframe
      · rw [hopened] at hframe
        rcases mem_cons.mp hframe with hframe | hframe
        · rw [hframe]
          exact ⟨slots.length, m.pc, hlast, hslot, ⟨info, hfetch, hop⟩, hcallee⟩
        · exact hframes frame hframe
    · intro hin'
      refine ⟨?_, ?_⟩
      · obtain ⟨k, hk⟩ := exists_inBlock hfirst hin'
        by_cases hjk : j = k
        · exact ⟨hlands, k, hk, hjk ▸ hreach⟩
        · obtain ⟨kind, -, he⟩ := hjoined j k hj hk hjk
          exact visited_of_edge hreach he hk hlands
      · intro n a hlength ha
        rw [length_append, length_singleton] at hlength
        rw [show n = slots.length by omega, hlast] at ha
        injection ha with ha
        rw [← ha]
        exact .inl hjoined
  · -- A return: the innermost open call was made at an earlier slot.
    obtain ⟨n', call, hn', hslot, ⟨info', hfetch', hop'⟩, hcallee⟩ :=
      h.frames frame (by rw [hpop]; exact mem_cons_self)
    obtain ⟨target, htarget⟩ := isSome_iff_exists.mp hcallee
    obtain ⟨-, -, hfall⟩ := call_target hl hp hfetch' hop' htarget
    have hpc : m'.pc = call + 1 := by rw [hreturn, hslot]
    constructor
    · exact h.push hin
    · intro opened hopened
      exact hframes opened (by rw [hpop]; exact mem_cons_of_mem _ hopened)
    · intro hin'
      have hnarrow : (c.resolvedAt call).slotWidth = 1 := by
        apply slotWidth_narrow hl hp hfetch'
        intro hid
        have hraw := (fetches_entry hl hp hfetch').2.2.2.2.2
        have := (getOpcodeInfo_consistent hraw).2.2.2.2.2.1.mp hid
        rw [hop'] at this
        cases this
      refine ⟨?_, ?_⟩
      · obtain ⟨-, l, hbl, hreachl⟩ := h.traced.visited call (mem_of_getElem? hn')
        obtain ⟨k, hk⟩ := exists_inBlock hfirst hin'
        have hlands : low.Lands entries m'.pc := by
          rw [hpc, ← hnarrow]
          exact lands_next hl hp hfetch'
        exact visited_of_edge hreachl (hfall l k hbl (hpc ▸ hk)) hk hlands
      · intro n a hlength ha
        rw [length_append, length_singleton] at hlength
        rw [show n = slots.length by omega, hlast] at ha
        injection ha with ha
        rw [← ha]
        refine .inr ⟨n', call, ?_, ?_, ?_, ?_⟩
        · have := (List.getElem?_eq_some_iff.mp hn').1
          omega
        · rw [getElem?_append_left (List.getElem?_eq_some_iff.mp hn').1]
          exact hn'
        · exact ⟨⟨info, hfetch, hexit⟩, ⟨info', hfetch', hop'⟩, hcallee, hpc⟩
        · intro l k hbl hbk
          exact hfall l k hbl (hpc ▸ hbk)

theorem Tracked.executedFrom (left : Nat) (h : (∀ slot ∈ slots, ¬p.CallsIndirectly slot) →
    Tracked low entries p slots m)
    (hdirect : ∀ slot ∈ slots ++ p.executedFrom environment options left m,
    ¬p.CallsIndirectly slot) :
    Traced low entries p (slots ++ p.executedFrom environment options left m) := by
  have hbefore : ∀ slot ∈ slots, ¬p.CallsIndirectly slot :=
    fun slot hslot => hdirect slot (mem_append_left _ hslot)
  induction left generalizing slots m with
  | zero =>
    unfold Executable.executedFrom
    rw [append_nil]
    exact (h hbefore).traced
  | succ left ih =>
    unfold Executable.executedFrom at hdirect ⊢
    by_cases hover : p.image.text.instructionCount ≤ m.pc
    · rw [if_pos hover, append_nil]
      exact (h hbefore).traced
    · rw [if_neg hover] at hdirect ⊢
      have hin : m.pc < low.size := by
        unfold Listing.size
        rw [hl.length, ← hp]
        omega
      cases hs : p.step environment options m with
      | stopped m' status fault message => exact (h hbefore).push hin
      | running m' =>
        rw [hs] at hdirect
        rw [← singleton_append, ← append_assoc] at hdirect ⊢
        have hpc : ∀ slot ∈ slots ++ [m.pc], ¬p.CallsIndirectly slot :=
          fun slot hslot => hdirect slot (mem_append_left _ hslot)
        apply ih ?_ hdirect hpc
        intro hnow
        exact (h hbefore).step hl hp (hnow m.pc (mem_append_right _ (mem_singleton_self _))) hs

end Listing

namespace LowIR

def Holds (graph : LowIR) (k slot : Nat) : Prop :=
  ∃ b, graph.blocks[k]? = some b ∧ b.startSlot ≤ slot ∧ slot < b.endSlot

/-- The blocks are intervals of slots, and each slot is in one of them. -/
structure Partition (graph : LowIR) : Prop where
  bounds : ∀ {k : Nat} {b : BasicBlock}, graph.blocks[k]? = some b →
    b.id = k ∧ b.startSlot < b.endSlot ∧ b.endSlot ≤ graph.slots
  cover : ∀ slot, slot < graph.slots → ∃! k, graph.Holds k slot

def Leaves (graph : LowIR) (j k : Nat) : Prop :=
  ∃ kind ∈ [EdgeKind.branch, .branchTaken, .fallthrough, .call], ⟨j, some k, kind⟩ ∈ graph.edges

end LowIR

namespace Listing

variable {c : DecodeContext} {low : Listing} {entries : List Bool}

lemma ordered_empty (hsize : low.size = 0) : low.ordered entries = [] := by
  unfold ordered
  rw [hsize]
  rfl

lemma getElem?_blocks (low : Listing) (entries : List Bool) (k : Nat) :
    (low.buildCFG entries).blocks[k]? = ((low.ordered entries)[k]?).map fun start =>
      { low.cutBlock entries k start with
        successors := (low.blockEdges (low.cutBlocks entries) (low.cutBlock entries k start)).foldl
          (fun successors e => addSuccessor successors e.1) []
        reachable := k ∈ low.reachableBlocks entries } := by
  unfold buildCFG
  split
  next hsize =>
    rw [ordered_empty hsize]
    rfl
  · unfold linkedBlocks
    rw [getElem?_map, getElem?_map, getElem?_cutBlocks, Option.map_map, Option.map_map]
    rfl

lemma holds_iff {k : Nat} : (low.buildCFG entries).Holds k slot ↔ low.InBlock entries k slot := by
  unfold LowIR.Holds InBlock
  rw [getElem?_blocks]
  constructor
  · intro h
    obtain ⟨b, hb, hle, hlt⟩ := h
    obtain ⟨start, hstart, rfl⟩ := map_eq_some_iff.mp hb
    exact ⟨start, hstart, hle, hlt⟩
  · intro h
    obtain ⟨start, hstart, hle, hlt⟩ := h
    rw [hstart]
    exact ⟨_, rfl, hle, hlt⟩

lemma lastInstruction_blocks {k : Nat} {b : BasicBlock} {start : Nat}
    (hb : (low.buildCFG entries).blocks[k]? = some b)
    (hstart : (low.ordered entries)[k]? = some start) :
    low.lastInstruction b = low.lastInstruction (low.cutBlock entries k start) := by
  rw [getElem?_blocks, hstart] at hb
  injection hb with hb
  rw [← hb]
  rfl

lemma buildCFG_partition (hl : low.size = 0 ∨ c.Listed low.instructions) :
    (low.buildCFG entries).Partition := by
  constructor
  · intro k b hb
    rw [getElem?_blocks] at hb
    obtain ⟨start, hstart, rfl⟩ := map_eq_some_iff.mp hb
    refine ⟨rfl, ?_, low.upper_le_size entries k⟩
    change start < Cuts.upper (low.ordered entries) low.size k
    unfold Cuts.upper
    cases hnext : (low.ordered entries)[k + 1]? with
    | none => exact (mem_ordered.mp (mem_of_getElem? hstart)).1
    | some t =>
      obtain ⟨hk, rfl⟩ := List.getElem?_eq_some_iff.mp hstart
      obtain ⟨hk', rfl⟩ := List.getElem?_eq_some_iff.mp hnext
      exact pairwise_iff_getElem.mp (low.ordered_sorted entries) k (k + 1) hk hk'
        (Nat.lt_succ_self k)
  · intro slot hslot
    have hlt : slot < low.size := hslot
    have hlisted : c.Listed low.instructions := hl.resolve_left (by omega)
    have hfirst : low.continuationAt 0 = false := by
      unfold continuationAt
      rw [getElem?_eq_getElem (show 0 < low.instructions.length from lt_of_le_of_lt
        (Nat.zero_le _) hlt)]
      exact hlisted.first _ (getElem?_eq_getElem _)
    obtain ⟨k, hk⟩ := exists_inBlock hfirst hlt
    refine ⟨k, holds_iff.mpr hk, ?_⟩
    intro j hj
    exact (holds_iff.mp hj).unique hk

/-- Decoding and resolution leave nothing to execute, or a listing of the whole text. -/
theorem executedSlots_empty {σ : Type} {p : Executable} {environment : ExecutionEnvironment σ}
    {options : InterpreterOptions} (h : ¬Sliced p.image.text) :
    p.executedSlots environment options = [] := by
  unfold Executable.executedSlots
  cases hr : p.executeRaw environment options with
  | error e => rfl
  | ok r =>
    exfalso
    apply h
    obtain ⟨_, hv, -⟩ := of_bind_ok hr
    obtain ⟨_, -, hv⟩ := of_bind_ok hv
    split at hv
    · cases hv
    · split at hv
      · cases hv
      next hlen =>
        split at hv
        · cases hv
        next hmax =>
          exact ⟨fun hz => hlen (.inl hz), by_contra fun hm => hlen (.inr hm), not_lt.mp hmax⟩

lemma entry_lt {σ : Type} {p : Executable} {environment : ExecutionEnvironment σ}
    {options : InterpreterOptions}
    {r : ExecutionResult} (hr : p.executeRaw environment options = .ok r) :
    p.image.entrySlot < p.image.text.instructionCount := by
  obtain ⟨_, hv, -⟩ := of_bind_ok hr
  obtain ⟨_, -, hv⟩ := of_bind_ok hv
  split at hv
  · cases hv
  · split at hv
    · cases hv
    · split at hv
      · cases hv
      · split at hv
        · cases hv
        · omega

lemma executedSlots_traced {σ : Type} {p : Executable} {environment : ExecutionEnvironment σ}
    {options : InterpreterOptions} (hl : c.Listed low.instructions) (hp : p.image = c.image)
    (hentry : low.entrySlot = c.image.entrySlot)
    (hdirect : ∀ slot ∈ p.executedSlots environment options, ¬p.CallsIndirectly slot) :
    Traced low entries p (p.executedSlots environment options) := by
  unfold Executable.executedSlots at hdirect ⊢
  cases hr : p.executeRaw environment options with
  | error e => exact .nil low entries p
  | ok r =>
    rw [hr] at hdirect
    have hin : low.entrySlot < low.size := by
      have := entry_lt hr
      unfold Listing.size
      rw [hl.length, hentry, ← hp]
      exact this
    have hfirst : low.continuationAt 0 = false := by
      unfold continuationAt
      rw [getElem?_eq_getElem (show 0 < low.instructions.length from lt_of_le_of_lt
        (Nat.zero_le _) hin)]
      exact hl.first _ (getElem?_eq_getElem _)
    have hstart : Tracked low entries p [] (p.start environment) := by
      refine ⟨.nil low entries p, ?_, ?_⟩
      · intro frame hframe
        cases hframe
      intro _
      have hpc : (p.start environment).pc = low.entrySlot := by
        rw [hentry, ← hp]
        rfl
      rw [hpc]
      obtain ⟨k, hk⟩ := exists_inBlock hfirst hin
      refine ⟨⟨low.lands_entry entries, k, hk, (low.reachableBlocks_closed entries).1 k hk⟩, ?_⟩
      intro n a hlength
      cases hlength
    exact Tracked.executedFrom hl hp options.maxSteps (fun _ => hstart) hdirect

/-- The graph of a decoded text: its blocks partition the slots, control leaves a block at its last
instruction only, and a run without indirect calls passes along edges, stays in reachable blocks,
and faults only in a block with an edge that says so. -/
theorem buildCFG_covers_execution {σ : Type} (c : DecodeContext) {decoded low : Listing}
    (hd : c.decodeInstructions = .ok decoded) (hr : c.resolveControlFlow decoded = .ok low)
    (entries : List Bool) : (low.buildCFG entries).Partition ∧
    (∀ (k slot : Nat) (b : BasicBlock) (i : LowInstruction),
      (low.buildCFG entries).blocks[k]? = some b →
      b.startSlot ≤ slot → slot < b.endSlot → low.instructions[slot]? = some i →
      i.isContinuation = false →
      i.transfersControl = true → low.lastInstruction b = some i ∧ b.endSlot ≤ slot + i.slotWidth) ∧
    ∀ (config : SBFVMConfig) (features : Word) (environment : ExecutionEnvironment σ)
      (options : InterpreterOptions), let p : Executable := ⟨c.image, config, features⟩
      let slots := p.executedSlots environment options
      (options.recordTrace = true → ∀ r, p.executeRaw environment options = .ok r →
        r.trace.map (·.slot) = slots) ∧
      ((∀ slot ∈ slots, ¬p.CallsIndirectly slot) →
        (∀ n a b j k : Nat, slots[n]? = some a → slots[n + 1]? = some b →
          (low.buildCFG entries).Holds j a →
          (low.buildCFG entries).Holds k b → j ≠ k → (low.buildCFG entries).Leaves j k ∨
            ∃ n' call l : Nat, n' < n ∧ slots[n']? = some call ∧ p.Returns a call b ∧
              (low.buildCFG entries).Holds l call ∧
              ⟨l, some k, .fallthrough⟩ ∈ (low.buildCFG entries).edges) ∧
        (∀ slot ∈ slots, ∃ (k : Nat) (b : BasicBlock), (low.buildCFG entries).blocks[k]? = some b ∧
          b.startSlot ≤ slot ∧ slot < b.endSlot ∧ b.reachable = true) ∧
        (∀ slot ∈ slots, ∀ i, low.instructions[slot]? = some i → i.isInvalid = true ∨
          i.isContinuation = true →
          (p.validation slot).valid = false ∧ ∃ k, (low.buildCFG entries).Holds k slot ∧
            (⟨k, none, .invalid⟩ ∈ (low.buildCFG entries).edges ∨
              ⟨k, none, .fault⟩ ∈ (low.buildCFG entries).edges))) := by
  obtain ⟨hentry, hcases⟩ := DecodeContext.resolveControlFlow_listed hd hr
  refine ⟨?_, ?_, ?_⟩
  · rcases hcases with ⟨hnil, -⟩ | hl
    · exact buildCFG_partition (c := c) (.inl (by unfold Listing.size; rw [hnil]; rfl))
    · exact buildCFG_partition (.inr hl)
  · intro k slot b i hb hle hlt hi hstart htr
    rcases hcases with ⟨hnil, -⟩ | hl
    · rw [hnil] at hi
      cases hi
    have hin : low.InBlock entries k slot := holds_iff.mp ⟨b, hb, hle, hlt⟩
    have hends := hin.ends hl hi hstart (.inr htr)
    obtain ⟨start, hs, hlast⟩ := hin.blockEdges_eq hl hi hstart hends
    refine ⟨?_, ?_⟩
    · rw [lastInstruction_blocks hb hs]
      exact hlast
    · rw [getElem?_blocks, hs] at hb
      injection hb with hb
      rw [← hb]
      exact hends
  · intro config features environment options p slots
    refine ⟨fun hrecord r hrun => Executable.executeRaw_trace hrecord hrun, ?_⟩
    intro hdirect
    rcases hcases with ⟨-, hsliced⟩ | hl
    · have hempty : slots = [] := executedSlots_empty hsliced
      rw [hempty]
      refine ⟨?_, ?_, ?_⟩
      · intro n a b j k ha
        cases ha
      · intro slot hslot
        cases hslot
      · intro slot hslot
        cases hslot
    have htraced : Traced low entries p slots := executedSlots_traced hl rfl hentry hdirect
    have hsize : ∀ {k slot : Nat}, low.InBlock entries k slot → low.size ≠ 0 := by
      intro k slot hin
      have := hin.lt_size
      omega
    refine ⟨?_, ?_, ?_⟩
    · intro n a b j k ha hb hj hk hne
      rw [holds_iff] at hj hk
      rcases htraced.follows ha hb with hjoined | ⟨n', call, hlt, hcall, hreturns, hfall⟩
      · obtain ⟨kind, hkind, he⟩ := hjoined j k hj hk hne
        exact .inl ⟨kind, hkind, he.mem_edges (hsize hj)⟩
      · obtain ⟨-, l, hbl, -⟩ := htraced.visited call (mem_of_getElem? hcall)
        exact .inr ⟨n', call, l, hlt, hcall, hreturns, holds_iff.mpr hbl,
          (hfall l k hbl hk).mem_edges (hsize hj)⟩
    · intro slot hslot
      obtain ⟨-, k, hk, hreach⟩ := htraced.visited slot hslot
      obtain ⟨b, hb, hle, hlt⟩ := holds_iff.mpr hk
      refine ⟨k, b, hb, hle, hlt, ?_⟩
      rw [getElem?_blocks] at hb
      obtain ⟨start, -, rfl⟩ := map_eq_some_iff.mp hb
      exact decide_eq_true hreach
    · intro slot hslot i hi hbad
      obtain ⟨hlands, k, hk, -⟩ := htraced.visited slot hslot
      have hvalidation : p.validation slot = c.validation slot := rfl
      by_cases hcont : i.isContinuation = true
      · have hzero := hl.zero hi hcont
        have hnone : (c.raw slot).info = none := by
          change getOpcodeInfo (c.image.text.byte slot 0) _ = none
          rw [hzero]
          exact getOpcodeInfo_zero _
        refine ⟨?_, k, holds_iff.mpr hk, .inr ?_⟩
        · rw [hvalidation]
          by_contra hvalid
          obtain ⟨info, hinfo, -⟩ := validateInstruction_valid (eq_true_of_not_eq_false hvalid)
          rw [hnone] at hinfo
          cases hinfo
        · exact (hlands.fault hl hk (by rw [continuationAt_eq hi]; exact hcont)).mem_edges
            (hsize hk)
      · have hstart : i.isContinuation = false := eq_false_of_not_eq_true hcont
        have hinv := hbad.resolve_right hcont
        refine ⟨?_, k, holds_iff.mpr hk,
          .inl ((hk.invalid_edge hl hi hstart hinv).mem_edges (hsize hk))⟩
        rw [hl.starts hi hstart, DecodeContext.resolvedAt_isInvalid] at hinv
        rw [hvalidation]
        simpa using hinv

/-- A wide load, a call over the exit behind it, and the function that is called. -/
def calledImage : ProgramImage where
  version := .v3
  textAddress := 0x100000000
  entrySlot := 0
  text := [0x18, 1, 0, 0, 5, 0, 0, 0, 0, 0, 0, 0, 0, 0, 0, 0, 0x85, 0x10, 0, 0, 1, 0, 0, 0, 0x95, 0,
    0, 0, 0, 0, 0, 0, 0xb7, 0, 0, 0, 7, 0, 0, 0, 0x95, 0, 0, 0, 0, 0, 0, 0]
  functions := []
  regions := []

def calledContext : DecodeContext :=
  ⟨calledImage, 0, true, fun _ => none, fun _ => none, fun _ => none⟩

def calledProgram : Executable := ⟨calledImage, { stackFrameSize := 8, maxCallDepth := 4 }, 0⟩

def silentHost : ExecutionEnvironment Unit := ⟨0, 0, [], none, none, none, none, ()⟩

lemma calledProgram_runs :
      (calledContext.decodeInstructions.bind calledContext.resolveControlFlow).isOk = true ∧
      calledProgram.executedSlots silentHost ⟨100, none, true⟩ = [0, 2, 4, 5, 3] ∧
      ∀ slot ∈ [0, 2, 4, 5, 3], (calledProgram.raw slot).info.all (·.op ≠ .callX) = true := by
  decide +kernel

/-- The call, the callee and the return are all in blocks that are marked. -/
theorem buildCFG_covers_execution_called :
    ∃ decoded low, calledContext.decodeInstructions = .ok decoded ∧
      calledContext.resolveControlFlow decoded = .ok low ∧ (low.buildCFG []).Partition ∧
      ∀ slot ∈ [0, 2, 4, 5, 3], ∃ (k : Nat) (b : BasicBlock),
        (low.buildCFG []).blocks[k]? = some b ∧
        b.startSlot ≤ slot ∧ slot < b.endSlot ∧ b.reachable = true := by
  obtain ⟨hok, hslots, hinfo⟩ := calledProgram_runs
  cases hd : calledContext.decodeInstructions with
  | error e =>
    rw [hd] at hok
    cases hok
  | ok decoded =>
    rw [hd] at hok
    cases hr : calledContext.resolveControlFlow decoded with
    | error e =>
      have hok : (calledContext.resolveControlFlow decoded).isOk = true := hok
      rw [hr] at hok
      cases hok
    | ok low =>
      have hcovers := buildCFG_covers_execution (σ := Unit) calledContext hd hr []
      have hrun := (hcovers.2.2 calledProgram.config 0 silentHost ⟨100, none, true⟩).2
      have hdirect : ∀ slot ∈ [0, 2, 4, 5, 3], ¬calledProgram.CallsIndirectly slot := by
        intro slot hslot hcalls
        obtain ⟨-, info, hi, hop⟩ := hcalls
        have hall := hinfo slot hslot
        rw [hi] at hall
        simp [hop] at hall
      refine ⟨decoded, low, rfl, hr, hcovers.1, ?_⟩
      have hreach := (hrun (by
        change ∀ slot ∈ calledProgram.executedSlots silentHost ⟨100, none, true⟩, _
        rw [hslots]
        exact hdirect)).2.1
      change ∀ slot ∈ calledProgram.executedSlots silentHost ⟨100, none, true⟩, _ at hreach
      rw [hslots] at hreach
      exact hreach

end Listing

end NeverD.Sbf
