import NeverD.Lib.Fallible
import NeverD.Sbf.Decode
import Mathlib.Data.List.GetD

namespace NeverD.Sbf
open List Option

open NeverD.Lib

/-- The slot that an immediate call goes to, when it is a call inside the text or of a registered
function. -/
def ProgramImage.callee (image : ProgramImage) (slot : Nat) : Option Nat :=
  let i := decodeRaw image.text image.version slot
  if versionHasFeature image.version .staticSyscalls then
    let target : Int := slot + 1 + i.immediate.toInt
    if i.src = 1 ∧ 0 ≤ target ∧ target < image.text.instructionCount then some target.toNat
      else none
  else (image.findFunction i.immediate).map (·.targetSlot)

namespace DecodeContext

variable {c : DecodeContext}

inductive Decodes (c : DecodeContext) : Nat → List LowInstruction → Prop
  | done {slot : Nat} (h : c.image.text.instructionCount ≤ slot) : Decodes c slot []
  | narrow {slot : Nat} {rest : List LowInstruction} (h : slot < c.image.text.instructionCount)
      (hw : (c.decodeAt slot).slotWidth = 1) (hrest : Decodes c (slot + 1) rest) :
      Decodes c slot (c.decodeAt slot :: rest)
  | wide {slot : Nat} {rest : List LowInstruction} (h : slot + 1 < c.image.text.instructionCount)
      (hw : (c.decodeAt slot).slotWidth = lddwSlotCount) (hzero : c.image.text.byte (slot + 1) 0 =
        0)
      (hrest : Decodes c (slot + 2) rest) :
      Decodes c slot (c.decodeAt slot :: c.continuationAt (slot + 1) :: rest)

lemma decodeAt_slotWidth (c : DecodeContext) (slot : Nat) :
    (c.decodeAt slot).slotWidth = if (c.validation slot).hasLDDWContinuation then lddwSlotCount
    else 1 := by
  unfold decodeAt
  dsimp only
  split <;> rfl

lemma decodeAt_isContinuation (c : DecodeContext) (slot : Nat) :
    (c.decodeAt slot).isContinuation = false := by
  unfold decodeAt
  dsimp only
  split <;> rfl

lemma decodeFrom_decodes {fuel slot : Nat} {diagnostics : List Diagnostic}
    {r : List LowInstruction × List Diagnostic}
    (hfuel : c.image.text.instructionCount - slot ≤ fuel)
    (h : c.decodeFrom fuel slot diagnostics = .ok r) : Decodes c slot r.1 := by
  induction fuel generalizing slot diagnostics r with
  | zero =>
    injection h with h
    rw [← h]
    exact .done (by omega)
  | succ fuel ih =>
    unfold decodeFrom at h
    by_cases hslot : slot < c.image.text.instructionCount
    · rw [if_pos hslot] at h
      obtain ⟨diagnostics', -, h⟩ := of_bind_ok h
      by_cases hw : (c.decodeAt slot).slotWidth = lddwSlotCount
      · rw [if_pos hw] at h
        obtain ⟨rest, hr, h⟩ := of_bind_ok h
        have hwide : (c.validation slot).hasLDDWContinuation = true := by
          rw [decodeAt_slotWidth] at hw
          by_contra hno
          rw [if_neg hno] at hw
          exact absurd hw (by decide)
        obtain ⟨info, -, -, hin, hzero⟩ := validateInstruction_wide hwide
        injection h with h
        rw [← h]
        exact .wide hin hw hzero (ih (by omega) hr)
      · rw [if_neg hw] at h
        obtain ⟨rest, hr, h⟩ := of_bind_ok h
        have hone : (c.decodeAt slot).slotWidth = 1 := by
          rw [decodeAt_slotWidth] at hw ⊢
          by_cases hwide : (c.validation slot).hasLDDWContinuation = true
          · rw [if_pos hwide] at hw
            exact absurd rfl hw
          · rw [if_neg hwide]
        injection h with h
        rw [← h]
        exact .narrow hslot hone (ih (by omega) hr)
    · rw [if_neg hslot] at h
      injection h with h
      rw [← h]
      exact .done (by omega)

variable {l : List LowInstruction}

lemma Decodes.length {slot : Nat} (h : Decodes c slot l) :
    l.length = c.image.text.instructionCount - slot := by
  induction h with
  | done h =>
    simp only [length_nil]
    omega
  | narrow h hw hrest ih =>
    simp only [length_cons]
    omega
  | wide h hw hzero hrest ih =>
    simp only [length_cons]
    omega

lemma Decodes.first {slot : Nat} (h : Decodes c slot l) {i : LowInstruction}
    (hi : l[0]? = some i) : i.isContinuation = false := by
  cases h with
  | done h => cases hi
  | narrow h hw hrest =>
    injection hi with hi
    rw [← hi]
    exact decodeAt_isContinuation c slot
  | wide h hw hzero hrest =>
    injection hi with hi
    rw [← hi]
    exact decodeAt_isContinuation c slot

/-- An entry is the instruction at its slot, followed by the one where it ends, or the second slot
of a wide load. -/
theorem Decodes.entry {slot : Nat} (h : Decodes c slot l) {k : Nat} {i : LowInstruction}
    (hi : l[k]? = some i) :
    (i = c.decodeAt (slot + k) ∧ (∀ j, l[k + i.slotWidth]? = some j → j.isContinuation = false) ∧
        (i.slotWidth = 1 ∨
        i.slotWidth = lddwSlotCount ∧ l[k + 1]? = some (c.continuationAt (slot + k + 1)))) ∨
    (i = c.continuationAt (slot + k) ∧ c.image.text.byte (slot + k) 0 = 0 ∧
      ∀ j, l[k + 1]? = some j → j.isContinuation = false) := by
  induction h generalizing k with
  | done h => cases hi
  | @narrow slot rest h hw hrest ih =>
    cases k with
    | zero =>
      cases hi
      left
      refine ⟨rfl, ?_, .inl hw⟩
      intro j hj
      rw [hw] at hj
      exact hrest.first hj
    | succ k =>
      have h := ih (k := k) hi
      simpa only [Nat.add_right_comm _ 1, getElem?_cons_succ, Nat.add_right_comm k 1,
        show slot + (k + 1) = slot + 1 + k by omega] using h
  | @wide slot rest h hw hzero hrest ih =>
    match k with
    | 0 =>
      cases hi
      left
      refine ⟨rfl, ?_, .inr ⟨hw, rfl⟩⟩
      intro j hj
      rw [hw] at hj
      exact hrest.first hj
    | 1 =>
      cases hi
      right
      exact ⟨rfl, hzero, fun j hj => hrest.first hj⟩
    | k + 2 =>
      have h := ih (k := k) hi
      have hindex : k + 2 + i.slotWidth = k + i.slotWidth + 2 := by omega
      rw [hindex, show slot + (k + 2) = slot + 2 + k by omega]
      exact h

lemma resolveAll_map {count : Nat} {diagnostics : List Diagnostic}
    {r : List LowInstruction × List Diagnostic} (h : c.resolveAll count l diagnostics = .ok r) :
    r.1 = l.map fun i => (c.resolveInstruction count i).1 := by
  induction l generalizing diagnostics r with
  | nil =>
    injection h with h
    rw [← h]
    rfl
  | cons i l ih =>
    obtain ⟨diagnostics', -, h⟩ := of_bind_ok h
    obtain ⟨rest, hr, h⟩ := of_bind_ok h
    injection h with h
    rw [← h, map_cons, ← ih hr]

structure Keeps (i j : LowInstruction) : Prop where
  slot : j.slot = i.slot
  info : j.info = i.info
  invalidReason : j.invalidReason = i.invalidReason
  isContinuation : j.isContinuation = i.isContinuation
  slotWidth : j.slotWidth = i.slotWidth
  branchTarget : j.branchTarget = i.branchTarget

lemma Keeps.refl (i : LowInstruction) : Keeps i i := ⟨rfl, rfl, rfl, rfl, rfl, rfl⟩

lemma resolveInstruction_keeps (c : DecodeContext) (count : Nat) (i : LowInstruction) :
    Keeps i (c.resolveInstruction count i).1 := by
  unfold resolveInstruction
  split
  · exact .refl i
  · split
    · exact .refl i
    · split
      · exact .refl i
      · split
        · unfold resolveStaticCall
          dsimp only
          split
          · exact ⟨rfl, rfl, rfl, rfl, rfl, rfl⟩
          · split
            · split <;> exact ⟨rfl, rfl, rfl, rfl, rfl, rfl⟩
            · exact ⟨rfl, rfl, rfl, rfl, rfl, rfl⟩
        · unfold resolveLegacyCall
          dsimp only
          split
          · exact ⟨rfl, rfl, rfl, rfl, rfl, rfl⟩
          · split
            · exact ⟨rfl, rfl, rfl, rfl, rfl, rfl⟩
            · split <;> exact ⟨rfl, rfl, rfl, rfl, rfl, rfl⟩

def resolvedAt (c : DecodeContext) (slot : Nat) : LowInstruction :=
  (c.resolveInstruction c.image.text.instructionCount (c.decodeAt slot)).1

structure Listed (c : DecodeContext) (l : List LowInstruction) : Prop where
  length : l.length = c.image.text.instructionCount
  first : ∀ i, l[0]? = some i → i.isContinuation = false
  starts : ∀ {slot : Nat} {i : LowInstruction}, l[slot]? = some i → i.isContinuation = false →
    i = c.resolvedAt slot
  next : ∀ {slot : Nat} {i : LowInstruction}, l[slot]? = some i → i.isContinuation = false →
    ∀ j, l[slot + i.slotWidth]? = some j → j.isContinuation = false
  inner : ∀ {slot : Nat} {i : LowInstruction}, l[slot]? = some i → i.isContinuation = false →
    i.slotWidth = 1 ∨ i.slotWidth = lddwSlotCount ∧ ∃ j, l[slot + 1]? = some j ∧
    j.isContinuation = true
  zero : ∀ {slot : Nat} {i : LowInstruction}, l[slot]? = some i → i.isContinuation = true →
    c.image.text.byte slot 0 = 0
  after : ∀ {slot : Nat} {i : LowInstruction}, l[slot]? = some i → i.isContinuation = true →
    ∀ j, l[slot + 1]? = some j → j.isContinuation = false

lemma Decodes.listed (h : Decodes c 0 l) :
    Listed c (l.map fun i => (c.resolveInstruction l.length i).1) := by
  have hlength := h.length
  have hat : ∀ {slot : Nat} {i : LowInstruction},
      (l.map fun i => (c.resolveInstruction l.length i).1)[slot]? = some i →
      ∃ j, l[slot]? = some j ∧ i = (c.resolveInstruction l.length j).1 := by
    intro slot i hi
    rw [getElem?_map] at hi
    obtain ⟨j, hj, hij⟩ := map_eq_some_iff.mp hi
    exact ⟨j, hj, hij.symm⟩
  have hcont : ∀ j, ((c.resolveInstruction l.length j).1).isContinuation = j.isContinuation :=
    fun j => (resolveInstruction_keeps c l.length j).isContinuation
  have hwidth : ∀ j, ((c.resolveInstruction l.length j).1).slotWidth = j.slotWidth :=
    fun j => (resolveInstruction_keeps c l.length j).slotWidth
  -- An entry that starts an instruction is the decoded one.
  have hstart : ∀ {slot : Nat} {j : LowInstruction}, l[slot]? = some j → j.isContinuation = false →
      j = c.decodeAt slot ∧ (∀ k, l[slot + j.slotWidth]? = some k → k.isContinuation = false) ∧
        (j.slotWidth = 1 ∨ j.slotWidth = lddwSlotCount ∧
          l[slot + 1]? = some (c.continuationAt (slot + 1))) := by
    intro slot j hj hno
    have hentry := h.entry hj
    simp only [Nat.zero_add] at hentry
    rcases hentry with hd | ⟨hd, -⟩
    · exact hd
    · rw [hd] at hno
      cases hno
  have hinner : ∀ {slot : Nat} {j : LowInstruction}, l[slot]? = some j → j.isContinuation = true →
      c.image.text.byte slot 0 = 0 ∧ ∀ k, l[slot + 1]? = some k → k.isContinuation = false := by
    intro slot j hj hyes
    have hentry := h.entry hj
    simp only [Nat.zero_add] at hentry
    rcases hentry with ⟨hd, -⟩ | ⟨-, hzero, hafter⟩
    · rw [hd, decodeAt_isContinuation] at hyes
      cases hyes
    · exact ⟨hzero, hafter⟩
  constructor
  · rw [length_map]
    omega
  · intro i hi
    obtain ⟨j, hj, rfl⟩ := hat hi
    rw [hcont]
    exact h.first hj
  · intro slot i hi hno
    obtain ⟨j, hj, rfl⟩ := hat hi
    rw [hcont] at hno
    unfold resolvedAt
    rw [← (hstart hj hno).1, show c.image.text.instructionCount = l.length by omega]
  · intro slot i hi hno k hk
    obtain ⟨j, hj, rfl⟩ := hat hi
    rw [hcont] at hno
    rw [hwidth] at hk
    obtain ⟨k', hk', rfl⟩ := hat hk
    rw [hcont]
    exact (hstart hj hno).2.1 k' hk'
  · intro slot i hi hno
    obtain ⟨j, hj, rfl⟩ := hat hi
    rw [hcont] at hno
    rw [hwidth]
    rcases (hstart hj hno).2.2 with hone | ⟨htwo, hnext⟩
    · exact .inl hone
    · refine .inr ⟨htwo, (c.resolveInstruction l.length (c.continuationAt (slot + 1))).1, ?_, ?_⟩
      · rw [getElem?_map, hnext]
        rfl
      · rw [hcont]
        rfl
  · intro slot i hi hyes
    obtain ⟨j, hj, rfl⟩ := hat hi
    rw [hcont] at hyes
    exact (hinner hj hyes).1
  · intro slot i hi hyes k hk
    obtain ⟨j, hj, rfl⟩ := hat hi
    obtain ⟨k', hk', rfl⟩ := hat hk
    rw [hcont] at hyes ⊢
    exact (hinner hj hyes).2 k' hk'

def Sliced (text : Text) : Prop :=
  text.length ≠ 0 ∧ text.length % instructionSize = 0 ∧ text.instructionCount ≤ maxInstructions

theorem resolveControlFlow_listed {decoded low : Listing} (hd : c.decodeInstructions = .ok decoded)
    (hr : c.resolveControlFlow decoded = .ok low) : low.entrySlot = c.image.entrySlot ∧
      (low.instructions = [] ∧ ¬Sliced c.image.text ∨ Listed c low.instructions) := by
  have hrefuse : ∀ {message : String} {decoded : Listing},
      (c.report [] 0 message .error .none).map (c.listing []) = .ok decoded →
        decoded.entrySlot = c.image.entrySlot ∧ decoded.instructions = [] := by
    intro message decoded h
    obtain ⟨ds, -, h⟩ := of_map_ok h
    rw [← h]
    exact ⟨rfl, rfl⟩
  have hempty : decoded.instructions = [] → low.instructions = [] ∧
      low.entrySlot = decoded.entrySlot := by
    intro hnil
    unfold resolveControlFlow at hr
    rw [hnil] at hr
    injection hr with hr
    rw [← hr]
    exact ⟨rfl, rfl⟩
  unfold decodeInstructions at hd
  by_cases hlen : c.image.text.length = 0
  · rw [if_pos hlen] at hd
    have h := hrefuse hd
    have h' := hempty h.2
    exact ⟨h'.2.trans h.1, .inl ⟨h'.1, fun hs => hs.1 hlen⟩⟩
  · rw [if_neg hlen] at hd
    by_cases hmod : c.image.text.length % instructionSize ≠ 0
    · rw [if_pos hmod] at hd
      have h := hrefuse hd
      have h' := hempty h.2
      exact ⟨h'.2.trans h.1, .inl ⟨h'.1, fun hs => hmod hs.2.1⟩⟩
    · rw [if_neg hmod] at hd
      by_cases hmax : maxInstructions < c.image.text.instructionCount
      · rw [if_pos hmax] at hd
        have h := hrefuse hd
        have h' := hempty h.2
        exact ⟨h'.2.trans h.1, .inl ⟨h'.1, fun hs => absurd hs.2.2 (by omega)⟩⟩
      · rw [if_neg hmax] at hd
        obtain ⟨r, hf, hd⟩ := of_map_ok hd
        have hdecodes := decodeFrom_decodes (by omega) hf
        obtain ⟨resolved, hres, hr⟩ := of_map_ok hr
        rw [← hd] at hres hr
        rw [← hr]
        refine ⟨rfl, .inr ?_⟩
        rw [resolveAll_map hres]
        exact hdecodes.listed

lemma resolvedAt_keeps (c : DecodeContext) (slot : Nat) :
    Keeps (c.decodeAt slot) (c.resolvedAt slot) :=
  resolveInstruction_keeps c _ _

lemma resolvedAt_info (c : DecodeContext) (slot : Nat) :
    (c.resolvedAt slot).info = (c.raw slot).info := by
  rw [(c.resolvedAt_keeps slot).info]
  unfold decodeAt
  dsimp only
  split <;> rfl

lemma resolvedAt_slot (c : DecodeContext) (slot : Nat) : (c.resolvedAt slot).slot = slot := by
  rw [(c.resolvedAt_keeps slot).slot]
  unfold decodeAt
  dsimp only
  split <;> rfl

lemma resolvedAt_slotWidth (c : DecodeContext) (slot : Nat) :
    (c.resolvedAt slot).slotWidth = if (c.validation slot).hasLDDWContinuation then lddwSlotCount
    else 1 := by
  rw [(c.resolvedAt_keeps slot).slotWidth, decodeAt_slotWidth]

lemma decodeAt_isInvalid (c : DecodeContext) (slot : Nat) :
    (c.decodeAt slot).isInvalid = !(c.validation slot).valid := by
  unfold decodeAt LowInstruction.isInvalid
  by_cases hv : (c.validation slot).valid = true
  · rw [if_pos hv, hv]
    rfl
  · rw [if_neg hv]
    unfold InstructionValidation.valid
    simp

lemma resolvedAt_isInvalid (c : DecodeContext) (slot : Nat) :
    (c.resolvedAt slot).isInvalid = !(c.validation slot).valid := by
  rw [← decodeAt_isInvalid]
  unfold LowInstruction.isInvalid
  rw [(c.resolvedAt_keeps slot).invalidReason]

lemma resolvedAt_branchTarget {slot : Nat} (h : (c.validation slot).valid = true) :
    (c.resolvedAt slot).branchTarget = (c.validation slot).branchTarget := by
  rw [(c.resolvedAt_keeps slot).branchTarget]
  unfold decodeAt
  rw [if_pos h]

lemma decodeAt_operands (c : DecodeContext) (slot : Nat) :
    (c.decodeAt slot).slot = slot ∧ (c.decodeAt slot).src = (c.raw slot).src ∧
      (c.decodeAt slot).rawImmediate = (c.raw slot).immediate := by
  unfold decodeAt
  dsimp only
  split <;> exact ⟨rfl, rfl, rfl⟩

variable {slot : Nat} (hv : (c.validation slot).valid = true) {info : OpcodeInfo}
  (hinfo : (c.raw slot).info = some info) (hid : info.id = .callImm)

include hv hinfo hid

theorem resolvedAt_call :
    c.resolvedAt slot = (if versionHasFeature c.image.version .staticSyscalls then
        c.resolveStaticCall c.image.text.instructionCount (c.decodeAt slot)
      else c.resolveLegacyCall (c.decodeAt slot)).1 := by
  have hno : ¬((c.decodeAt slot).isContinuation = true ∨ (c.decodeAt slot).isInvalid = true) := by
    rw [decodeAt_isContinuation, decodeAt_isInvalid, hv]
    simp
  have hdecoded : (c.decodeAt slot).info = some info := by
    rw [← hinfo, ← resolvedAt_info]
    exact (c.resolvedAt_keeps slot).info.symm
  unfold resolvedAt resolveInstruction
  rw [if_neg hno, hdecoded]
  dsimp only
  rw [if_neg (not_not.mpr hid)]

theorem resolvedAt_internal {target : Nat} (h : c.image.callee slot = some target) :
    (c.resolvedAt slot).call = .internal ∧ (c.resolvedAt slot).callTarget = some target := by
  obtain ⟨hslot, hsrc, himm⟩ := c.decodeAt_operands slot
  rw [resolvedAt_call hv hinfo hid]
  change (if _ then (if (c.raw slot).src = 1 ∧ 0 ≤ (slot : Int) + 1 + (c.raw slot).immediate.toInt ∧
      (slot : Int) + 1 + (c.raw slot).immediate.toInt < c.image.text.instructionCount then
      some ((slot : Int) + 1 + (c.raw slot).immediate.toInt).toNat else none) else _) = _ at h
  by_cases hs : versionHasFeature c.image.version .staticSyscalls = true
  · rw [if_pos hs] at h ⊢
    by_cases hrange : (c.raw slot).src = 1 ∧ 0 ≤ (slot : Int) + 1 + (c.raw slot).immediate.toInt ∧
        (slot : Int) + 1 + (c.raw slot).immediate.toInt < c.image.text.instructionCount
    · rw [if_pos hrange] at h
      injection h with h
      unfold resolveStaticCall callSlot
      rw [hsrc, himm, hslot, if_neg (by omega), if_pos hrange.1, if_pos hrange.2, ← h]
      exact ⟨rfl, rfl⟩
    · rw [if_neg hrange] at h
      cases h
  · rw [if_neg hs] at h ⊢
    obtain ⟨function, hf, ht⟩ := map_eq_some_iff.mp h
    unfold resolveLegacyCall
    dsimp only
    rw [himm, show c.image.findFunction (c.raw slot).immediate = some function from hf, ← ht]
    exact ⟨rfl, rfl⟩

theorem resolvedAt_syscall (h : c.image.callee slot = none)
    (hsrc : versionHasFeature c.image.version .staticSyscalls = true → (c.raw slot).src = 0) :
    (c.resolvedAt slot).call = .syscall := by
  obtain ⟨hslot, hdst, himm⟩ := c.decodeAt_operands slot
  rw [resolvedAt_call hv hinfo hid]
  unfold ProgramImage.callee at h
  by_cases hs : versionHasFeature c.image.version .staticSyscalls = true
  · rw [if_pos hs]
    unfold resolveStaticCall
    rw [hdst, if_pos (hsrc hs)]
  · rw [if_neg hs] at h ⊢
    have hf : c.image.findFunction (c.raw slot).immediate = none := map_eq_none_iff.mp h
    unfold resolveLegacyCall
    dsimp only
    rw [himm, hf]
    dsimp only
    split
    · rfl
    · split <;> rfl

end DecodeContext

end NeverD.Sbf
