import NeverD.Sbf.Cfg

namespace NeverD.Sbf.Listing
open List Option LowInstruction

open NeverD.Lib
open Cuts (upper upper_le)

variable {low : Listing} {entries : List Bool}
variable {t d : Nat}

def InBlock (low : Listing) (entries : List Bool) (k slot : Nat) : Prop :=
  ∃ start, (low.ordered entries)[k]? = some start ∧ start ≤ slot ∧
    slot < Cuts.upper (low.ordered entries) low.size k

lemma ordered_sorted (low : Listing) (entries : List Bool) :
    (low.ordered entries).Pairwise (· < ·) :=
  List.Pairwise.filter _ pairwise_lt_range

variable {slot : Nat} {i : LowInstruction}

lemma mem_ordered : slot ∈ low.ordered entries ↔ slot < low.size ∧ slot ∈ low.leaders entries ∧
        (low.continuationAt slot = false ∨ slot ∈ low.continuationLeaders) := by
  unfold ordered
  simp

lemma upper_le_size (low : Listing) (entries : List Bool) (k : Nat) :
    upper (low.ordered entries) low.size k ≤ low.size := by
  unfold upper
  cases h : (low.ordered entries)[k + 1]? with
  | none => exact le_rfl
  | some t => exact le_of_lt (mem_ordered.mp (mem_of_getElem? h)).1

variable {k : Nat}

lemma InBlock.lt_size (h : low.InBlock entries k slot) : slot < low.size := by
  obtain ⟨start, -, -, hlt⟩ := h
  exact lt_of_lt_of_le hlt (low.upper_le_size entries k)

lemma InBlock.unique {j : Nat} (hj : low.InBlock entries j slot) (hk : low.InBlock entries k slot) :
    j = k := by
  obtain ⟨a, ha, has, hsa⟩ := hj
  obtain ⟨b, hb, hbs, hsb⟩ := hk
  exact Cuts.piece_unique (low.ordered_sorted entries) ha has hsa hb hbs hsb

lemma InBlock.upper_le (h : low.InBlock entries k slot) (ht : t ∈ low.ordered entries)
    (hlt : slot < t) : Cuts.upper (low.ordered entries) low.size k ≤ t := by
  obtain ⟨start, hstart, hle, -⟩ := h
  exact Cuts.upper_le (low.ordered_sorted entries) hstart ht (lt_of_le_of_lt hle hlt)

lemma InBlock.start_eq (h : low.InBlock entries k t) (ht : t ∈ low.ordered entries) :
    (low.ordered entries)[k]? = some t := by
  obtain ⟨start, hstart, hle, hlt⟩ := h
  rcases Nat.eq_or_lt_of_le hle with heq | hless
  · rw [← heq]
    exact hstart
  · have : Cuts.upper (low.ordered entries) low.size k ≤ t :=
      Cuts.upper_le (low.ordered_sorted entries) hstart ht hless
    omega

theorem exists_inBlock (hfirst : low.continuationAt 0 = false) (h : slot < low.size) :
    ∃ k, low.InBlock entries k slot := by
  have hzero : (low.ordered entries)[0]? = some 0 := by
    obtain ⟨n, hn⟩ : ∃ n, low.size = n + 1 := ⟨low.size - 1, by omega⟩
    have hlead : 0 ∈ low.leaders entries := by
      unfold leaders
      simp
    unfold ordered
    rw [hn, range_succ_eq_map, filter_cons_of_pos (by simp [hlead, hfirst])]
    rfl
  obtain ⟨k, a, ha, has, hsk⟩ := Cuts.exists_piece hzero (Nat.zero_le slot) h
  exact ⟨k, a, ha, has, hsk⟩

def cutBlock (low : Listing) (entries : List Bool) (k start : Nat) : BasicBlock where
  id := k
  startSlot := start
  endSlot := Cuts.upper (low.ordered entries) low.size k
  successors := []
  reachable := false

lemma getElem?_cutBlocks (low : Listing) (entries : List Bool) (k : Nat) :
    (low.cutBlocks entries)[k]? = ((low.ordered entries)[k]?).map (low.cutBlock entries k) := by
  unfold cutBlocks
  rw [getElem?_mapIdx]
  rfl

lemma slotToBlock_cutBlocks : slotToBlock (low.cutBlocks entries) slot = some k ↔
    low.InBlock entries k slot := by
  have hfound : ∀ {b : BasicBlock}, b ∈ low.cutBlocks entries → b.startSlot ≤ slot →
      slot < b.endSlot → low.InBlock entries b.id slot := by
    intro b hb hle hlt
    obtain ⟨j, hj⟩ := getElem?_of_mem hb
    rw [getElem?_cutBlocks] at hj
    obtain ⟨start, hstart, rfl⟩ := map_eq_some_iff.mp hj
    exact ⟨start, hstart, hle, hlt⟩
  constructor
  · intro h
    obtain ⟨b, hb, rfl⟩ := map_eq_some_iff.mp h
    have hbounds : b.startSlot ≤ slot ∧ slot < b.endSlot := by simpa using find?_some hb
    exact hfound (mem_of_find?_eq_some hb) hbounds.1 hbounds.2
  · intro h
    obtain ⟨start, hstart, hle, hlt⟩ := h
    have hmem : low.cutBlock entries k start ∈ low.cutBlocks entries := by
      apply mem_of_getElem? (i := k)
      rw [getElem?_cutBlocks, hstart]
      rfl
    unfold slotToBlock
    cases hf : (low.cutBlocks entries).find? fun b =>
      decide (b.startSlot ≤ slot ∧ slot < b.endSlot) with
    | none =>
      have hno := find?_eq_none.mp hf _ hmem
      exact absurd (decide_eq_true ⟨hle, hlt⟩) hno
    | some b =>
      have hbounds : b.startSlot ≤ slot ∧ slot < b.endSlot := by simpa using find?_some hf
      have hb := hfound (mem_of_find?_eq_some hf) hbounds.1 hbounds.2
      rw [map_some, hb.unique ⟨start, hstart, hle, hlt⟩]

lemma slotToBlock_map {blocks : List BasicBlock} {f : BasicBlock → BasicBlock}
    (hf : ∀ b, (f b).id = b.id ∧ (f b).startSlot = b.startSlot ∧ (f b).endSlot = b.endSlot)
    (slot : Nat) : slotToBlock (blocks.map f) slot = slotToBlock blocks slot := by
  unfold slotToBlock
  induction blocks with
  | nil => rfl
  | cons b blocks ih =>
    rw [map_cons, find?_cons, find?_cons, (hf b).2.1, (hf b).2.2]
    split
    · rw [map_some, map_some, (hf b).1]
    · exact ih

lemma getLast?_filterMap_range' {α : Type} {f : Nat → Option α} {start n : Nat} {a : α}
    (hle : start ≤ slot) (hlt : slot < start + n) (ha : f slot = some a)
    (hafter : ∀ t, slot < t → t < start + n → f t = none) :
    ((List.range' start n).filterMap f).getLast? = some a := by
  have hsplit : List.range' start n =
      List.range' start (slot - start) ++ slot ::
      List.range' (slot + 1) (start + n - (slot + 1)) := by
    have h1 := range'_append_1 (s := start) (m := slot - start) (n := n - (slot - start))
    rw [show slot - start + (n - (slot - start)) =
      n by omega, show start + (slot - start) = slot by omega] at h1
    rw [← h1, show n - (slot - start) = start + n - (slot + 1) + 1 by omega, range'_succ]
  have hnil : (List.range' (slot + 1) (start + n - (slot + 1))).filterMap f = [] := by
    apply filterMap_eq_nil_iff.mpr
    intro t ht
    rw [mem_range'_1] at ht
    exact hafter t (by omega) (by omega)
  rw [hsplit, filterMap_append, filterMap_cons, ha, hnil]
  simp

variable {c : DecodeContext}

theorem InBlock.lastInstruction (hl : c.Listed low.instructions)
    (h : low.InBlock entries k slot) (hi : low.instructions[slot]? = some i)
    (hstart : i.isContinuation = false)
    (hend : upper (low.ordered entries) low.size k ≤ slot + i.slotWidth) {start : Nat}
    (hs : (low.ordered entries)[k]? = some start) :
    low.lastInstruction (low.cutBlock entries k start) = some i := by
  obtain ⟨start', hs', hle, hlt⟩ := h
  rw [hs] at hs'
  cases hs'
  have hsome : (low.instructions[slot]?).filter (fun i => decide ¬i.isContinuation = true) =
      some i := by
    rw [hi, filter_some, if_pos (by simp [hstart])]
  apply getLast?_filterMap_range' hle ?_ hsome
  · intro t ht hte
    have hte : t < upper (low.ordered entries) low.size k := by
      change t < start + (upper (low.ordered entries) low.size k - start) at hte
      omega
    -- Only the second slot of a wide load is left.
    rcases hl.inner hi hstart with hone | ⟨htwo, j, hj, hyes⟩
    · omega
    · have : t = slot + 1 := by
        unfold lddwSlotCount at htwo
        omega
      rw [this, hj, filter_some, if_neg (by simp [hyes])]
  · change slot < start + (upper (low.ordered entries) low.size k - start)
    omega

lemma within_self (h : t < low.size) : t ∈ low.within t := by
  unfold within
  rw [if_pos h]
  exact mem_singleton_self t

lemma mem_leaders (hi : low.instructions[slot]? = some i)
    (ht : t ∈ low.instructionLeaders i) : t ∈ low.leaders entries :=
  mem_append_right _ (mem_flatMap.mpr ⟨i, mem_of_getElem? hi, ht⟩)

lemma continuationAt_eq (hi : low.instructions[slot]? = some i) :
    low.continuationAt slot = i.isContinuation := by
  unfold continuationAt
  rw [hi]
  rfl

theorem next_mem_ordered (hl : c.Listed low.instructions)
    (hi : low.instructions[slot]? = some i) (hstart : i.isContinuation = false)
    (hends : i.isInvalid = true ∨ i.transfersControl = true)
    (hsize : slot + i.slotWidth < low.size) : slot + i.slotWidth ∈ low.ordered entries := by
  have hslot : i.nextInstructionSlot = slot + i.slotWidth := by
    unfold nextInstructionSlot
    rw [show i.slot = slot by rw [hl.starts hi hstart, DecodeContext.resolvedAt_slot]]
  have hnext : low.continuationAt (slot + i.slotWidth) = false := by
    unfold continuationAt
    rw [getElem?_eq_getElem hsize]
    exact hl.next hi hstart _ (getElem?_eq_getElem hsize)
  apply mem_ordered.mpr
  refine ⟨hsize, mem_leaders hi ?_, .inl hnext⟩
  unfold instructionLeaders
  rw [if_neg (by simp [hstart]), hslot]
  by_cases hinv : i.isInvalid = true
  · rw [if_pos hinv]
    exact within_self hsize
  · have htr := hends.resolve_left hinv
    rw [if_neg hinv, if_neg, if_pos htr]
    · exact mem_append_right _ (within_self hsize)
    · intro hnone
      unfold transfersControl at htr
      rw [isNone_iff_eq_none.mp hnone] at htr
      cases htr

lemma InBlock.ends (hl : c.Listed low.instructions)
    (h : low.InBlock entries k slot) (hi : low.instructions[slot]? = some i)
    (hstart : i.isContinuation = false) (hends : i.isInvalid = true ∨ i.transfersControl = true) :
    upper (low.ordered entries) low.size k ≤ slot + i.slotWidth := by
  by_cases hsize : slot + i.slotWidth < low.size
  · have hwidth : 0 < i.slotWidth := by
      rcases hl.inner hi hstart with hone | ⟨htwo, -⟩
      · omega
      · rw [htwo]
        decide
    exact h.upper_le (next_mem_ordered hl hi hstart hends hsize) (by omega)
  · exact le_trans (low.upper_le_size entries k) (not_lt.mp hsize)

def Lands (low : Listing) (entries : List Bool) (t : Nat) : Prop :=
  low.continuationAt t = true →
    t ∈ low.continuationLeaders ∧ t ∈ low.leaders entries ∧
    (t + 1 < low.size → t + 1 ∈ low.leaders entries)

lemma lands_entry (low : Listing) (entries : List Bool) : low.Lands entries low.entrySlot := by
  intro hcont
  have hsize : low.entrySlot < low.size := by
    by_contra hno
    unfold continuationAt at hcont
    rw [getElem?_eq_none (not_lt.mp hno)] at hcont
    cases hcont
  have hentry : ∀ t ∈ low.entryLeaders, t ∈ low.leaders entries := by
    intro t ht
    unfold leaders
    simp only [mem_append]
    exact .inl (.inl (.inr ht))
  refine ⟨?_, hentry _ ?_, fun hnext => hentry _ ?_⟩
  · unfold continuationLeaders
    rw [if_pos hcont]
    exact mem_append_left _ (mem_singleton_self _)
  · exact mem_append_left _ (within_self hsize)
  · unfold entryLeaders
    rw [if_pos hcont]
    exact mem_append_right _ (within_self hnext)

lemma lands_callTarget (hi : low.instructions[slot]? = some i)
    (hstart : i.isContinuation = false) (hvalid : i.isInvalid = false)
    (hinfo : i.info.isSome = true) (ht : i.callTarget = some t) : low.Lands entries t := by
  intro hcont
  have hsize : t < low.size := by
    by_contra hno
    unfold continuationAt at hcont
    rw [getElem?_eq_none (not_lt.mp hno)] at hcont
    cases hcont
  have hleads : ∀ t' ∈ low.callLeaders i, t' ∈ low.leaders entries := by
    intro t' ht'
    apply mem_leaders hi
    unfold instructionLeaders
    rw [if_neg (by simp [hstart]), if_neg (by simp [hvalid]),
      if_neg (by simp [isSome_iff_ne_none.mp hinfo])]
    exact mem_append_left _ (mem_append_right _ ht')
  have hcall : low.callLeaders i = low.within t ++ low.within (t + 1) := by
    unfold callLeaders
    rw [ht]
    dsimp only
    rw [if_pos hcont]
  refine ⟨?_, hleads t ?_, fun hnext => hleads (t + 1) ?_⟩
  · apply mem_append_right
    apply mem_flatMap.mpr
    refine ⟨i, mem_of_getElem? hi, ?_⟩
    unfold instructionContinuationLeaders
    rw [if_neg (by simp [hstart, hvalid, isSome_iff_ne_none.mp hinfo]), ht]
    dsimp only [Option.elim]
    rw [if_pos hcont]
    exact mem_singleton_self t
  · rw [hcall]
    exact mem_append_left _ (within_self hsize)
  · rw [hcall]
    exact mem_append_right _ (within_self hnext)

def HasEdge (low : Listing) (entries : List Bool) (k : Nat) (target : Option Nat)
    (kind : EdgeKind) : Prop :=
  ∃ start, (low.ordered entries)[k]? = some start ∧
    (target, kind) ∈ low.blockEdges (low.cutBlocks entries) (low.cutBlock entries k start)

lemma HasEdge.mem_edges {target : Option Nat} {kind : EdgeKind} (hsize : low.size ≠ 0)
    (h : low.HasEdge entries k target kind) : ⟨k, target, kind⟩ ∈ (low.buildCFG entries).edges := by
  obtain ⟨start, hstart, he⟩ := h
  unfold buildCFG
  dsimp only
  rw [if_neg hsize]
  apply mem_flatMap.mpr
  refine ⟨low.cutBlock entries k start, ?_, mem_map.mpr ⟨_, he, rfl⟩⟩
  apply mem_of_getElem? (i := k)
  rw [getElem?_cutBlocks, hstart]
  rfl

/-- A slot where a wide load does not start, and where control lands, can only fault. -/
theorem Lands.fault (hl : c.Listed low.instructions) (h : low.InBlock entries k t)
    (hlands : low.Lands entries t) (hcont : low.continuationAt t = true) :
    low.HasEdge entries k none .fault := by
  obtain ⟨hleader, hlead, hnext⟩ := hlands hcont
  have hsize := h.lt_size
  have hat : low.instructions[t]? = some (low.instructions[t]) := getElem?_eq_getElem hsize
  have hyes : (low.instructions[t]).isContinuation = true := by
    rw [← hcont, continuationAt_eq hat]
  have hmem : t ∈ low.ordered entries := mem_ordered.mpr ⟨hsize, hlead, .inr hleader⟩
  have hstart := h.start_eq hmem
  have hupper : upper (low.ordered entries) low.size k ≤ t + 1 := by
    by_cases hin : t + 1 < low.size
    · apply h.upper_le (mem_ordered.mpr ⟨hin, hnext hin, .inl ?_⟩) (by omega)
      rw [continuationAt_eq (getElem?_eq_getElem hin)]
      exact hl.after hat hyes _ (getElem?_eq_getElem hin)
    · exact le_trans (low.upper_le_size entries k) (by omega)
  have hlower : t < upper (low.ordered entries) low.size k := by
    obtain ⟨start, -, -, hlt⟩ := h
    exact hlt
  refine ⟨t, hstart, ?_⟩
  have hlast : low.lastInstruction (low.cutBlock entries k t) = none := by
    unfold Listing.lastInstruction
    rw [show (low.cutBlock entries k t).endSlot - (low.cutBlock entries k t).startSlot = 1 by
      change upper (low.ordered entries) low.size k - t = 1
      omega]
    change ([t].filterMap _).getLast? = none
    rw [filterMap_cons, hat, filter_some, if_neg (by simp [hyes])]
    rfl
  unfold blockEdges
  rw [hlast]
  exact mem_singleton_self _

section

variable (hl : c.Listed low.instructions) {k slot : Nat} {i : LowInstruction}
  (h : low.InBlock entries k slot)
  (hi : low.instructions[slot]? = some i) (hstart : i.isContinuation = false)

include hl h hi hstart

theorem InBlock.blockEdges_eq (hend : upper (low.ordered entries) low.size k ≤ slot + i.slotWidth) :
    ∃ start, (low.ordered entries)[k]? = some start ∧
      low.lastInstruction (low.cutBlock entries k start) = some i := by
  have h' := h
  obtain ⟨start, hs, -, -⟩ := h'
  exact ⟨start, hs, h.lastInstruction hl hi hstart hend hs⟩

lemma InBlock.invalid_edge (hinv : i.isInvalid = true) : low.HasEdge entries k none .invalid := by
  obtain ⟨start, hs, hlast⟩ := h.blockEdges_eq hl hi hstart (h.ends hl hi hstart (.inl hinv))
  refine ⟨start, hs, ?_⟩
  unfold blockEdges
  rw [hlast]
  dsimp only
  rw [if_pos hinv]
  exact mem_singleton_self _

variable (hvalid : i.isInvalid = false) {info : OpcodeInfo} (hinfo : i.info = some info)

include hvalid hinfo

lemma InBlock.jump_edge (hop : info.op = .jump) (hb : info.isBranch = true)
    (ht : i.branchTarget = some t) (hd : low.InBlock entries d t) :
    low.HasEdge entries k (some d) .branch := by
  have htr : i.transfersControl = true := by
    unfold transfersControl
    rw [hinfo]
    simp [hb]
  obtain ⟨start, hs, hlast⟩ := h.blockEdges_eq hl hi hstart (h.ends hl hi hstart (.inr htr))
  refine ⟨start, hs, ?_⟩
  unfold blockEdges
  rw [hlast]
  dsimp only
  rw [if_neg (by simp [hvalid]), hinfo]
  dsimp only
  rw [if_pos hop, ht, bind_some, slotToBlock_cutBlocks.mpr hd]
  exact mem_singleton_self _

variable (hop : info.op ≠ .jump)
include hop

lemma InBlock.taken_edge (hc : info.isConditionalBranch = true) (hb : info.isBranch = true)
    (ht : i.branchTarget = some t) (hd : low.InBlock entries d t) :
    low.HasEdge entries k (some d) .branchTaken := by
  have htr : i.transfersControl = true := by
    unfold transfersControl
    rw [hinfo]
    simp [hb]
  obtain ⟨start, hs, hlast⟩ := h.blockEdges_eq hl hi hstart (h.ends hl hi hstart (.inr htr))
  refine ⟨start, hs, ?_⟩
  unfold blockEdges
  rw [hlast]
  dsimp only
  rw [if_neg (by simp [hvalid]), hinfo]
  dsimp only
  rw [if_neg hop, if_pos hc, ht, bind_some, slotToBlock_cutBlocks.mpr hd]
  exact mem_cons_self

lemma InBlock.call_edge (hc : info.isConditionalBranch = false) (hcall : info.isCall = true)
    (hkind : i.call = .internal) (ht : i.callTarget = some t) (hd : low.InBlock entries d t) :
    low.HasEdge entries k (some d) .call := by
  have htr : i.transfersControl = true := by
    unfold transfersControl
    rw [hinfo]
    simp [hcall]
  obtain ⟨start, hs, hlast⟩ := h.blockEdges_eq hl hi hstart (h.ends hl hi hstart (.inr htr))
  refine ⟨start, hs, ?_⟩
  unfold blockEdges
  rw [hlast]
  dsimp only
  rw [if_neg (by simp [hvalid]), hinfo]
  dsimp only
  rw [if_neg hop, if_neg (by simp [hc]), if_pos hcall, if_neg (by simp [hkind]), if_pos hkind, ht,
    bind_some, slotToBlock_cutBlocks.mpr hd]
  exact mem_cons_self

/-- The instruction goes on with the slot behind it, unless it jumps or exits or is a call that no
runtime accepts. -/
theorem InBlock.fallthrough_edge (hexit : info.isExit = false)
    (hcall : i.call ≠ .unsupported)
    (hend : upper (low.ordered entries) low.size k ≤ slot + i.slotWidth)
    (hd : low.InBlock entries d (slot + i.slotWidth)) :
    low.HasEdge entries k (some d) .fallthrough := by
  have hslot : i.nextInstructionSlot = slot + i.slotWidth := by
    unfold nextInstructionSlot
    rw [show i.slot = slot by rw [hl.starts hi hstart, DecodeContext.resolvedAt_slot]]
  obtain ⟨start, hs, hlast⟩ := h.blockEdges_eq hl hi hstart hend
  refine ⟨start, hs, ?_⟩
  unfold blockEdges
  rw [hlast]
  dsimp only
  rw [if_neg (by simp [hvalid]), hinfo]
  dsimp only
  rw [hslot, slotToBlock_cutBlocks.mpr hd, if_neg hop, if_neg hcall]
  have hmem : (some d, EdgeKind.fallthrough) ∈
      (Option.map (fun d => (some d, EdgeKind.fallthrough)) (some d)).toList :=
    mem_singleton_self _
  split
  · exact mem_cons_of_mem _ hmem
  · split
    · split
      · exact mem_cons_of_mem _ hmem
      · split
        · exact mem_cons_of_mem _ hmem
        · exact hmem
    · rw [if_neg (by simp [hexit])]
      exact hmem

omit hop

end

lemma mem_foldl_addSuccessor {edges : List (Option Nat × EdgeKind)} {successors : List Nat}
    (h : d ∈ successors ∨ ∃ kind, (some d, kind) ∈ edges) :
    d ∈ edges.foldl (fun successors e => addSuccessor successors e.1) successors := by
  induction edges generalizing successors with
  | nil =>
    rcases h with h | ⟨kind, h⟩
    · exact h
    · cases h
  | cons e edges ih =>
    rw [foldl_cons]
    apply ih
    have hkeep : ∀ x ∈ successors, x ∈ addSuccessor successors e.1 := by
      intro x hx
      unfold addSuccessor
      split
      · exact hx
      · split
        · exact hx
        · exact mem_append_left _ hx
    rcases h with h | ⟨kind, h⟩
    · exact .inl (hkeep d h)
    · rcases mem_cons.mp h with h | h
      · left
        rw [← h]
        unfold addSuccessor
        dsimp only
        split
        · assumption
        · exact mem_append_right _ (mem_singleton_self d)
      · exact .inr ⟨kind, h⟩

lemma HasEdge.mem_successors {k : Nat} {kind : EdgeKind} (h : low.HasEdge entries k (some d) kind) :
    d ∈ successorsOf (low.linkedBlocks entries) k := by
  obtain ⟨start, hstart, he⟩ := h
  unfold successorsOf linkedBlocks
  rw [getElem?_map, getElem?_cutBlocks, hstart]
  exact mem_foldl_addSuccessor (.inr ⟨kind, he⟩)

lemma slotToBlock_linkedBlocks (low : Listing) (entries : List Bool) (slot : Nat) :
    slotToBlock (low.linkedBlocks entries) slot = slotToBlock (low.cutBlocks entries) slot := by
  apply slotToBlock_map
  intro b
  exact ⟨rfl, rfl, rfl⟩

/-- The search marks the block of the entry, and with a block all that its edges lead to. -/
theorem reachableBlocks_closed (low : Listing) (entries : List Bool) :
    (∀ k, low.InBlock entries k low.entrySlot → k ∈ low.reachableBlocks entries) ∧
      ∀ k d kind, k ∈ low.reachableBlocks entries → low.HasEdge entries k (some d) kind →
        d ∈ low.reachableBlocks entries := by
  have hnodes : ∀ a ∉ List.range (low.linkedBlocks entries).length,
      successorsOf (low.linkedBlocks entries) a = [] := by
    intro a ha
    unfold successorsOf
    rw [getElem?_eq_none (by simpa using ha)]
    rfl
  have hwork : (slotToBlock (low.linkedBlocks entries) low.entrySlot).toList.length ≤ 1 := by
    cases slotToBlock (low.linkedBlocks entries) low.entrySlot with
    | none => exact Nat.zero_le 1
    | some k => exact Nat.le_refl 1
  have hclosed := Worklist.mark_closed hnodes
    (show (slotToBlock (low.linkedBlocks entries) low.entrySlot).toList.length +
        Worklist.pending (successorsOf (low.linkedBlocks entries))
        (List.range (low.linkedBlocks entries).length) [] ≤
      1 + Worklist.pending (successorsOf (low.linkedBlocks entries))
        (List.range (low.linkedBlocks entries).length) [] by omega)
    (show Worklist.Covered _ _ [] from fun a ha => by cases ha)
  constructor
  · intro k hk
    apply hclosed.1
    rw [slotToBlock_linkedBlocks, slotToBlock_cutBlocks.mpr hk]
    exact mem_singleton_self k
  · intro k d kind hk he
    exact hclosed.2.2 k hk d he.mem_successors

end NeverD.Sbf.Listing
