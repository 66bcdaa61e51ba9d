import NeverD.Lib.Buckets
import NeverD.Lib.OrderedSet
import NeverD.Lib.Sources
import NeverD.Sbf.Blocks

namespace NeverD.Sbf
open List

open NeverD.Lib
open Sources (relax visit drain weight)

variable {b f : Nat} {β : Type}

def EdgeKind.isIntraprocedural : EdgeKind → Bool
  | .fallthrough | .branchTaken | .branch => true
  | .call | .indirectCall | .ret | .fault | .invalid => false

abbrev Owner := Sources.Mark Nat

structure OwnershipState where
  blockOwners : List Owner
  ownershipWorklist : List Nat

structure FunctionRange where
  entrySlot : Nat
  blockOffset : Nat
  blockCount : Nat

structure FunctionOwnership where
  functions : List FunctionRange
  blockOwners : List Owner
  functionBlocks : List Nat
  diagnostics : List Diagnostic

namespace LowIR

variable (low : LowIR) (entries : List Nat)

def functionEntries (functionEntrySlots : List Bool) : List Nat :=
  OrderedSet.insert low.entrySlot
    ((List.range functionEntrySlots.length).filter fun slot => functionEntrySlots[slot]? =
      some true)

def slotBlocks : List (Option Nat) :=
  low.blocks.foldl (fun index b =>
    (List.range' b.startSlot (b.endSlot - b.startSlot)).foldl
      (fun index slot => index.set slot (some b.id)) index)
    (List.replicate low.slots none)

def callFreeSuccessors : List (List Nat) :=
  low.edges.foldl (fun successors e =>
    match e.target with
    | some d => if e.kind.isIntraprocedural then successors.modify e.source (· ++ [d])
        else successors
    | none => successors)
    (List.replicate low.blocks.length [])

def entryBlock (slot : Nat) : Option Nat := low.slotBlocks[slot]?.join

def entryBlockOwners : List (Option Nat) :=
  entries.zipIdx.foldl (fun owners e => (low.entryBlock e.1).elim owners fun b =>
    owners.set b (some e.2)) (List.replicate low.blocks.length none)

def startOwnership : OwnershipState :=
  entries.zipIdx.foldl (fun s e =>
    match low.entryBlock e.1 with
    | none => s
    | some b =>
      { blockOwners := s.blockOwners.set b (.owned e.2),
        ownershipWorklist := s.ownershipWorklist ++ [b] })
    { blockOwners := List.replicate low.blocks.length .free, ownershipWorklist := [] }

def mergeOwner (incoming : Owner) (s : OwnershipState) (succ : Nat) : OwnershipState :=
  if s.blockOwners.length ≤ succ ∨ ((low.entryBlockOwners entries)[succ]?.join).isSome then s
  else
    let current := s.blockOwners.getD succ .free
    let merged := current.merge incoming
    if merged = current then s
    else { blockOwners := s.blockOwners.set succ merged,
           ownershipWorklist := s.ownershipWorklist ++ [succ] }

def propagateBlock (s : OwnershipState) (id : Nat) (rest : List Nat) : OwnershipState :=
  (low.callFreeSuccessors.getD id []).foldl (low.mergeOwner entries (s.blockOwners.getD id .free))
    { s with ownershipWorklist := rest }

/-- The worklist from its front. -/
def propagateOwners : Nat → OwnershipState → OwnershipState
  | 0, s => s
  | fuel + 1, s =>
    match s.ownershipWorklist with
    | [] => s
    | id :: rest => propagateOwners fuel (low.propagateBlock entries s id rest)

/-- Each block joins the worklist for its entry and for the two changes of its owner. -/
def ownershipFuel : Nat := entries.length + 2 * low.blocks.length

def ownership : OwnershipState := low.propagateOwners entries (low.ownershipFuel entries)
    (low.startOwnership entries)

def ownerKey : Owner → Option Nat
  | .owned f => some f
  | _ => none

def functions (owners : List Owner) : List FunctionRange :=
  let blockCounts := Buckets.counts entries.length (owners.map ownerKey)
  (entries.zip ((Buckets.offsets 0 blockCounts).zip blockCounts)).map fun f =>
    { entrySlot := f.1, blockOffset := f.2.1, blockCount := f.2.2 }

def functionBlocks (owners : List Owner) : List Nat :=
  Buckets.scatter entries.length (owners.map ownerKey)

def ambiguousDiagnostics (textAddress : Word) (owners : List Owner) : List Diagnostic :=
  (List.range owners.length).filterMap fun id =>
    if owners[id]? = some .shared then
      low.blocks[id]?.map fun block =>
        { severity := .warning
          slot := block.startSlot
          address := textAddress + BitVec.ofNat 64 (block.startSlot * instructionSize)
          message :=
            "basic block is reachable from multiple function entries and has no unique function owner"
          rule := .none }
    else none

def recoverOwnership (textAddress : Word) (functionEntrySlots : List Bool) : FunctionOwnership :=
  let entries := low.functionEntries functionEntrySlots
  let owners := (low.ownership entries).blockOwners
  { functions := functions entries owners
    blockOwners := owners
    functionBlocks := functionBlocks entries owners
    diagnostics := low.ambiguousDiagnostics textAddress owners }

end LowIR

namespace FunctionOwnership

def blocksOf (o : FunctionOwnership) (f : FunctionRange) : List Nat :=
  (o.functionBlocks.drop f.blockOffset).take f.blockCount

end FunctionOwnership

namespace LowIR

section

variable (low : LowIR) (entries : List Nat)

def IsEntryOf (f b : Nat) : Prop := ∃ slot, entries[f]? = some slot ∧ low.entryBlock slot = some b

def InnerEdge (a b : Nat) : Prop :=
  b < low.blocks.length ∧ ∃ e ∈ low.edges, e.source = a ∧ e.target = some b ∧
    e.kind.isIntraprocedural = true

/-- The entry of the function leads to the block without a visit to the entry of another
function. -/
inductive EntryReaches (f : Nat) : Nat → Prop
  | entry {b : Nat} : low.IsEntryOf entries f b → EntryReaches f b
  | step {a b : Nat} : EntryReaches f a → low.InnerEdge a b →
      (∀ g, low.IsEntryOf entries g b → g = f) → EntryReaches f b

/-- Each owner says which entries lead to the block: exactly one, several or none. -/
structure UniqueEntry (owners : List Owner) : Prop where
  length : owners.length = low.blocks.length
  owned : ∀ b < low.blocks.length, ∀ f, owners[b]? = some (.owned f) ↔
    low.EntryReaches entries f b ∧ ∀ g, low.EntryReaches entries g b → g = f
  ambiguous : ∀ b < low.blocks.length, owners[b]? = some .shared ↔
    ∃ f g, f ≠ g ∧ low.EntryReaches entries f b ∧ low.EntryReaches entries g b
  unowned : ∀ b < low.blocks.length, owners[b]? = some .free ↔ ∀ f, ¬low.EntryReaches entries f b

def OwnershipStep (s t : OwnershipState) : Prop :=
  ∃ id rest, s.ownershipWorklist.Perm (id :: rest) ∧ t = low.propagateBlock entries s id rest

end

section

variable {low : LowIR} {entries : List Nat}

lemma mem_callFreeSuccessors {a d : Nat} : d ∈ low.callFreeSuccessors.getD a [] ↔
      a < low.blocks.length ∧
      ∃ e ∈ low.edges, e.source = a ∧ e.target = some d ∧ e.kind.isIntraprocedural = true := by
  have h : ∀ (edges : List CFGEdge) (start : List (List Nat)), d ∈ (edges.foldl (fun successors e =>
        match e.target with
        | some d => if e.kind.isIntraprocedural then successors.modify e.source (· ++ [d])
            else successors
        | none => successors) start).getD a [] ↔ d ∈ start.getD a [] ∨ (a < start.length ∧
          ∃ e ∈ edges, e.source = a ∧ e.target = some d ∧ e.kind.isIntraprocedural = true) := by
    intro edges
    induction edges with
    | nil => simp
    | cons e edges ih =>
      intro start
      rw [foldl_cons, ih]
      cases htarget : e.target with
      | none => simp [htarget]
      | some t =>
        by_cases hkind : e.kind.isIntraprocedural = true
        · dsimp only
          rw [if_pos hkind, length_modify, getD_eq_getElem?_getD, getElem?_modify,
            getD_eq_getElem?_getD]
          by_cases ha : a < start.length
          · rw [getElem?_eq_getElem ha]
            by_cases hsource : e.source = a
            · subst hsource
              simp [htarget, hkind, ha, or_assoc, eq_comm (a := d)]
            · simp [hsource, ha]
          · rw [getElem?_eq_none (by omega)]
            simp [ha]
        · simp [hkind]
  unfold callFreeSuccessors
  rw [h, length_replicate]
  apply or_iff_right
  rw [getD_eq_getElem?_getD, getElem?_replicate]
  split <;> simp

theorem entryBlock_inside {slot k : Nat} (h : low.entryBlock slot = some k) :
    ∃ b ∈ low.blocks, b.id = k ∧ b.startSlot ≤ slot ∧ slot < b.endSlot := by
  have hslots : ∀ (b : BasicBlock) (slots : List Nat) (index : List (Option Nat)),
      (slots.foldl (fun index slot => index.set slot (some b.id)) index)[slot]?.join = some k →
        index[slot]?.join = some k ∨ (b.id = k ∧ slot ∈ slots) := by
    intro b slots
    induction slots with
    | nil => exact fun _ h => .inl h
    | cons x slots ih =>
      intro index h
      rcases ih _ h with h | ⟨hid, hmem⟩
      · rw [getElem?_set] at h
        split at h
        next hx =>
          split at h
          · exact .inr ⟨by simpa using h, hx ▸ mem_cons_self⟩
          · cases h
        · exact .inl h
      · exact .inr ⟨hid, mem_cons_of_mem _ hmem⟩
  have hblocks : ∀ (blocks : List BasicBlock) (index : List (Option Nat)),
      (blocks.foldl (fun index b => (List.range' b.startSlot (b.endSlot - b.startSlot)).foldl
        (fun index slot => index.set slot (some b.id)) index) index)[slot]?.join = some k →
        index[slot]?.join = some k ∨ ∃ b ∈ blocks, b.id = k ∧ b.startSlot ≤ slot ∧
          slot < b.endSlot := by
    intro blocks
    induction blocks with
    | nil => exact fun _ h => .inl h
    | cons b blocks ih =>
      intro index h
      rcases ih _ h with h | ⟨c, hc, hin⟩
      · rcases hslots b _ index h with h | ⟨hid, hmem⟩
        · exact .inl h
        · rw [mem_range'_1] at hmem
          exact .inr ⟨b, mem_cons_self, hid, by omega, by omega⟩
      · exact .inr ⟨c, mem_cons_of_mem _ hc, hin⟩
  rcases hblocks low.blocks _ h with h | h
  · rw [getElem?_replicate] at h
    split at h
    · cases h
    · cases h
  · exact h

def entryWrites (low : LowIR) (entries : List Nat) : List (Nat × Nat) :=
  entries.zipIdx.filterMap fun e => (low.entryBlock e.1).map fun b => (b, e.2)

lemma mem_entryWrites : (b, f) ∈ low.entryWrites entries ↔ low.IsEntryOf entries f b := by
  unfold entryWrites IsEntryOf
  rw [mem_filterMap]
  constructor
  · rintro ⟨⟨slot, g⟩, hmem, heq⟩
    obtain ⟨c, hc, hpair⟩ := Option.map_eq_some_iff.mp heq
    injection hpair with hb hf
    subst hb hf
    exact ⟨slot, mem_zipIdx_iff_getElem?.mp hmem, hc⟩
  · rintro ⟨slot, hslot, hb⟩
    exact ⟨(slot, f), mem_zipIdx_iff_getElem?.mpr hslot, by rw [hb]; rfl⟩

lemma entryBlockOwners_eq (low : LowIR) (entries : List Nat) :
    low.entryBlockOwners entries = (low.entryWrites entries).foldl
      (fun owners w => owners.set w.1 (some w.2)) (List.replicate low.blocks.length none) := by
  unfold entryBlockOwners entryWrites
  rw [foldl_filterMap]
  congr 1
  funext owners e
  cases low.entryBlock e.1 <;> rfl

lemma startOwnership_eq (low : LowIR) (entries : List Nat) : low.startOwnership entries =
      { blockOwners := (low.entryWrites entries).foldl (fun owners w => owners.set w.1 (.owned w.2))
          (List.replicate low.blocks.length .free)
        ownershipWorklist := (low.entryWrites entries).map Prod.fst } := by
  unfold startOwnership entryWrites
  have h : ∀ (es : List (Nat × Nat)) (s : OwnershipState), es.foldl (fun s e =>
        match low.entryBlock e.1 with
        | none => s
        | some b =>
          { blockOwners := s.blockOwners.set b (.owned e.2),
            ownershipWorklist := s.ownershipWorklist ++ [b] }) s =
      { blockOwners := (es.filterMap fun e => (low.entryBlock e.1).map fun b => (b, e.2)).foldl
          (fun owners w => owners.set w.1 (.owned w.2)) s.blockOwners
        ownershipWorklist := s.ownershipWorklist ++
          (es.filterMap fun e => (low.entryBlock e.1).map fun b => (b, e.2)).map Prod.fst } := by
    intro es
    induction es with
    | nil => simp
    | cons e es ih =>
      intro s
      rw [foldl_cons, ih]
      cases he : low.entryBlock e.1 with
      | none => simp [he]
      | some b => simp [he]
  rw [h]
  rfl

lemma foldl_set_of_not_mem {γ : Type} {g : γ → β} (writes : List (Nat × γ)) (start : List β)
    (h : ∀ w, (b, w) ∉ writes) :
    (writes.foldl (fun l w => l.set w.1 (g w.2)) start)[b]? = start[b]? := by
  induction writes generalizing start with
  | nil => rfl
  | cons w writes ih =>
    rw [foldl_cons, ih _ fun v hv => h v (mem_cons_of_mem _ hv)]
    apply getElem?_set_ne
    intro hw
    exact h w.2 (hw ▸ mem_cons_self)

lemma foldl_set_of_mem {γ : Type} {g : γ → β} {v : γ} (writes : List (Nat × γ)) (start : List β)
    (hb : b < start.length) (hmem : (b, v) ∈ writes) (hagree : ∀ w, (b, w) ∈ writes → w = v) :
    (writes.foldl (fun l w => l.set w.1 (g w.2)) start)[b]? = some (g v) := by
  induction writes generalizing start with
  | nil => cases hmem
  | cons w writes ih =>
    rw [foldl_cons]
    by_cases hlater : (b, v) ∈ writes
    · exact ih _ (by rw [length_set]; exact hb) hlater fun u hu => hagree u (mem_cons_of_mem _ hu)
    · have hw : (b, v) = w := (mem_cons.mp hmem).resolve_right hlater
      subst hw
      rw [foldl_set_of_not_mem]
      · exact getElem?_set_self hb
      · intro u hu
        exact hlater (hagree u (mem_cons_of_mem _ hu) ▸ hu)

lemma length_foldl_set {γ : Type} {g : γ → β} (writes : List (Nat × γ)) (start : List β) :
    (writes.foldl (fun l w => l.set w.1 (g w.2)) start).length = start.length := by
  induction writes generalizing start with
  | nil => rfl
  | cons w writes ih => rw [foldl_cons, ih, length_set]

/-- The tables are those of a well-formed graph whose function entries lie in distinct blocks. -/
structure DistinctEntries (low : LowIR) (entries : List Nat) : Prop where
  ids : ∀ b ∈ low.blocks, b.id < low.blocks.length
  distinct : ∀ f g b, low.IsEntryOf entries f b → low.IsEntryOf entries g b → f = g

namespace DistinctEntries

variable (h : DistinctEntries low entries)

include h

lemma entry_lt (hf : low.IsEntryOf entries f b) : b < low.blocks.length := by
  obtain ⟨slot, _, hb⟩ := hf
  obtain ⟨block, hmem, rfl, _⟩ := entryBlock_inside hb
  exact h.ids block hmem

theorem written {g : Nat → β} (free : β) (hb : b < low.blocks.length) :
    ((low.entryWrites entries).foldl (fun l w => l.set w.1 (g w.2))
        (List.replicate low.blocks.length free))[b]? =
        some free ∧ (∀ f, ¬low.IsEntryOf entries f b) ∨
      ∃ f, ((low.entryWrites entries).foldl (fun l w => l.set w.1 (g w.2))
        (List.replicate low.blocks.length free))[b]? = some (g f) ∧ low.IsEntryOf entries f b := by
  by_cases hentry : ∃ f, low.IsEntryOf entries f b
  · obtain ⟨f, hf⟩ := hentry
    refine .inr ⟨f, ?_, hf⟩
    apply foldl_set_of_mem _ _ (by rw [length_replicate]; exact hb) (mem_entryWrites.mpr hf)
    intro w hw
    exact h.distinct w f b (mem_entryWrites.mp hw) hf
  · refine .inl ⟨?_, fun f hf => hentry ⟨f, hf⟩⟩
    rw [foldl_set_of_not_mem _ _ fun w hw => hentry ⟨w, mem_entryWrites.mp hw⟩, getElem?_replicate,
      if_pos hb]

lemma entryBlockOwners_iff : (low.entryBlockOwners entries)[b]?.join = some f ↔
    low.IsEntryOf entries f b := by
  rw [entryBlockOwners_eq]
  by_cases hb : b < low.blocks.length
  · rcases h.written (g := some) none hb with ⟨hnone, hno⟩ | ⟨g, hg, hentry⟩
    · rw [hnone]
      exact ⟨fun hf => absurd hf (by simp), fun hf => absurd hf (hno f)⟩
    · rw [hg]
      constructor
      · intro hf
        exact Option.some.inj hf ▸ hentry
      · intro hf
        exact congrArg some (h.distinct g f b hentry hf)
  · constructor
    · intro hf
      rw [getElem?_eq_none (by rw [length_foldl_set, length_replicate]; omega)] at hf
      cases hf
    · exact fun hf => absurd (h.entry_lt hf) hb

end DistinctEntries

def innerNext (low : LowIR) (a : Nat) : List Nat :=
  (low.callFreeSuccessors.getD a []).filter (· < low.blocks.length)

lemma mem_innerNext {a : Nat} : b ∈ low.innerNext a ↔ a < low.blocks.length ∧
    low.InnerEdge a b := by
  unfold innerNext InnerEdge
  rw [mem_filter, mem_callFreeSuccessors, decide_eq_true_iff]
  tauto

lemma innerNext_range (a b : Nat) (hb : b ∈ low.innerNext a) : b ∈ Finset.range low.blocks.length :=
  Finset.mem_range.mpr (mem_innerNext.mp hb).2.1

def markState (s : OwnershipState) : Sources.State Nat Nat :=
  { marks := fun b => s.blockOwners.getD b .free, work := s.ownershipWorklist }

def entryOf (low : LowIR) (entries : List Nat) (b : Nat) : Option Nat :=
  (low.entryBlockOwners entries)[b]?.join

lemma length_mergeOwner (incoming : Owner) (s : OwnershipState) (b : Nat) :
    (low.mergeOwner entries incoming s b).blockOwners.length = s.blockOwners.length := by
  unfold mergeOwner
  split
  · rfl
  · dsimp only
    split
    · rfl
    · exact length_set ..

variable {s : OwnershipState}

lemma mergeOwner_outside {incoming : Owner} (hb : s.blockOwners.length ≤ b) :
    low.mergeOwner entries incoming s b = s := by
  exact if_pos (.inl hb)

lemma markState_mergeOwner {incoming : Owner} (hb : b < s.blockOwners.length) :
    markState (low.mergeOwner entries incoming s b) =
      relax (low.entryOf entries) incoming (markState s) b := by
  unfold mergeOwner relax entryOf
  by_cases hentry : ((low.entryBlockOwners entries)[b]?.join).isSome
  · rw [if_pos (.inr hentry), if_pos (Option.isSome_iff_ne_none.mp hentry)]
  · have hguard : ¬(s.blockOwners.length ≤ b ∨
        ((low.entryBlockOwners entries)[b]?.join).isSome) := by
      rintro (h | h)
      · omega
      · exact hentry h
    have hnone : ¬(low.entryBlockOwners entries)[b]?.join ≠ none :=
      fun hne => hentry (Option.isSome_iff_ne_none.mpr hne)
    rw [if_neg hguard, if_neg hnone]
    by_cases hsame : (s.blockOwners.getD b .free).merge incoming = s.blockOwners.getD b .free
    · rw [if_pos hsame]
      exact (if_pos hsame).symm
    · rw [if_neg hsame]
      refine .trans ?_ (if_neg hsame).symm
      show Sources.State.mk _ _ = Sources.State.mk _ _
      congr 1
      funext x
      by_cases hx : x = b
      · rw [hx, Function.update_self, getD_eq_getElem?_getD, getElem?_set_self hb]
        rfl
      · rw [Function.update_of_ne hx, getD_eq_getElem?_getD, getElem?_set_ne (Ne.symm hx),
          ← getD_eq_getElem?_getD]
        rfl

lemma markState_foldl (incoming : Owner) (targets : List Nat) {n : Nat}
    (hn : s.blockOwners.length = n) :
    (targets.foldl (low.mergeOwner entries incoming) s).blockOwners.length = n ∧
      markState (targets.foldl (low.mergeOwner entries incoming) s) =
        (targets.filter (· < n)).foldl (relax (low.entryOf entries) incoming) (markState s) := by
  induction targets generalizing s with
  | nil => exact ⟨hn, rfl⟩
  | cons b targets ih =>
    have hlen : (low.mergeOwner entries incoming s b).blockOwners.length = n :=
      (length_mergeOwner incoming s b).trans hn
    have h := ih hlen
    refine ⟨h.1, ?_⟩
    rw [foldl_cons, h.2]
    by_cases hb : b < n
    · rw [filter_cons_of_pos (by simpa using hb), foldl_cons, markState_mergeOwner (hn ▸ hb)]
    · rw [filter_cons_of_neg (by simpa using hb), mergeOwner_outside (by omega)]

variable (hs : s.blockOwners.length = low.blocks.length)
include hs

lemma markState_propagateBlock (id : Nat) (rest : List Nat) :
    (low.propagateBlock entries s id rest).blockOwners.length = low.blocks.length ∧
      markState (low.propagateBlock entries s id rest) =
        visit (low.entryOf entries) low.innerNext (markState s) id rest :=
  markState_foldl _ _ hs

lemma OwnershipStep.mark {t : OwnershipState} (h : low.OwnershipStep entries s t) :
    t.blockOwners.length = low.blocks.length ∧
      Sources.Step (low.entryOf entries) low.innerNext (markState s) (markState t) := by
  obtain ⟨id, rest, hperm, rfl⟩ := h
  have h : _ ∧ markState (low.propagateBlock entries s id rest) = _ :=
    markState_propagateBlock hs id rest
  exact ⟨h.1, id, rest, hperm, h.2⟩

lemma OwnershipStep.mark_run {t : OwnershipState}
    (h : Relation.ReflTransGen (low.OwnershipStep entries) s t) :
    t.blockOwners.length = low.blocks.length ∧
      Relation.ReflTransGen (Sources.Step (low.entryOf entries) low.innerNext) (markState s)
        (markState t) := by
  induction h with
  | refl => exact ⟨hs, .refl⟩
  | tail _ hstep ih =>
    have h := OwnershipStep.mark ih.1 hstep
    exact ⟨h.1, ih.2.tail h.2⟩

omit hs

lemma markState_propagateOwners (fuel : Nat) (hs : s.blockOwners.length = low.blocks.length) :
    (low.propagateOwners entries fuel s).blockOwners.length = low.blocks.length ∧
      markState (low.propagateOwners entries fuel s) =
        drain (low.entryOf entries) low.innerNext fuel (markState s) := by
  induction fuel generalizing s with
  | zero => exact ⟨hs, rfl⟩
  | succ fuel ih =>
    unfold propagateOwners drain
    rw [show (markState s).work = s.ownershipWorklist from rfl]
    cases s.ownershipWorklist with
    | nil => exact ⟨hs, rfl⟩
    | cons id rest =>
      have hblock : _ ∧ markState (low.propagateBlock entries s id rest) = _ :=
        markState_propagateBlock hs id rest
      have h := ih hblock.1
      exact ⟨h.1, h.2.trans (congrArg _ hblock.2)⟩

lemma propagateOwners_steps (fuel : Nat) (s : OwnershipState) :
    Relation.ReflTransGen (low.OwnershipStep entries) s (low.propagateOwners entries fuel s) := by
  induction fuel generalizing s with
  | zero => exact .refl
  | succ fuel ih =>
    unfold propagateOwners
    split
    · exact .refl
    next id rest hwork => exact .head ⟨id, rest, by rw [hwork], rfl⟩ (ih _)

namespace DistinctEntries

variable (h : DistinctEntries low entries)

include h

lemma start_marks : Sources.Start (low.entryOf entries)
    (markState (low.startOwnership entries)) := by
  rw [startOwnership_eq]
  constructor
  · intro b
    show List.getD (List.foldl _ _ _) b Sources.Mark.free = _
    rw [getD_eq_getElem?_getD]
    by_cases hb : b < low.blocks.length
    · rcases h.written (g := .owned) Sources.Mark.free hb with ⟨hfree, hno⟩ | ⟨f, hf, hentry⟩
      · have hnone : low.entryOf entries b = none :=
          Option.eq_none_iff_forall_ne_some.mpr fun f hf => hno f (h.entryBlockOwners_iff.mp hf)
        rw [hfree, hnone]
        rfl
      · have hsome : low.entryOf entries b = some f := h.entryBlockOwners_iff.mpr hentry
        rw [hf, hsome]
        rfl
    · have hnone : low.entryOf entries b = none :=
        Option.eq_none_iff_forall_ne_some.mpr fun f hf =>
          hb (h.entry_lt (h.entryBlockOwners_iff.mp hf))
      rw [getElem?_eq_none (by rw [length_foldl_set, length_replicate]; omega), hnone]
      rfl
  · intro b
    show b ∈ (low.entryWrites entries).map Prod.fst ↔ _
    rw [mem_map]
    constructor
    · rintro ⟨⟨c, f⟩, hmem, rfl⟩
      have hsome : low.entryOf entries c = some f :=
        h.entryBlockOwners_iff.mpr (mem_entryWrites.mp hmem)
      rw [hsome]
      simp
    · intro hne
      obtain ⟨f, hf⟩ := Option.ne_none_iff_exists'.mp hne
      exact ⟨(b, f), mem_entryWrites.mpr (h.entryBlockOwners_iff.mp hf), rfl⟩

lemma reaches_iff :
    Sources.Reaches (low.entryOf entries) (fun a b => b ∈ low.innerNext a) f b ↔
      low.EntryReaches entries f b := by
  constructor
  · intro hreach
    induction hreach with
    | start ha => exact .entry (h.entryBlockOwners_iff.mp ha)
    | @step a b _ hedge hb ih =>
      apply ih.step (mem_innerNext.mp hedge).2
      intro g hg
      have hg' : low.entryOf entries b = some g := h.entryBlockOwners_iff.mpr hg
      rcases hb with hb | hb
      · rw [hb] at hg'
        cases hg'
      · exact Option.some.inj (hg'.symm.trans hb)
  · intro hreach
    suffices hboth : b < low.blocks.length ∧
        Sources.Reaches (low.entryOf entries) (fun a b => b ∈ low.innerNext a) f b from hboth.2
    induction hreach with
    | entry hb => exact ⟨h.entry_lt hb, .start (h.entryBlockOwners_iff.mpr hb)⟩
    | @step a b _ hedge honly ih =>
      refine ⟨hedge.1, ih.2.step (mem_innerNext.mpr ⟨ih.1, hedge⟩) ?_⟩
      cases hentry : low.entryOf entries b with
      | none => exact .inl rfl
      | some g => exact .inr (congrArg some (honly g (h.entryBlockOwners_iff.mp hentry)))

omit h in
lemma length_start : (low.startOwnership entries).blockOwners.length = low.blocks.length := by
  rw [startOwnership_eq]
  exact (length_foldl_set _ _).trans length_replicate

/-- In any order of the work, the owners at the end are those of the unique entries. -/
theorem unique_entry {s : OwnershipState}
    (hrun : Relation.ReflTransGen (low.OwnershipStep entries) (low.startOwnership entries) s)
    (hwork : s.ownershipWorklist = []) : low.UniqueEntry entries s.blockOwners := by
  obtain ⟨hlen, hmarks⟩ := OwnershipStep.mark_run length_start hrun
  have hinv := (Sources.Inv.of_start h.start_marks).run hmarks
  have hread : ∀ b < low.blocks.length, ∀ owner, s.blockOwners[b]? = some owner ↔
      (markState s).marks b = owner := by
    intro b hb owner
    show _ ↔ s.blockOwners.getD b .free = owner
    rw [getD_eq_getElem?_getD, getElem?_eq_getElem (hlen.symm ▸ hb)]
    exact Option.some_inj
  constructor
  · exact hlen
  · intro b hb f
    rw [hread b hb, hinv.owned_iff hwork, h.reaches_iff]
    exact and_congr_right fun _ => forall_congr' fun g => imp_congr_left h.reaches_iff
  · intro b hb
    rw [hread b hb, hinv.shared_iff hwork]
    exact exists_congr fun f => exists_congr fun g => and_congr_right fun _ =>
      and_congr h.reaches_iff h.reaches_iff
  · intro b hb
    rw [hread b hb, hinv.free_iff hwork]
    exact forall_congr' fun f => not_congr h.reaches_iff

omit h in
lemma ownership_done : (low.ownership entries).ownershipWorklist = [] := by
  have hwork : (low.startOwnership entries).ownershipWorklist.length ≤ entries.length := by
    rw [startOwnership_eq]
    rw [length_map]
    exact (length_filterMap_le ..).trans length_zipIdx.le
  have hheights : ∑ b ∈ Finset.range low.blocks.length,
      ((markState (low.startOwnership entries)).marks b).height ≤ low.blocks.length * 2 := by
    have hle : ∀ mark : Owner, mark.height ≤ 2 :=
      fun mark => by cases mark <;> simp [Sources.Mark.height]
    have := Finset.sum_le_card_nsmul (Finset.range low.blocks.length)
      (fun b => ((markState (low.startOwnership entries)).marks b).height) 2 fun b _ => hle _
    rwa [Finset.card_range] at this
  have hweight : weight (Finset.range low.blocks.length) (markState (low.startOwnership entries)) ≤
      low.ownershipFuel entries := by
    unfold weight ownershipFuel
    show (low.startOwnership entries).ownershipWorklist.length + _ ≤ _
    omega
  have hdrain : (drain (low.entryOf entries) low.innerNext (low.ownershipFuel entries)
      (markState (low.startOwnership entries))).work =
      [] := Sources.drain_work innerNext_range hweight
  rw [← (markState_propagateOwners _ length_start).2] at hdrain
  exact hdrain

lemma ownership_unique_entry : low.UniqueEntry entries (low.ownership entries).blockOwners :=
  h.unique_entry (propagateOwners_steps _ _) ownership_done

end DistinctEntries

/-- No order of the work goes on for ever. -/
theorem no_endless_run (run : Nat → OwnershipState) (hstart : run 0 = low.startOwnership entries) :
    ∃ i, ¬low.OwnershipStep entries (run i) (run (i + 1)) := by
  by_contra hno
  have hsteps : ∀ i, low.OwnershipStep entries (run i) (run (i + 1)) :=
    fun i => not_not.mp fun h => hno ⟨i, h⟩
  have hspent : ∀ i, (run i).blockOwners.length = low.blocks.length ∧
      weight (Finset.range low.blocks.length) (markState (run i)) + i ≤
        weight (Finset.range low.blocks.length) (markState (run 0)) := by
    intro i
    induction i with
    | zero => exact ⟨hstart ▸ DistinctEntries.length_start, le_rfl⟩
    | succ i ih =>
      obtain ⟨hlen, hstep⟩ := OwnershipStep.mark ih.1 (hsteps i)
      have := Sources.weight_step innerNext_range hstep
      exact ⟨hlen, by omega⟩
  have := (hspent (weight (Finset.range low.blocks.length) (markState (run 0)) + 1)).2
  omega

lemma UniqueEntry.eq {owners others : List Owner} (h : low.UniqueEntry entries owners)
    (hothers : low.UniqueEntry entries others) : owners = others := by
  apply ext_getElem?
  intro b
  by_cases hb : b < low.blocks.length
  · cases hmark : owners[b]? with
    | none => exact absurd (List.getElem?_eq_none_iff.mp hmark) (by rw [h.length]; omega)
    | some mark =>
      cases mark with
      | free => exact ((hothers.unowned b hb).mpr ((h.unowned b hb).mp hmark)).symm
      | owned f => exact ((hothers.owned b hb f).mpr ((h.owned b hb f).mp hmark)).symm
      | shared => exact ((hothers.ambiguous b hb).mpr ((h.ambiguous b hb).mp hmark)).symm
  · rw [getElem?_eq_none (by rw [h.length]; omega),
      getElem?_eq_none (by rw [hothers.length]; omega)]

lemma UniqueEntry.owner_lt {owners : List Owner} (h : low.UniqueEntry entries owners)
    (hb : owners[b]? = some (.owned f)) : f < entries.length := by
  obtain ⟨hlt, _⟩ := List.getElem?_eq_some_iff.mp hb
  have hreach := ((h.owned b (h.length ▸ hlt) f).mp hb).1
  have hentry : ∀ {c : Nat}, low.EntryReaches entries f c → f < entries.length := by
    intro c hc
    induction hc with
    | entry hentry =>
      obtain ⟨slot, hslot, _⟩ := hentry
      exact (List.getElem?_eq_some_iff.mp hslot).1
    | step _ _ _ ih => exact ih
  exact hentry hreach

end

section

variable {low : LowIR} {entries : List Nat} {owners : List Owner}

lemma mem_ownerBucket :
    b ∈ Buckets.bucket (owners.map ownerKey) owners.length f ↔ owners[b]? = some (.owned f) := by
  rw [Buckets.mem_bucket, getElem?_map]
  constructor
  · rintro ⟨_, h⟩
    cases hb : owners[b]? with
    | none =>
      rw [hb] at h
      cases h
    | some owner =>
      rw [hb] at h
      cases owner with
      | free => cases h
      | shared => cases h
      | owned g => exact congrArg (fun f => some (Sources.Mark.owned f)) (Option.some.inj h)
  · intro h
    refine ⟨(List.getElem?_eq_some_iff.mp h).1, ?_⟩
    rw [h]
    rfl

lemma getElem?_functions {range : FunctionRange} (h : (functions entries owners)[f]? = some range) :
    f < entries.length ∧ entries[f]? = some range.entrySlot ∧
      range.blockOffset = Buckets.offset entries.length (owners.map ownerKey) f ∧
      range.blockCount = (owners.map ownerKey).count (some f) := by
  unfold functions at h
  rw [getElem?_map, Option.map_eq_some_iff] at h
  obtain ⟨⟨slot, start, count⟩, hzip, rfl⟩ := h
  obtain ⟨hslot, hrest⟩ := getElem?_zip_eq_some.mp hzip
  obtain ⟨hstart, hcount⟩ := getElem?_zip_eq_some.mp hrest
  have hf := (List.getElem?_eq_some_iff.mp hslot).1
  refine ⟨hf, hslot, ?_, ?_⟩
  · rw [Buckets.getElem?_offsets _ (by rw [Buckets.length_counts]; exact hf), zero_add] at hstart
    exact (Option.some.inj hstart).symm
  · rw [Buckets.getElem?_counts _ hf] at hcount
    exact (Option.some.inj hcount).symm

lemma length_functions : (functions entries owners).length = entries.length := by
  unfold functions
  rw [length_map, length_zip, length_zip, Buckets.length_offsets, Buckets.length_counts,
    Nat.min_self, Nat.min_self]

end

/-- The lists of the functions hold each block that has one owner, in the list of that owner and
once. -/
structure ListsPartition (low : LowIR) (entries : List Nat) (o : FunctionOwnership) : Prop where
  entries : o.functions.map (·.entrySlot) = entries
  lists : ∀ f range, o.functions[f]? = some range → ∀ b, b ∈ o.blocksOf range ↔
    o.blockOwners[b]? = some (.owned f)
  joined : o.functionBlocks = o.functions.flatMap o.blocksOf
  nodup : o.functionBlocks.Nodup
  all : ∀ b, b ∈ o.functionBlocks ↔ ∃ f, o.blockOwners[b]? = some (.owned f)

lemma blocksOf_recoverOwnership (low : LowIR) (textAddress : Word) (functionEntrySlots : List Bool)
    {range : FunctionRange}
    (h : (low.recoverOwnership textAddress functionEntrySlots).functions[f]? = some range) :
    (low.recoverOwnership textAddress functionEntrySlots).blocksOf range =
      Buckets.bucket ((low.recoverOwnership textAddress functionEntrySlots).blockOwners.map
        ownerKey) (low.recoverOwnership textAddress functionEntrySlots).blockOwners.length f := by
  obtain ⟨hf, _, hstart, hcount⟩ := getElem?_functions h
  unfold FunctionOwnership.blocksOf
  rw [hstart, hcount]
  refine (Buckets.stretch_scatter hf).trans ?_
  rw [length_map]
  rfl

lemma listsPartition (low : LowIR) (textAddress : Word) (functionEntrySlots : List Bool)
    (h : low.UniqueEntry (low.functionEntries functionEntrySlots)
      (low.recoverOwnership textAddress functionEntrySlots).blockOwners) :
    ListsPartition low (low.functionEntries functionEntrySlots)
      (low.recoverOwnership textAddress functionEntrySlots) := by
  have hslots : ∀ f (range : FunctionRange),
      (low.recoverOwnership textAddress functionEntrySlots).functions[f]? = some range →
      (low.functionEntries functionEntrySlots)[f]? = some range.entrySlot :=
    fun _ _ hrange => (getElem?_functions hrange).2.1
  have hlists : ∀ f range, (low.recoverOwnership textAddress functionEntrySlots).functions[f]? =
      some range → _ :=
    fun _ _ hrange => blocksOf_recoverOwnership low textAddress functionEntrySlots hrange
  have hlen : (low.recoverOwnership textAddress functionEntrySlots).functions.length =
      (low.functionEntries functionEntrySlots).length := length_functions
  have hscatter : (low.recoverOwnership textAddress functionEntrySlots).functionBlocks =
      (List.range (low.functionEntries functionEntrySlots).length).flatMap
        (Buckets.bucket ((low.recoverOwnership textAddress functionEntrySlots).blockOwners.map
          ownerKey) (low.recoverOwnership textAddress functionEntrySlots).blockOwners.length) := by
    refine (Buckets.scatter_eq_flatMap _ _).trans ?_
    rw [length_map]
    rfl
  have hfound : ∀ f < (low.functionEntries functionEntrySlots).length,
      ∃ range, (low.recoverOwnership textAddress functionEntrySlots).functions[f]? = some range :=
    fun f hf => ⟨_, getElem?_eq_getElem (hlen.symm ▸ hf)⟩
  generalize low.recoverOwnership textAddress functionEntrySlots =
    o at h hslots hlists hlen hscatter hfound ⊢
  generalize low.functionEntries functionEntrySlots =
    entries at h hslots hlists hlen hscatter hfound ⊢
  have hmaps : o.functions.map o.blocksOf =
      (List.range entries.length).map
      (Buckets.bucket (o.blockOwners.map ownerKey) o.blockOwners.length) := by
    apply ext_getElem?
    intro f
    rw [getElem?_map, getElem?_map]
    by_cases hf : f < entries.length
    · obtain ⟨range, hrange⟩ := hfound f hf
      rw [hrange, getElem?_range hf, Option.map_some, Option.map_some, hlists f range hrange]
    · rw [getElem?_eq_none (by omega), getElem?_eq_none (by rw [length_range]; omega)]
      rfl
  constructor
  · apply ext_getElem?
    intro f
    rw [getElem?_map]
    by_cases hf : f < entries.length
    · obtain ⟨range, hrange⟩ := hfound f hf
      rw [hrange, hslots f range hrange]
      rfl
    · rw [getElem?_eq_none (by omega), getElem?_eq_none (by omega)]
      rfl
  · intro f range hrange b
    rw [hlists f range hrange, mem_ownerBucket]
  · rw [hscatter, flatMap_def, flatMap_def, hmaps]
  · rw [hscatter]
    exact Buckets.nodup_flatMap_bucket _ _ _
  · intro b
    rw [hscatter, mem_flatMap]
    constructor
    · rintro ⟨f, _, hb⟩
      exact ⟨f, mem_ownerBucket.mp hb⟩
    · rintro ⟨f, hb⟩
      exact ⟨f, mem_range.mpr (h.owner_lt hb), mem_ownerBucket.mpr hb⟩

/-- Blocks belong to the functions whose entry alone leads to them, in any order of the work. -/
theorem recoverOwnership_unique_entry (low : LowIR) (textAddress : Word)
    (functionEntrySlots : List Bool)
    (h : DistinctEntries low (low.functionEntries functionEntrySlots)) :
    low.UniqueEntry (low.functionEntries functionEntrySlots)
        (low.recoverOwnership textAddress functionEntrySlots).blockOwners ∧
      ListsPartition low (low.functionEntries functionEntrySlots)
        (low.recoverOwnership textAddress functionEntrySlots) ∧
      (low.ownership (low.functionEntries functionEntrySlots)).ownershipWorklist = [] ∧
      (∀ s, Relation.ReflTransGen (low.OwnershipStep (low.functionEntries functionEntrySlots))
        (low.startOwnership (low.functionEntries functionEntrySlots)) s → s.ownershipWorklist = [] →
          s.blockOwners = (low.recoverOwnership textAddress functionEntrySlots).blockOwners) ∧
      ∀ run : Nat → OwnershipState,
        run 0 = low.startOwnership (low.functionEntries functionEntrySlots) →
        ∃ i, ¬low.OwnershipStep (low.functionEntries functionEntrySlots) (run i) (run (i + 1)) := by
  have hunique := h.ownership_unique_entry
  refine ⟨hunique, listsPartition low textAddress functionEntrySlots hunique,
    DistinctEntries.ownership_done, ?_, ?_⟩
  · intro s hrun hwork
    exact (h.unique_entry hrun hwork).eq hunique
  · intro run hstart
    exact no_endless_run run hstart

def sharedTail : LowIR where
  entrySlot := 0
  slots := 4
  blocks := (List.range 4).map fun k =>
    { id := k, startSlot := k, endSlot := k + 1, successors := [], reachable := true }
  edges := [⟨0, some 2, .branchTaken⟩, ⟨0, some 3, .fallthrough⟩, ⟨1, some 3, .branch⟩,
    ⟨2, some 1, .fallthrough⟩]

theorem recoverOwnership_unique_entry_sharedTail :
    sharedTail.UniqueEntry [0, 1] [.owned 0, .owned 1, .owned 0, .shared] ∧
      (sharedTail.recoverOwnership 0 [false, true]).functionBlocks = [0, 2, 1] := by
  have hentries : DistinctEntries sharedTail (sharedTail.functionEntries [false, true]) := by
    have hentry : ∀ {f b}, sharedTail.IsEntryOf [0, 1] f b → b = f := by
      rintro f b ⟨slot, hslot, hb⟩
      match f, hslot with
      | 0, hslot =>
        cases hslot
        exact (Option.some.inj hb).symm
      | 1, hslot =>
        cases hslot
        exact (Option.some.inj hb).symm
    refine ⟨by decide, ?_⟩
    intro f g b hf hg
    exact (hentry hf).symm.trans (hentry hg)
  exact ⟨(recoverOwnership_unique_entry sharedTail 0 [false, true] hentries).1, by decide⟩

end LowIR

end NeverD.Sbf
