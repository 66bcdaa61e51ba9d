import NeverD.Emulation.Generations
import NeverD.Emulation.Monitors

namespace NeverD.Emulation
open Lib Lib.Intervals List Monitors

variable {r : RAMReservation} {data : List UInt8} {size address physical : Nat}

def Machine.Wrote (m : Machine) (p : Nat) : Operation → Prop
  | .write address data => (m.perform (.write address data)).1 = .ok [] ∧
      ∃ i, i < data.length ∧ ∃ page, m.space.pages.find (pageOf (address + i)) = some page ∧
        p = page.physical + (address + i) % pageSize
  | .writeBacking address data => (m.perform (.writeBacking address data)).1 = .ok [] ∧
      ∃ i, i < data.length ∧ ∃ page, m.space.pages.find (pageOf (address + i)) = some page ∧
        p = page.physical + (address + i) % pageSize
  | .writeView index offset data => (m.perform (.writeView index offset data)).1 = .ok [] ∧
      ∃ t ∈ ((m.views.getD index {}).targets.drop offset).take data.length,
      p = projectionReserve + t
  | .commit => ∃ q ∈ m.publication, q.physical ≤ p ∧ p < q.physical + q.bytes.length
  | _ => False

def MemorySystem.Wrote (s : MemorySystem) (p : Nat) : SystemOperation → Prop
  | .client index op => index < s.spaces.length ∧ (s.machine index).Wrote p op
  | .transaction index .commit => ∃ t, s.transactions[index]? = some t ∧ t.phase = .staged ∧
      Covered (t.slices.map RAMSlice.extent) p
  | _ => False

lemma covered_writeParts {pages : Table Page} {fuel : Nat} {bytes bytes' : Nat → UInt8}
    (h : AddressSpace.writePages pages fuel address data bytes = some bytes') (p : Nat) :
    Covered (writeParts pages fuel address data.length) p ↔
      ∃ i, i < data.length ∧ ∃ page, pages.find (pageOf (address + i)) = some page ∧
        p = page.physical + (address + i) % pageSize := by
  induction fuel generalizing address data bytes with
  | zero =>
    cases data with
    | nil =>
      rw [length_nil, writeParts, covered_nil, false_iff]
      rintro ⟨i, hi, -⟩
      omega
    | cons b rest => cases h
  | succ fuel ih =>
    cases data with
    | nil =>
      rw [length_nil, writeParts, covered_nil, false_iff]
      rintro ⟨i, hi, -⟩
      omega
    | cons b rest =>
      rw [AddressSpace.writePages] at h
      split at h
      · cases h
      rename_i page hpage
      rw [length_cons, writeParts]
      rw [hpage]
      have hoffset : address % pageSize < pageSize := Nat.mod_lt _ (by decide)
      generalize hcount : min (rest.length + 1) (pageSize - address % pageSize) = count at h ⊢
      have hrest := ih h
      have hlength : ((b :: rest).drop count).length = rest.length + 1 - count := by
        rw [length_drop, length_cons]
      rw [hlength] at hrest
      rw [covered_cons, hrest]
      clear hrest
      -- The addresses of this page.
      have hhere : ∀ i, i < count → pageOf (address + i) = address - address % pageSize ∧
          (address + i) % pageSize = address % pageSize + i := by
        intro i hi
        unfold pageOf pageSize at *
        omega
      constructor
      · rintro (⟨hlow, hhigh⟩ | ⟨i, hi, page', hpage', hp⟩)
        · refine ⟨p - (page.physical + address % pageSize), by omega, page, ?_, ?_⟩
          · rw [(hhere _ (by omega)).1]
            exact hpage
          · rw [(hhere _ (by omega)).2]
            omega
        · refine ⟨count + i, by omega, page', ?_, ?_⟩
          · rw [← add_assoc]
            exact hpage'
          · rw [← add_assoc]
            exact hp
      · rintro ⟨i, hi, page', hpage', hp⟩
        rcases lt_or_ge i count with hlt | hge
        · apply Or.inl
          obtain ⟨hsame, hmod⟩ := hhere i hlt
          rw [hsame, hpage] at hpage'
          cases hpage'
          rw [hmod] at hp
          omega
        · refine .inr ⟨i - count, by omega, page', ?_, ?_⟩
          · rw [add_assoc, Nat.add_sub_cancel' hge]
            exact hpage'
          · rw [add_assoc, Nat.add_sub_cancel' hge]
            exact hp

lemma covered_sliceParts (slices : List MemorySlice) (offset n p : Nat) :
      Covered (sliceParts slices offset n) p ↔
      ∃ t ∈ ((slicesTargets slices).drop offset).take n, p = projectionReserve + t := by
  induction slices generalizing offset n with
  | nil => simp [sliceParts, slicesTargets]
  | cons slice rest ih =>
    rw [sliceParts]
    split
    next hn =>
      rw [hn, take_zero]
      simp
    split
    next hbehind => rw [ih, drop_behind hbehind]
    next hinside =>
      rw [covered_cons, ih, drop_inside (not_le.mp hinside), drop_zero, take_append, take_range',
        length_range']
      have hcount : n - min n (slice.size - offset) = n - (slice.size - offset) := by omega
      rw [hcount]
      simp only [mem_append, mem_range'_1, or_and_right, exists_or]
      apply or_congr_left
      constructor
      · rintro ⟨hlow, hhigh⟩
        exact ⟨p - projectionReserve, ⟨by omega, by omega⟩, by omega⟩
      · rintro ⟨t, ⟨hlow, hhigh⟩, hp⟩
        omega

namespace Machine

variable {m : Machine}

lemma written_of_ok {permissions : Permissions} {answer : List UInt8}
    (h : (m.store (m.space.writeWithPermissions m.ram address data permissions)).1 = .ok answer) :
      answer = [] ∧
      ∃ bytes, AddressSpace.writePages m.space.pages data.length address data m.ram.bytes =
      some bytes := by
  unfold AddressSpace.writeWithPermissions at h
  split at h
  · cases h
  split at h
  · cases h
  split at h
  next bytes hbytes =>
    cases h
    exact ⟨rfl, bytes, hbytes⟩
  · cases h

theorem covered_write {permissions : Permissions} (p : Nat) :
    Covered (match (m.store (m.space.writeWithPermissions m.ram address data permissions)).1 with
      | .error _ => []
      | .ok _ => writeParts m.space.pages data.length address data.length) p ↔
      (m.store (m.space.writeWithPermissions m.ram address data permissions)).1 = .ok [] ∧
        ∃ i, i < data.length ∧ ∃ page, m.space.pages.find (pageOf (address + i)) = some page ∧
          p = page.physical + (address + i) % pageSize := by
  cases h : (m.store (m.space.writeWithPermissions m.ram address data permissions)).1 with
  | error e => simp
  | ok answer =>
    obtain ⟨hanswer, bytes, hbytes⟩ := written_of_ok h
    subst hanswer
    simp only [true_and]
    exact covered_writeParts hbytes p

lemma covered_writeView {index offset : Nat} (p : Nat) :
    Covered (match (m.perform (.writeView index offset data)).1 with
      | .error _ => []
      | .ok _ => sliceParts (m.views.getD index {}).slices offset data.length) p ↔
      (m.perform (.writeView index offset data)).1 = .ok [] ∧
        ∃ t ∈ ((m.views.getD index {}).targets.drop offset).take data.length,
        p = projectionReserve + t := by
  have hanswer : ∀ answer, (m.perform (.writeView index offset data)).1 = .ok answer →
      answer = [] := by
    intro answer h
    rw [perform] at h
    unfold MemoryView.write store at h
    split at h
    · cases h
    · cases h
      rfl
  cases h : (m.perform (.writeView index offset data)).1 with
  | error e => simp
  | ok answer =>
    have hnil := hanswer answer h
    subst hnil
    simp only [true_and]
    exact covered_sliceParts _ _ _ p

theorem covered_invalidated (m : Machine) (op : Operation) (p : Nat) :
    Covered (m.invalidated op) p ↔ m.Wrote p op := by
  cases op with
  | write address data => exact covered_write p
  | writeBacking address data => exact covered_write p
  | writeView index offset data => exact covered_writeView p
  | commit =>
    unfold invalidated Wrote
    have hparts : ∀ patches :
        List Patch, Covered (patches.map fun q => (q.physical, q.bytes.length)) p ↔
        ∃ q ∈ patches, q.physical ≤ p ∧ p < q.physical + q.bytes.length := by
      intro patches
      unfold Covered
      simp only [mem_map, exists_exists_and_eq_and]
    dsimp only
    split
    next e herror =>
      have hnone : m.publication = [] := by
        unfold publication
        cases hpending : m.pending with
        | none => rfl
        | some t =>
          by_cases hcommitted : t.committed = true
          · exact if_pos (.inl hcommitted)
          · -- A transaction that was not committed yet does not fail.
            exfalso
            rw [perform] at herror
            unfold commit at herror
            rw [hpending] at herror
            dsimp only at herror
            rw [if_neg hcommitted] at herror
            split at herror
            · cases herror
            · cases herror
      rw [hnone]
      simp
    · exact hparts _
  | _ =>
    unfold invalidated Wrote
    split <;> simp

theorem covered_initializes (m : Machine) (op : Operation) (p : Nat) :
    Covered (m.initializes op) p ↔ op ≠ .commit ∧ m.Wrote p op := by
  cases op with
  | write address data | writeBacking address data =>
    exact (covered_write p).trans (and_iff_right (by simp)).symm
  | writeView index offset data => exact (covered_writeView p).trans (and_iff_right (by simp)).symm
  | commit =>
    unfold initializes
    split <;> simp
  | _ =>
    unfold initializes Wrote
    split <;> simp

end Machine

namespace RAMReservation

def extent (r : RAMReservation) : Interval := (r.granule, r.granuleSize)

lemma overlaps_iff (hr : 0 < r.granuleSize) (hs : 0 < size) : r.overlaps physical size = true ↔
      ∃ p, (physical ≤ p ∧ p < physical + size) ∧ r.granule ≤ p ∧
        p < r.granule + r.granuleSize := by
  unfold overlaps
  constructor
  · intro h
    split at h
    · have := of_decide_eq_true h
      exact ⟨r.granule, by omega, by omega, by omega⟩
    · have := of_decide_eq_true h
      exact ⟨physical, by omega, by omega, by omega⟩
  · rintro ⟨p, hp, hlow, hhigh⟩
    split
    · apply decide_eq_true
      omega
    · apply decide_eq_true
      omega

/-- A reservation keeps its interval and, while somebody holds it, is valid as long as none of its
bytes is touched. -/
structure Follows (touched : Prop) (r r' : RAMReservation) : Prop where
  extent : r'.extent = r.extent
  alive : r'.alive = true → r.alive = true
  valid : r'.alive = true → (r.valid = true → r.registered = true) →
    (r'.valid = true ↔ r.valid = true ∧ ¬ touched)
  registered : r'.alive = true → (r.valid = true → r.registered = true) → r'.valid = true →
    r'.registered = true

lemma Follows.refl (r : RAMReservation) : Follows False r r :=
  ⟨rfl, id, fun _ _ => (and_iff_left not_false).symm, fun _ h => h⟩

lemma Follows.trans {a b : Prop} {r' r'' : RAMReservation} (h : Follows a r r')
    (h' : Follows b r' r'') : Follows (a ∨ b) r r'' := by
  refine ⟨h'.extent.trans h.extent, fun hal => h.alive (h'.alive hal), ?_, ?_⟩
  · intro hal hreg
    rw [h'.valid hal (h.registered (h'.alive hal) hreg), h.valid (h'.alive hal) hreg, not_or,
      and_assoc]
  · exact fun hal hreg => h'.registered hal (h.registered (h'.alive hal) hreg)

lemma Follows.congr {a b : Prop} {r' : RAMReservation} (h : Follows a r r') (hab : a ↔ b) :
    Follows b r r' :=
  (propext hab : a = b) ▸ h

lemma follows_written (hr : 0 < r.granuleSize) (physical : Nat) (hs : 0 < size) :
    Follows (∃ p, (physical ≤ p ∧ p < physical + size) ∧ r.granule ≤ p ∧
      p < r.granule + r.granuleSize) r (r.written physical size) := by
  rw [← overlaps_iff hr hs]
  unfold written
  split
  next hreg =>
    refine ⟨rfl, id, ?_, fun _ h => h⟩
    intro _ h
    constructor
    · exact fun hv => absurd (h hv) hreg
    · exact fun hv => hv.1
  split
  next hal => exact ⟨rfl, id, fun h => absurd h hal, fun h => absurd h hal⟩
  · refine ⟨rfl, id, ?_, fun _ _ h => h⟩
    intro _ _
    simp

end RAMReservation

/-- A reservation under the parts of a write, in their order. -/
def notified (r : RAMReservation) (parts : List Interval) : RAMReservation :=
  parts.foldl (fun r part => if part.2 = 0 then r else r.written part.1 part.2) r

lemma invalidate_reservations (parts : List Interval) (m : Monitors) :
    (parts.foldl invalidateReservations m).reservations = m.reservations.map (notified · parts) ∧
      (parts.foldl invalidateReservations m).watches = m.watches := by
  induction parts generalizing m with
  | nil => exact ⟨(map_id m.reservations).symm, rfl⟩
  | cons part rest ih =>
    obtain ⟨hres, hwatches⟩ := ih (m.invalidateReservations part)
    rw [foldl_cons, hres, hwatches]
    unfold invalidateReservations notified
    by_cases hzero : part.2 = 0
    · rw [if_pos hzero]
      simp only [foldl_cons, hzero, if_true, and_self]
    · rw [if_neg hzero]
      simp only [foldl_cons, hzero, if_false, map_map, Function.comp_def, and_self]

lemma follows_notified (hr : 0 < r.granuleSize) (parts : List Interval) :
    RAMReservation.Follows (∃ p, Covered parts p ∧ r.granule ≤ p ∧ p < r.granule + r.granuleSize)
      r (notified r parts) := by
  induction parts generalizing r with
  | nil =>
    apply (RAMReservation.Follows.refl r).congr
    simp
  | cons part rest ih =>
    have hsplit : (∃ p, Covered (part :: rest) p ∧ r.granule ≤ p ∧ p < r.granule + r.granuleSize) ↔
        (∃ p, (part.1 ≤ p ∧ p < part.1 + part.2) ∧ r.granule ≤ p ∧ p < r.granule + r.granuleSize) ∨
          ∃ p, Covered rest p ∧ r.granule ≤ p ∧ p < r.granule + r.granuleSize := by
      simp only [covered_cons, or_and_right, exists_or]
    show RAMReservation.Follows _ r
      (notified (if part.2 = 0 then r else r.written part.1 part.2) rest)
    by_cases hzero : part.2 = 0
    · rw [if_pos hzero]
      apply (ih hr).congr
      rw [hsplit, or_iff_right]
      rintro ⟨p, hp, -⟩
      omega
    · rw [if_neg hzero]
      have hfirst := RAMReservation.follows_written hr part.1 (Nat.pos_of_ne_zero hzero)
      have hextent := hfirst.extent
      unfold RAMReservation.extent at hextent
      rw [Prod.mk.injEq] at hextent
      have hrest := ih (r := r.written part.1 part.2) (by rw [hextent.2]; exact hr)
      rw [hextent.1, hextent.2] at hrest
      exact (hfirst.trans hrest).congr hsplit.symm

namespace RAMInitializationWatch

lemma setFlags_iff (flags : Nat → Bool) (start count i : Nat) :
    setFlags flags start count i = true ↔ (start ≤ i ∧ i < start + count) ∨ flags i = true := by
  unfold setFlags
  rw [Bool.or_eq_true, decide_eq_true_iff]

lemma commitPart_iff (flags : Nat → Bool) (part : InitializationPart) (i : Nat) :
    commitPart physical size flags part i = true ↔ flags i = true ∨
      (part.offset ≤ i ∧ i < part.offset + part.size ∧
        physical ≤ part.physical + (i - part.offset) ∧
        part.physical + (i - part.offset) < physical + size) := by
  unfold commitPart
  split
  next hapart =>
    constructor
    · exact .inl
    · rintro (h | h)
      · exact h
      · omega
  next hmeet =>
    rw [setFlags_iff]
    constructor
    · rintro (h | h)
      · exact .inr (by omega)
      · exact .inl h
    · rintro (h | h)
      · exact .inr h
      · exact .inl (by omega)

lemma foldl_commitPart (parts : List InitializationPart) (flags : Nat → Bool) (i : Nat) :
    parts.foldl (commitPart physical size) flags i = true ↔ flags i = true ∨
      ∃ part ∈ parts, part.offset ≤ i ∧ i < part.offset + part.size ∧
        physical ≤ part.physical + (i - part.offset) ∧
        part.physical + (i - part.offset) < physical + size := by
  induction parts generalizing flags with
  | nil => simp
  | cons part rest ih =>
    rw [foldl_cons, ih, commitPart_iff, or_assoc]
    simp only [mem_cons, exists_eq_or_imp]

lemma partsOf_iff {P : Nat → Prop} (slices : List MemorySlice) (offset i : Nat) :
    (∃ part ∈ partsOf slices offset, part.offset ≤ i ∧ i < part.offset + part.size ∧
      P (part.physical + (i - part.offset))) ↔
      offset ≤ i ∧ ∃ t, (slicesTargets slices)[i - offset]? = some t ∧
      P (projectionReserve + t) := by
  induction slices generalizing offset with
  | nil => simp [partsOf, slicesTargets]
  | cons slice rest ih =>
    rw [partsOf, slicesTargets_cons]
    simp only [mem_cons, exists_eq_or_imp]
    rw [ih]
    have hlength := slice.length_targets
    rcases lt_or_ge i (offset + slice.size) with hlt | hge
    · -- The byte is in this slice, or before it.
      rw [or_iff_left (fun h => absurd h.1 (Nat.not_le.mpr hlt))]
      constructor
      · rintro ⟨hlow, -, hp⟩
        refine ⟨hlow, slice.region.offset + slice.offset + (i - offset), ?_, ?_⟩
        · rw [getElem?_append_left (by omega), MemorySlice.targets, getElem?_range' (by omega),
            one_mul]
        · rw [← add_assoc, ← add_assoc]
          exact hp
      · rintro ⟨hlow, t, ht, hp⟩
        rw [getElem?_append_left (by omega), MemorySlice.targets, getElem?_range' (by omega),
          one_mul, Option.some.injEq] at ht
        refine ⟨hlow, hlt, ?_⟩
        rw [← ht, ← add_assoc, ← add_assoc] at hp
        exact hp
    · rw [or_iff_right (fun h => absurd h.2.1 (Nat.not_lt.mpr hge))]
      have hindex : i - offset - slice.targets.length = i - (offset + slice.size) := by omega
      rw [getElem?_append_right (by omega), hindex]
      exact ⟨fun h => ⟨by omega, h.2⟩, fun h => ⟨hge, h.2⟩⟩

/-- What becomes of a watch: a flag is set once its byte is touched. -/
structure Follows (touched : Nat → Prop) (w w' : RAMInitializationWatch) : Prop where
  bytes : w'.bytes = w.bytes
  parts : w'.parts = w.parts
  alive : w'.alive = true → w.alive = true
  flags : w'.alive = true → ∀ i, w'.flags i = true ↔ w.flags i = true ∨
    ∃ part ∈ w.parts, part.offset ≤ i ∧ i < part.offset + part.size ∧
    touched (part.physical + (i - part.offset))

lemma Follows.refl (w : RAMInitializationWatch) : Follows (fun _ => False) w w := by
  refine ⟨rfl, rfl, id, fun _ i => ?_⟩
  simp

lemma Follows.trans {a b : Nat → Prop} {w w' w'' : RAMInitializationWatch} (h : Follows a w w')
    (h' : Follows b w' w'') : Follows (fun p => a p ∨ b p) w w'' := by
  refine ⟨h'.bytes.trans h.bytes, h'.parts.trans h.parts, fun hal => h.alive (h'.alive hal), ?_⟩
  intro hal i
  rw [h'.flags hal, h.flags (h'.alive hal), h.parts, or_assoc]
  simp only [and_or_left, exists_or]

lemma Follows.congr {a b : Nat → Prop} {w w' : RAMInitializationWatch} (h : Follows a w w')
    (hab : ∀ p, a p ↔ b p) : Follows b w w' := by
  have heq : a = b := funext fun p => propext (hab p)
  exact heq ▸ h

lemma follows_committed (w : RAMInitializationWatch) (physical size : Nat) :
    Follows (fun p => physical ≤ p ∧ p < physical + size) w (w.committed physical size) := by
  unfold committed
  split
  · exact ⟨rfl, rfl, id, fun _ i => foldl_commitPart w.parts w.flags i⟩
  next hal => exact ⟨rfl, rfl, id, fun h => absurd h hal⟩

end RAMInitializationWatch

def marked (w : RAMInitializationWatch) (parts : List Interval) : RAMInitializationWatch :=
  parts.foldl (fun w part => if part.2 = 0 then w else w.committed part.1 part.2) w

lemma record_watches (parts : List Interval) (m : Monitors) :
    (parts.foldl recordInitialization m).watches = m.watches.map (marked · parts) ∧
      (parts.foldl recordInitialization m).reservations = m.reservations := by
  induction parts generalizing m with
  | nil => exact ⟨(map_id m.watches).symm, rfl⟩
  | cons part rest ih =>
    obtain ⟨hwatches, hres⟩ := ih (m.recordInitialization part)
    rw [foldl_cons, hwatches, hres]
    unfold recordInitialization marked
    by_cases hzero : part.2 = 0
    · rw [if_pos hzero]
      simp only [foldl_cons, hzero, if_true, and_self]
    · rw [if_neg hzero]
      simp only [foldl_cons, hzero, if_false, map_map, Function.comp_def, and_self]

lemma follows_marked (w : RAMInitializationWatch) (parts : List Interval) :
    RAMInitializationWatch.Follows (Covered parts) w (marked w parts) := by
  induction parts generalizing w with
  | nil =>
    apply (RAMInitializationWatch.Follows.refl w).congr
    intro p
    rw [covered_nil]
  | cons part rest ih =>
    show RAMInitializationWatch.Follows _ w
      (marked (if part.2 = 0 then w else w.committed part.1 part.2) rest)
    by_cases hzero : part.2 = 0
    · rw [if_pos hzero]
      apply (ih w).congr
      intro p
      rw [covered_cons, or_iff_right]
      omega
    · rw [if_neg hzero]
      apply ((w.follows_committed part.1 part.2).trans (ih _)).congr
      intro p
      rw [covered_cons]

namespace MemorySystem

def Records (s : MemorySystem) (p : Nat) (op : SystemOperation) : Prop :=
  s.Wrote p op ∧ ∀ index, op ≠ .client index .commit

lemma foldl_commitSlice (slices : List RAMSlice) (s : MemorySystem) :
    (slices.foldl commitSlice s).monitors.reservations =
        s.monitors.reservations.map (notified · (slices.map RAMSlice.extent)) ∧
      (slices.foldl commitSlice s).monitors.watches =
        s.monitors.watches.map (marked · (slices.map RAMSlice.extent)) := by
  induction slices generalizing s with
  | nil => exact ⟨(map_id _).symm, (map_id _).symm⟩
  | cons slice rest ih =>
    obtain ⟨hres, hwatches⟩ := ih (s.commitSlice slice)
    obtain ⟨hres₁, hwatches₁⟩ := invalidate_reservations [slice.extent] s.monitors
    obtain ⟨hwatches₂, hres₂⟩ :=
      record_watches [slice.extent] (s.recordRAMWrite slice.extent).monitors
    have hr : (s.commitSlice slice).monitors.reservations = s.monitors.reservations.map
        (notified · [slice.extent]) :=
      hres₂.trans hres₁
    have hw : (s.commitSlice slice).monitors.watches =
        s.monitors.watches.map (marked · [slice.extent]) := by
      refine hwatches₂.trans ?_
      exact congrArg (List.map (marked · [slice.extent])) hwatches₁
    rw [foldl_cons, hres, hwatches, hr, hw, map_map, map_map]
    exact ⟨rfl, rfl⟩

end MemorySystem

end NeverD.Emulation
