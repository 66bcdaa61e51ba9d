import NeverD.Emulation.Prepare

namespace NeverD.Emulation
open Lib List Bool MappingTransaction Patch

def Patch.writes (q : Patch) : List (Nat × UInt8) :=
  (List.range' (q.physical - projectionReserve) q.bytes.length).zip q.bytes

def BackingPatch.writes (pages : Table Page) (p : BackingPatch) : List (Nat × UInt8) :=
  (targets pages p.address p.bytes.length).zip p.bytes

lemma Patch.map_writes (q : Patch) :
    q.writes.map Prod.fst = List.range' (q.physical - projectionReserve) q.bytes.length := by
  rw [writes, map_fst_zip (by rw [length_range'])]

lemma applyPatches_eq (patches : List Patch) (bytes : Nat → UInt8) :
    applyPatches patches bytes = applyWrites (patches.flatMap writes) bytes := by
  induction patches generalizing bytes with
  | nil => rfl
  | cons q patches ih =>
    rw [flatMap_cons, applyWrites_append, writes, ← memcpy_eq]
    exact ih _

section

variable {pages : Table Page}

lemma splitPatch_ok (hpages : ∀ a page, pages.find a = some page → page.io = none →
    projectionReserve ≤ page.physical)
    {fuel address : Nat} {bytes : List UInt8} {parts : List Patch} (hf : bytes.length ≤ fuel)
    (h : splitPatch pages fuel address bytes = .ok parts) :
    parts.flatMap writes = (targets pages address bytes.length).zip bytes ∧
      ∀ q ∈ parts, projectionReserve ≤ q.physical := by
  induction fuel generalizing address bytes parts with
  | zero =>
    obtain rfl : bytes = [] := length_eq_zero_iff.mp (Nat.le_zero.mp hf)
    cases h
    exact ⟨rfl, forall_mem_nil _⟩
  | succ fuel ih =>
    cases bytes with
    | nil =>
      cases h
      exact ⟨rfl, forall_mem_nil _⟩
    | cons b rest =>
      rw [splitPatch] at h
      dsimp only at h
      split at h
      · cases h
      rename_i page hpage
      split at h
      · cases h
      rename_i hio
      rw [not_eq_true, Option.isSome_eq_false_iff, Option.isNone_iff_eq_none] at hio
      have hlow := hpages _ page hpage hio
      rw [length_cons] at hf
      have hpos := chunk_pos rest.length address
      generalize hc : min (rest.length + 1) (pageSize - address % pageSize) = count at h hpos
      have hdrop : ((b :: rest).drop count).length = rest.length + 1 - count := by simp
      have htake : ((b :: rest).take count).length = count := by
        rw [length_take, length_cons]
        omega
      cases hs : splitPatch pages fuel (address + count) ((b :: rest).drop count) with
      | error e =>
        rw [hs] at h
        cases h
      | ok more =>
        rw [hs] at h
        cases h
        obtain ⟨hw, hq⟩ := ih (by omega) hs
        refine ⟨?_, forall_mem_cons.mpr ⟨Nat.le_add_right_of_le hlow, hq⟩⟩
        have hbase : page.physical + address % pageSize - projectionReserve =
            page.physical - projectionReserve + address % pageSize := by omega
        have hcount : count + (rest.length + 1 - count) = rest.length + 1 := by omega
        rw [flatMap_cons, hw, writes]
        rw [htake, hbase, ← targets_page hpage (by omega),
          ← zip_append (by rw [length_targets, htake]),
          take_append_drop, hdrop, ← targets_add, hcount, length_cons]

lemma splitPatches_ok (hpages : ∀ a page, pages.find a = some page → page.io = none →
    projectionReserve ≤ page.physical)
    {limit : Nat} {patches : List BackingPatch} {count : Nat} {parts : List Patch}
    (h : splitPatches pages limit patches count = .ok parts) :
    parts.flatMap writes = patches.flatMap (BackingPatch.writes pages) ∧
      ∀ q ∈ parts, projectionReserve ≤ q.physical := by
  induction patches generalizing count parts with
  | nil =>
    cases h
    exact ⟨rfl, forall_mem_nil _⟩
  | cons p patches ih =>
    rw [splitPatches] at h
    split at h
    · cases h
    split at h
    · cases h
    rename_i first hfirst
    obtain ⟨hw, hq⟩ := splitPatch_ok hpages le_rfl hfirst
    cases hs : splitPatches pages limit patches (count + p.bytes.length) with
    | error e =>
      rw [hs] at h
      cases h
    | ok more =>
      rw [hs] at h
      cases h
      obtain ⟨hw', hq'⟩ := ih hs
      refine ⟨?_, forall_mem_append.mpr ⟨hq, hq'⟩⟩
      rw [flatMap_append, hw, hw', flatMap_cons, BackingPatch.writes]

end

lemma sortPatches_sorted (patches : List Patch) :
    (sortPatches patches).Pairwise fun a b => a.physical ≤ b.physical := by
  have htotal : Std.Total fun a b : Patch => a.physical ≤ b.physical :=
    ⟨fun a b => Nat.le_total _ _⟩
  have htrans : IsTrans Patch fun a b => a.physical ≤ b.physical := ⟨fun a b c => le_trans⟩
  exact pairwise_insertionSort _ patches

lemma apart_of_overlapping {patches : List Patch}
    (hs : patches.Pairwise fun a b => a.physical ≤ b.physical) (h : overlapping patches = false) :
    patches.Pairwise fun a b => a.physical + a.bytes.length ≤ b.physical := by
  induction patches with
  | nil => exact .nil
  | cons a rest ih =>
    obtain ⟨ha, hrest⟩ := pairwise_cons.mp hs
    cases rest with
    | nil => exact pairwise_singleton ..
    | cons b rest =>
      rw [overlapping, or_eq_false_iff, decide_eq_false_iff_not] at h
      refine pairwise_cons.mpr ⟨?_, ih hrest h.2⟩
      -- The next patch is behind the first, and all others are behind the next.
      intro c hc
      have hab := ha b mem_cons_self
      have hbc : b.physical ≤ c.physical := by
        rcases mem_cons.mp hc with rfl | hc
        · exact le_rfl
        · exact (pairwise_cons.mp hrest).1 c hc
      omega

lemma nodup_writes {patches : List Patch} (hp : ∀ q ∈ patches, projectionReserve ≤ q.physical)
    (h : patches.Pairwise fun a b => a.physical + a.bytes.length ≤ b.physical) :
    ((patches.flatMap writes).map Prod.fst).Nodup := by
  rw [map_flatMap, nodup_flatMap]
  constructor
  · intro q _
    rw [q.map_writes]
    exact nodup_range' ..
  · refine h.imp_of_mem ?_
    intro a b ha hb hab
    show List.Disjoint (a.writes.map Prod.fst) (b.writes.map Prod.fst)
    rw [a.map_writes, b.map_writes]
    intro p hpa hpb
    rw [mem_range'_1] at hpa hpb
    have := hp a ha
    have := hp b hb
    omega

theorem applyPatches_sorted {pages : Table Page} {patches : List BackingPatch} {parts : List Patch}
    (hw : parts.flatMap writes = patches.flatMap (BackingPatch.writes pages))
    (hp : ∀ q ∈ parts, projectionReserve ≤ q.physical)
    (h : overlapping (sortPatches parts) = false) (bytes : Nat → UInt8) :
    applyPatches (sortPatches parts) bytes =
      applyWrites (patches.flatMap (BackingPatch.writes pages)) bytes := by
  have hperm : (sortPatches parts).Perm parts := perm_insertionSort _ parts
  have hsorted : ∀ q ∈ sortPatches parts, projectionReserve ≤ q.physical := fun q hq =>
    hp q (hperm.mem_iff.mp hq)
  rw [applyPatches_eq, ← hw]
  apply applyWrites_perm (hperm.flatMap_right writes)
  exact nodup_writes hsorted (apart_of_overlapping (sortPatches_sorted parts) h)

structure Prepared (space : AddressSpace) (ram : PhysicalMemory)
    (mappings : List InitializedMapping)
    (patches : List BackingPatch) (t : MappingTransaction) (ram' : PhysicalMemory) : Prop where
  fresh : t.committed = false ∧ t.metadataOnly = false
  running : ram.running = false ∧ ram'.running = true
  preserves : Preserves ram { ram' with running := ram.running }
  space : SpaceOk (· ∈ ram'.regions) { space with pages := t.pages, used := t.used }
  patches : ∀ bytes, MappingTransaction.applyPatches t.patches bytes =
    applyWrites (patches.flatMap (BackingPatch.writes t.pages)) bytes
  remembers : ∀ h, Remembers ram h → Remembers ram' (populateEvents mappings ram ++ h)

variable {space : AddressSpace} {ram ram' : PhysicalMemory} {mappings : List InitializedMapping}
  {patches : List BackingPatch}

lemma prepare_ok {t : MappingTransaction} (hok : ram.Ok) (hspace : SpaceOk (· ∈ ram.regions) space)
    (h : prepare space ram mappings patches = (.ok t, ram')) :
    Prepared space ram mappings patches t ram' := by
  unfold prepare at h
  split at h
  · cases h
  rename_i hrun
  split at h
  · cases h
  split at h
  · cases h
  rename_i reserved used hreserve
  split at h
  · cases h
  rename_i next ram₁ hpopulate
  split at h
  · cases h
  rename_i parts hsplit
  split at h
  · cases h
  rename_i hoverlap
  cases h
  have hres := reserve_ok hreserve
  have hpop := populate_ok hok hres.aligned hpopulate
  have hpres : Preserves ram ram₁ := by
    have := populate_preserves mappings reserved hok
    rw [hpopulate] at this
    exact this
  have hused : used = pageSize * next.size := by
    have hsize := hres.size
    have hbefore := hspace.used
    rw [hpop.size fun a ha => (hres.new a ha).2]
    omega
  have hspace' : SpaceOk (· ∈ ram₁.regions) { space with pages := next, used := used } := by
    refine hspace.extend hpres.regions (N := newPages mappings) ?_ ?_ hused
      (hres.limit hspace.limit)
    · intro a ha
      rw [hpop.old a ha, hres.old a ha]
    · intro a ha
      obtain ⟨m, hm, hin⟩ := ha
      obtain ⟨hmod, hlow, hhigh⟩ := (hres.aligned m hm).mem_pageAddresses.mp hin
      have hstart := (hres.aligned m hm).start
      have hwhole := (hres.aligned m hm).whole
      have hbound := (hres.aligned m hm).bounded
      refine ⟨(hres.new a ⟨m, hm, hin⟩).1, hmod, ?_, hpop.new a ⟨m, hm, hin⟩⟩
      unfold pageSize at *
      omega
  have hreserved : ∀ a page, next.find a = some page → page.io = none →
      projectionReserve ≤ page.physical := by
    intro a page hf hio
    obtain ⟨r, hb, -⟩ := hspace'.memory a page hf hio
    exact (Nat.le_add_right ..).trans hb.2.2.1
  obtain ⟨hw, hp⟩ := splitPatches_ok hreserved hsplit
  rw [not_eq_true] at hrun hoverlap
  refine ⟨⟨rfl, rfl⟩, ⟨hrun, rfl⟩, ?_, hspace', applyPatches_sorted hw hp hoverlap, hpop.remembers⟩
  exact ⟨hpres.ok.same rfl rfl rfl rfl, hpres.regions, hpres.bytes, hpres.rest.1, hpres.rest.2.1,
    rfl⟩

theorem prepare_error {e : Diagnostic} (hok : ram.Ok)
    (h : prepare space ram mappings patches = (.error e, ram')) : Preserves ram ram' := by
  unfold prepare at h
  split at h
  · cases h
    exact .refl hok
  split at h
  · cases h
    exact .refl hok
  split at h
  · cases h
    exact .refl hok
  rename_i reserved used hreserve
  have hpres := populate_preserves mappings reserved hok
  split at h
  · rename_i hpopulate
    cases h
    rw [hpopulate] at hpres
    exact hpres
  rename_i hpopulate
  rw [hpopulate] at hpres
  split at h
  · cases h
    exact hpres
  split at h
  · cases h
    exact hpres
  · cases h

end NeverD.Emulation
