import NeverD.Emulation.MonitorExact

namespace NeverD.Emulation
open Lib Lib.Intervals List Nat

variable {index : Nat} {watches : List Interval}

/-- Pages at multiples of the page size, in the space and in what is pending, and views without
empty slices. -/
structure Machine.Orderly (m : Machine) : Prop where
  pages : AlignedKeys m.space.pages
  pending : ∀ t ∈ m.pending, AlignedKeys t.pages
  views : ∀ v ∈ m.views, FullSlices v

/-- The space is the old one, or of a new generation. -/
def Machine.Renews (m : Machine) (next : Machine) : Prop :=
  next.Orderly ∧ (next.space = m.space ∨ next.space.generation = m.space.generation + 1)

namespace Machine.Orderly

variable {m : Machine}

variable (h : m.Orderly)
include h

lemma stay : m.Renews m := ⟨h, .inl rfl⟩

lemma edit {result : Except Diagnostic AddressSpace}
    (hedits : ∀ space, result = .ok space → Edits m.space space) : m.Renews (m.edit result).2 := by
  cases result with
  | error e => exact h.stay
  | ok space =>
    have hspace := hedits space rfl
    exact ⟨⟨hspace.aligned h.pages, h.pending, h.views⟩, .inr hspace.generation⟩

lemma store (result : Except Diagnostic PhysicalMemory) : m.Renews (m.store result).2 := by
  cases result with
  | error e => exact h.stay
  | ok ram => exact ⟨⟨h.pages, h.pending, h.views⟩, .inl rfl⟩

lemma addView {v : MemoryView} (hv : FullSlices v) :
    Machine.Renews m { m with views := m.views ++ [v] } := by
  refine ⟨⟨h.pages, h.pending, ?_⟩, .inl rfl⟩
  intro w hw
  rcases mem_append.mp hw with hw | hw
  · exact h.views w hw
  · rw [mem_singleton.mp hw]
    exact hv

lemma keepView {result : Except Diagnostic MemoryView} (hv : ∀ v, result = .ok v → FullSlices v) :
    m.Renews (m.keepView result).2 := by
  cases result with
  | error e => exact h.stay
  | ok v => exact h.addView (hv v rfl)

lemma commit : m.Renews m.commit.2 := by
  unfold Machine.commit
  split
  · exact h.stay
  rename_i t ht
  split
  · exact h.stay
  split
  · -- A publication of metadata leaves the pages and their generation.
    refine ⟨⟨h.pages, ?_, h.views⟩, .inl rfl⟩
    intro t' ht'
    cases ht'
    exact h.pending t ht
  · refine ⟨⟨h.pending t ht, ?_, h.views⟩, .inr rfl⟩
    intro t' ht'
    cases ht'
    exact h.pages

omit h

lemma allocate_positive {ram ram' : PhysicalMemory} {size : Nat} {region : MemoryRegion}
    (h : ram.allocate size = .ok (region, ram')) : 0 < size := by
  unfold PhysicalMemory.allocate at h
  split at h
  · cases h
  split at h
  · cases h
  · omega

lemma perform (h : m.Orderly) (op : Operation) : m.Renews (m.perform op).2 := by
  cases op with
  | map address size permissions =>
    rw [Machine.perform]
    split
    · exact h.stay
    next space ram hmap =>
      have hspace := edits_map hmap
      exact ⟨⟨hspace.aligned h.pages, h.pending, h.views⟩, .inr hspace.generation⟩
  | mapRegion address region offset size permissions =>
    exact h.edit fun _ hop => edits_mapRegion hop
  | unmap address size => exact h.edit fun _ hop => edits_unmap hop
  | replaceAliases remove add => exact h.edit fun _ hop => edits_replaceAliases hop
  | protect address size permissions => exact h.edit fun _ hop => edits_protect hop
  | mapMmio address size callbacks => exact h.edit fun _ hop => edits_mapMmio hop
  | unmapMmio address size => exact h.edit fun _ hop => edits_unmapMmio hop
  | prepareMappings mappings patches =>
    rw [Machine.perform]
    split
    · exact ⟨⟨h.pages, h.pending, h.views⟩, .inl rfl⟩
    next t ram hprepare =>
      refine ⟨⟨h.pages, ?_, h.views⟩, .inl rfl⟩
      intro t' ht'
      cases ht'
      exact aligned_prepare hprepare h.pages
  | prepareMetadataPublication =>
    rw [Machine.perform]
    split
    · exact h.stay
    · refine ⟨⟨h.pages, ?_, h.views⟩, .inl rfl⟩
      intro t' ht'
      cases ht'
      exact .empty
  | commit => exact h.commit
  | drop =>
    rw [Machine.perform]
    split
    · exact h.stay
    · exact ⟨⟨h.pages, (fun t ht => by cases ht), h.views⟩, .inl rfl⟩
  | read address n => exact h.stay
  | write address data => exact h.store _
  | readBacking address n =>
    rw [Machine.perform]
    split
    · exact h.stay
    · exact h.stay
  | writeBacking address data => exact h.store _
  | allocate size =>
    rw [Machine.perform]
    split
    · exact h.stay
    · exact ⟨⟨h.pages, h.pending, h.views⟩, .inl rfl⟩
  | releaseRegion index => exact ⟨⟨h.pages, h.pending, h.views⟩, .inl rfl⟩
  | allocateBacking size =>
    rw [Machine.perform]
    split
    · exact h.stay
    next region ram hallocate =>
      have hviews :=
        (h.addView (v := { memory := some ram.identity, size := size,
                           slices := [⟨region, 0, size⟩] })
        (fun s hs => by rw [mem_singleton.mp hs]; exact allocate_positive hallocate)).1.views
      exact ⟨⟨h.pages, h.pending, hviews⟩, .inl rfl⟩
  | pinBacking address size =>
    apply h.keepView
    intro v hop
    unfold AddressSpace.pinBacking at hop
    split at hop
    · cases hop
    split at hop
    next slices hslices =>
      cases hop
      exact full_pinSlices hslices (forall_mem_nil _)
    · cases hop
  | subview index offset length =>
    apply h.keepView
    intro v hop
    unfold MemoryView.subview at hop
    split at hop
    · cases hop
      exact full_cut _ _ _
    · cases hop
  | releaseView index =>
    refine ⟨⟨h.pages, h.pending, ?_⟩, .inl rfl⟩
    exact fun v hv => h.views v (mem_of_mem_eraseIdx hv)
  | readView index offset n => exact h.stay
  | writeView index offset data => exact h.store _

end Machine.Orderly

namespace WriteWatches

def Watches (pages : Table Page) (watches : List Interval) (q : Nat) : Prop :=
  ∃ v, Covered watches v ∧ physicalOf pages v = some q

variable {pages : Table Page}

variable (hal : AlignedKeys pages)
include hal

lemma mem_watchParts {w : Interval} (hw : 0 < w.2) (part : Interval) :
    part ∈ watchParts pages w ↔ ∃ a page, pages.find a = some page ∧ page.io.isSome = false ∧
      w.1 < a + pageSize ∧ a < w.1 + w.2 ∧
      part = (page.physical + max w.1 a - a, min (w.1 + w.2 - 1)
      (a + (pageSize - 1)) - max w.1 a + 1) := by
  unfold watchParts
  dsimp only
  rw [mem_flatMap]
  -- The source starts at the page of the first byte, which is the first page that reaches it.
  have hpage : ∀ a, a % pageSize = 0 → (w.1 - w.1 % pageSize ≤ a ↔ w.1 < a + pageSize) := by
    intro a ha
    unfold pageSize at *
    omega
  constructor
  · rintro ⟨a, ha, hpart⟩
    rw [Finset.mem_sort, Finset.mem_filter] at ha
    obtain ⟨hkey, hlow, hhigh⟩ := ha
    have haligned := hal a hkey
    split at hpart
    · cases hpart
    rename_i page hfind
    split at hpart
    · cases hpart
    rename_i hio
    rw [mem_singleton] at hpart
    refine ⟨a, page, hfind, by simpa using hio, (hpage a haligned).mp hlow, by omega, ?_⟩
    rw [hpart, haligned, Nat.sub_zero]
  · rintro ⟨a, page, hfind, hio, hlow, hhigh, hpart⟩
    have haligned := hal.find hfind
    refine ⟨a, ?_, ?_⟩
    · rw [Finset.mem_sort, Finset.mem_filter]
      refine ⟨?_, (hpage a haligned).mpr hlow, by omega⟩
      rw [Table.mem_keys, hfind]
      rfl
    · rw [hfind]
      dsimp only
      rw [hio, if_neg Bool.false_ne_true, mem_singleton, hpart, haligned, Nat.sub_zero]

lemma size_watchParts {w : Interval} (hw : 0 < w.2) : ∀ part ∈ watchParts pages w, 0 < part.2 := by
  intro part hpart
  obtain ⟨a, page, -, -, -, -, rfl⟩ := (mem_watchParts hal hw part).mp hpart
  exact succ_pos _

lemma covered_watchParts {w : Interval} (hw : 0 < w.2) (q : Nat) :
    Covered (watchParts pages w) q ↔ ∃ v, (w.1 ≤ v ∧ v < w.1 + w.2) ∧
      physicalOf pages v = some q := by
  constructor
  · rintro ⟨part, hpart, hlow, hhigh⟩
    obtain ⟨a, page, hfind, hio, hstart, hstop, rfl⟩ := (mem_watchParts hal hw part).mp hpart
    have haligned := hal.find hfind
    refine ⟨q + a - page.physical, by omega, ?_⟩
    have hbase : a - a % pageSize = a := by rw [haligned, Nat.sub_zero]
    have hv : q + a - page.physical = a + (q + a - page.physical - a) := by omega
    have hfound : pages.find (a - a % pageSize) = some page := by
      rw [hbase]
      exact hfind
    rw [hv, physicalOf_page (by rw [haligned]; unfold pageSize at *; omega) hfound hio, haligned]
    congr 1
    omega
  · rintro ⟨v, ⟨hlow, hhigh⟩, hv⟩
    unfold physicalOf at hv
    split at hv
    · cases hv
    rename_i page hfind
    split at hv
    · cases hv
    rename_i hio
    rw [Option.some.injEq] at hv
    have hle : v % pageSize ≤ v := mod_le v pageSize
    have hlt : v % pageSize < pageSize := mod_lt v (by decide)
    have hpage : pageOf v + v % pageSize = v := Nat.sub_add_cancel hle
    refine ⟨_, (mem_watchParts hal hw _).mpr ⟨pageOf v, page,
      hfind, by simpa using hio, by omega, by omega, rfl⟩, ?_⟩
    omega

lemma covered_physicalWatches (hw : ∀ w ∈ watches, 0 < w.2) (q : Nat) :
    Covered (physicalWatches pages watches) q ↔ Watches pages watches q := by
  unfold physicalWatches
  rw [covered_merge (sort_ordered _), Covered.perm (sort_perm _)]
  constructor
  · rintro ⟨part, hpart, hq⟩
    obtain ⟨w, hmem, hpart⟩ := mem_flatMap.mp hpart
    obtain ⟨v, hv, hp⟩ := (covered_watchParts hal (hw w hmem) q).mp ⟨part, hpart, hq⟩
    exact ⟨v, ⟨w, hmem, hv⟩, hp⟩
  · rintro ⟨v, ⟨w, hmem, hv⟩, hp⟩
    obtain ⟨part, hpart, hq⟩ := (covered_watchParts hal (hw w hmem) q).mpr ⟨v, hv, hp⟩
    exact ⟨part, mem_flatMap.mpr ⟨w, hmem, hpart⟩, hq⟩

lemma size_physicalWatches (hw : ∀ w ∈ watches, 0 < w.2) :
    ∀ part ∈ physicalWatches pages watches, 0 < part.2 := by
  apply size_merge
  intro part hpart
  rw [(sort_perm _).mem_iff] at hpart
  obtain ⟨w, hmem, hpart⟩ := mem_flatMap.mp hpart
  exact size_watchParts hal (hw w hmem) part hpart

omit hal

/-- The physical ranges are those of the space and generation they are kept for. -/
structure Cached (w : WriteWatches) (space : Nat → AddressSpace) : Prop where
  positive : ∀ part ∈ w.watches, 0 < part.2
  generation : ∀ j, w.space = some j → w.generation ≤ (space j).generation
  physical : ∀ j, w.space = some j → w.generation = (space j).generation →
    w.physical = physicalWatches (space j).pages w.watches

variable {w : WriteWatches} {space : Nat → AddressSpace}

variable (h : w.Cached space)
include h

lemma Cached.refresh (bound : Nat) : (w.refresh bound (space bound)).Cached space := by
  unfold WriteWatches.refresh
  split
  · exact h
  · refine ⟨h.positive, ?_, ?_⟩
    · intro j hj
      rw [Option.some.injEq] at hj
      rw [← hj]
    · intro j hj _
      rw [Option.some.injEq] at hj
      rw [← hj]

lemma Cached.writeWatched (bound physical size : Nat) :
    (w.writeWatched bound (space bound) physical size).2.Cached space := by
  unfold WriteWatches.writeWatched
  split
  · exact h
  · exact h.refresh bound

lemma Cached.setWriteWatches (hw : ∀ part ∈ watches, 0 < part.2) :
    (w.setWriteWatches watches).Cached space := by
  unfold WriteWatches.setWriteWatches
  split
  · exact h
  · exact ⟨hw, (fun j hj => by cases hj), fun j hj => by cases hj⟩

lemma Cached.change {space' : Nat → AddressSpace}
    (hspace : ∀ j, space' j = space j ∨ (space j).generation < (space' j).generation) :
    w.Cached space' := by
  refine ⟨h.positive, ?_, ?_⟩
  · intro j hj
    have hle := h.generation j hj
    rcases hspace j with heq | hlt
    · rw [heq]
      exact hle
    · omega
  · intro j hj hgeneration
    have hle := h.generation j hj
    rcases hspace j with heq | hlt
    · rw [heq] at hgeneration ⊢
      exact h.physical j hj hgeneration
    · -- The generation that is kept is older than the new one.
      omega

lemma physical_refresh (bound : Nat) :
    (w.refresh bound (space bound)).physical = physicalWatches (space bound).pages w.watches := by
  unfold WriteWatches.refresh
  split
  next hkept => exact h.physical bound hkept.1 hkept.2
  · rfl

theorem writeWatched_iff {bound : Nat} (hal : AlignedKeys (space bound).pages)
    (physical size : Nat) : (w.writeWatched bound (space bound) physical size).1 = true ↔
      ∃ q, physical ≤ q ∧ q < physical + size ∧ Watches (space bound).pages w.watches q := by
  unfold WriteWatches.writeWatched
  split
  next hnone =>
    rw [show (false, w).1 = false from rfl, Bool.false_eq_true, false_iff]
    rintro ⟨q, hlow, hhigh, v, ⟨part, hpart, -⟩, -⟩
    rcases hnone with hzero | hempty
    · omega
    · rw [List.isEmpty_iff.mp hempty] at hpart
      cases hpart
  next hsome =>
    rw [not_or] at hsome
    rw [physical_refresh h bound]
    have hspaced : (physicalWatches (space bound).pages w.watches).Pairwise Spaced :=
      spaced_merge (sort_ordered _)
    rw [hits_iff hspaced (size_physicalWatches hal h.positive) (Nat.pos_of_ne_zero hsome.1)]
    simp only [covered_physicalWatches hal h.positive]

end WriteWatches

namespace MemorySystem

structure Orderly (s : MemorySystem) : Prop where
  pages : ∀ j, AlignedKeys (s.space j).pages
  pending : ∀ e, s.pending = some e → AlignedKeys e.2.pages
  views : ∀ v ∈ s.views, FullSlices v
  cached : s.writeWatches.Cached s.space

variable {s : MemorySystem}

namespace Orderly

lemma start (ram : PhysicalMemory) : (MemorySystem.start ram).Orderly := by
  refine ⟨fun _ => .empty, (fun e he => by cases he), forall_mem_nil _, ?_⟩
  exact ⟨forall_mem_nil _, (fun j hj => by cases hj), fun j hj => by cases hj⟩

lemma machine (h : s.Orderly) (index : Nat) : (s.machine index).Orderly := by
  refine ⟨h.pages index, ?_, h.views⟩
  intro t ht
  obtain ⟨e, he, hentry⟩ := Option.bind_eq_some_iff.mp ht
  split at hentry
  · cases hentry
    exact h.pending e he
  · cases hentry

lemma space_set (hindex : index < s.spaces.length) (space : AddressSpace) (j : Nat) :
    (s.spaces.set index space).getD j { limit := 0 } = if j = index then space else s.space j := by
  unfold MemorySystem.space
  rw [getD_eq_getElem?_getD, getD_eq_getElem?_getD]
  split
  next hj =>
    rw [hj, getElem?_set_self hindex]
    rfl
  next hj => rw [getElem?_set_ne (Ne.symm hj)]

variable (h : s.Orderly)
include h

lemma client (index : Nat) (op : Operation) : (s.client index op).Orderly := by
  unfold MemorySystem.client
  split
  · exact h
  rename_i hin
  have hindex := not_le.mp hin
  obtain ⟨hnext, hspace⟩ := (h.machine index).perform op
  dsimp only
  generalize ((s.machine index).perform op).2 = next at hnext hspace
  refine ⟨?_, ?_, hnext.views, ?_⟩
  · intro j
    show AlignedKeys ((s.spaces.set index next.space).getD j { limit := 0 }).pages
    rw [space_set hindex]
    split
    · exact hnext.pages
    · exact h.pages j
  · intro e he
    unfold stillPending at he
    split at he
    next t ht =>
      cases he
      exact hnext.pending t ht
    · obtain ⟨e', he', hentry⟩ := Option.bind_eq_some_iff.mp he
      split at hentry
      · cases hentry
      · cases hentry
        exact h.pending e he'
  · apply h.cached.change
    intro j
    show (s.spaces.set index next.space).getD j { limit := 0 } = s.space j ∨
      _ < ((s.spaces.set index next.space).getD j { limit := 0 }).generation
    rw [space_set hindex]
    split
    next hj =>
      rw [hj]
      rcases hspace with heq | hgeneration
      · exact .inl heq
      · rw [hgeneration]
        exact .inr (lt_succ_self _)
    · exact .inl rfl

lemma createSpace {limit : Nat} {space : AddressSpace}
    (hcreate : AddressSpace.create limit = .ok space) :
    Orderly { s with spaces := s.spaces ++ [space] } := by
  have hnew : space = { limit := limit } := by
    unfold AddressSpace.create at hcreate
    split at hcreate
    · cases hcreate
    · cases hcreate
      rfl
  -- The new space has the pages and the generation that an absent one is read with.
  have hspace : ∀ j, (MemorySystem.space { s with spaces := s.spaces ++ [space] } j).pages =
      (s.space j).pages ∧
      (MemorySystem.space { s with spaces := s.spaces ++ [space] } j).generation =
        (s.space j).generation := by
    intro j
    unfold MemorySystem.space
    rw [getD_eq_getElem?_getD, getD_eq_getElem?_getD]
    rcases lt_or_ge j s.spaces.length with hlt | hge
    · rw [getElem?_append_left hlt]
      exact ⟨rfl, rfl⟩
    · rw [getElem?_append_right hge, getElem?_eq_none hge, getElem?_singleton]
      split
      · rw [hnew]
        exact ⟨rfl, rfl⟩
      · exact ⟨rfl, rfl⟩
  refine ⟨?_, h.pending, h.views, h.cached.positive, ?_, ?_⟩
  · intro j
    rw [(hspace j).1]
    exact h.pages j
  · intro j hj
    rw [(hspace j).2]
    exact h.cached.generation j hj
  · intro j hj hgeneration
    rw [(hspace j).2] at hgeneration
    rw [(hspace j).1]
    exact h.cached.physical j hj hgeneration

lemma recordRAMWrite (part : Interval) : (s.recordRAMWrite part).Orderly :=
  ⟨h.pages, h.pending, h.views, h.cached.writeWatched s.bound part.1 part.2⟩

lemma commitSlices (slices : List RAMSlice) : (slices.foldl commitSlice s).Orderly := by
  induction slices generalizing s with
  | nil => exact h
  | cons slice rest ih =>
    have hwrite := h.recordRAMWrite slice.extent
    exact ih ⟨hwrite.pages, hwrite.pending, hwrite.views, hwrite.cached⟩

lemma stepTransaction (index : Nat) (step : TransactionStep) :
    (s.stepTransaction index step).Orderly := by
  unfold MemorySystem.stepTransaction
  split
  · exact h
  rename_i t ht
  dsimp only
  generalize hnext : ({ s with
    ram := { s.ram with bytes := fun p =>
      (TransactionSession.step ⟨s.memory, t⟩ step).2.memory (projectionReserve + p) }
    transactions :=
      s.transactions.set index (TransactionSession.step ⟨s.memory, t⟩ step).2.transaction } :
      MemorySystem) = next
  have horderly : next.Orderly := by
    rw [← hnext]
    exact ⟨h.pages, h.pending, h.views, h.cached⟩
  clear hnext
  cases step with
  | commit =>
    dsimp only
    split
    · exact horderly.commitSlices t.slices
    · exact horderly
  | _ => exact horderly

omit h

lemma step (h : s.Orderly) (op : SystemOperation) : (s.step op).Orderly := by
  cases op with
  | createSpace limit =>
    unfold MemorySystem.step
    dsimp only
    split
    · exact h
    next hcreate => exact h.createSpace hcreate
  | bind index =>
    unfold MemorySystem.step
    dsimp only
    split
    · exact h
    · exact ⟨h.pages, h.pending, h.views, h.cached⟩
  | client index op => exact h.client index op
  | destroyRegion region => exact ⟨h.pages, h.pending, h.views, h.cached⟩
  | setWriteWatches watches =>
    unfold MemorySystem.step
    dsimp only
    split
    · exact h
    next hvalid =>
      rw [not_or] at hvalid
      refine ⟨h.pages, h.pending, h.views, h.cached.setWriteWatches ?_⟩
      intro part hpart
      apply Nat.pos_of_ne_zero
      intro hzero
      apply hvalid.2
      rw [any_eq_true]
      exact ⟨part, hpart, decide_eq_true (.inl hzero)⟩
  | writeWatched physical size =>
    exact ⟨h.pages, h.pending, h.views, h.cached.writeWatched s.bound physical size⟩
  | reserveRAM address size granule =>
    show (s.reserveRAM address size granule).Orderly
    unfold MemorySystem.reserveRAM
    split
    · exact h
    · split
      · exact ⟨h.pages, h.pending, h.views, h.cached⟩
      · exact h
  | watchWrites view =>
    show (s.watchWrites (s.views.getD view {})).Orderly
    unfold MemorySystem.watchWrites
    split
    · exact h
    · exact ⟨h.pages, h.pending, h.views, h.cached⟩
  | watchInitialization view =>
    show (s.watchInitialization (s.views.getD view {})).Orderly
    unfold MemorySystem.watchInitialization
    split
    · exact h
    · exact ⟨h.pages, h.pending, h.views, h.cached⟩
  | dropReservation index => exact ⟨h.pages, h.pending, h.views, h.cached⟩
  | dropWatch index => exact ⟨h.pages, h.pending, h.views, h.cached⟩
  | beginRun =>
    unfold MemorySystem.step
    dsimp only
    split
    · exact h
    · exact ⟨h.pages, h.pending, h.views, h.cached⟩
  | endRun =>
    unfold MemorySystem.step
    dsimp only
    split
    · exact ⟨h.pages, h.pending, h.views, h.cached⟩
    · exact h
  | beginTransaction writes byteBudget permissions =>
    unfold MemorySystem.step
    dsimp only
    split
    · exact h
    · exact ⟨h.pages, h.pending, h.views, h.cached⟩
  | transaction index step => exact h.stepTransaction index step
  | endTransaction index =>
    unfold MemorySystem.step
    dsimp only
    split
    · exact h
    · exact ⟨h.pages, h.pending, h.views, h.cached⟩

lemma run (h : s.Orderly) (ops : List SystemOperation) : (s.run ops).Orderly := by
  induction ops generalizing s with
  | nil => exact h
  | cons op rest ih => exact ih (h.step op)

end Orderly

variable {op : SystemOperation}

lemma reserved_step (h : s.Orderly) {r : RAMReservation}
    (hindex : s.monitors.reservations.length ≤ index)
    (hr : (s.step op).monitors.reservations[index]? = some r) : Fresh r ∧ 0 < r.granuleSize := by
  have hstep := s.step_monitored op
  generalize (s.step op).monitors = m at hstep hr
  cases hstep with
  | reserved _ hmore hsize =>
    rw [getElem?_append_right hindex] at hr
    have hmem := mem_of_getElem? hr
    exact ⟨hmore r hmem, hsize h.views r hmem⟩
  | wrote _ _ hreservations _ =>
    rw [hreservations, getElem?_map, getElem?_eq_none hindex] at hr
    cases hr
  | droppedReservation =>
    rw [getElem?_eq_none (by rw [length_modify]; exact hindex)] at hr
    cases hr
  | _ =>
    rw [getElem?_eq_none hindex] at hr
    cases hr

lemma watched_step {w : RAMInitializationWatch}
    (hindex : s.monitors.watches.length ≤ index)
    (hw : (s.step op).monitors.watches[index]? = some w) : Blank w := by
  have hstep := s.step_monitored op
  generalize (s.step op).monitors = m at hstep hw
  cases hstep with
  | watched _ hmore =>
    rw [getElem?_append_right hindex] at hw
    exact hmore w (mem_of_getElem? hw)
  | wrote _ _ _ hwatches =>
    rw [hwatches, getElem?_map, getElem?_eq_none hindex] at hw
    cases hw
  | droppedWatch =>
    rw [getElem?_eq_none (by rw [length_modify]; exact hindex)] at hw
    cases hw
  | _ =>
    rw [getElem?_eq_none hindex] at hw
    cases hw

/-- A write is watched just when it meets a watched byte under the current mapping. -/
theorem watched_exact (h : s.Orderly) (physical size : Nat) :
    (s.writeWatches.writeWatched s.bound (s.space s.bound) physical size).1 = true ↔
      ∃ q, physical ≤ q ∧ q < physical + size ∧
        WriteWatches.Watches (s.space s.bound).pages s.writeWatches.watches q :=
  WriteWatches.writeWatched_iff h.cached (h.pages s.bound) physical size

theorem reservation_exact (h : s.Orderly) {r : RAMReservation}
    (hindex : s.monitors.reservations.length ≤ index)
    (hr : (s.step op).monitors.reservations[index]? = some r) (after : List SystemOperation) :
    ∃ r', ((s.step op).run after).monitors.reservations[index]? = some r' ∧ r'.extent = r.extent ∧
      (r'.alive = true → (r'.valid = true ↔ (s.step op).Untouched after r.extent)) := by
  obtain ⟨hfresh, hsize⟩ := reserved_step h hindex hr
  obtain ⟨r', hr', hextent, hvalid⟩ := run_reservation hr hsize (fun _ _ => hfresh.registered) after
  refine ⟨r', hr', hextent, fun hal => ?_⟩
  rw [(hvalid hal).2, and_iff_right hfresh.valid]

/-- A byte is initialized just when it is written, where the commits of mapping transactions add
none. -/
theorem initialization_exact {w : RAMInitializationWatch}
    (hindex : s.monitors.watches.length ≤ index)
    (hw : (s.step op).monitors.watches[index]? = some w)
    {after : List SystemOperation} (hskips : SkipsWatch index (s.step op) after) :
    ∃ w', ((s.step op).run after).monitors.watches[index]? = some w' ∧ w'.bytes = w.bytes ∧
      (w'.alive = true → ∀ i, w'.initialized i = true ↔ i < w.bytes.size ∧
        ∃ t, w.bytes.targets[i]? = some t ∧ (s.step op).Touched after (projectionReserve + t)) := by
  have hblank := watched_step hindex hw
  obtain ⟨w', hw', hbytes, hflags⟩ := run_watch hw hblank.parts hskips
  refine ⟨w', hw', hbytes, ?_⟩
  intro hal i
  unfold RAMInitializationWatch.initialized
  rw [Bool.and_eq_true, decide_eq_true_iff, hbytes, (hflags hal).2 i, or_iff_right]
  rw [hblank.flags i]
  exact Bool.false_ne_true

/-- At the end of every run, a reservation is valid just when none of its bytes was written since it
was taken, and a flag is set just when its byte was written since the watch was made, unless a
mapping transaction wrote it first. -/
theorem monitors_exact (ram : PhysicalMemory) (ops : List SystemOperation) : (∀ physical size,
      (((start ram).run ops).writeWatches.writeWatched ((start ram).run ops).bound
          (((start ram).run ops).space ((start ram).run ops).bound) physical size).1 = true ↔
        ∃ q, physical ≤ q ∧ q < physical + size ∧
          WriteWatches.Watches (((start ram).run ops).space ((start ram).run ops).bound).pages
            ((start ram).run ops).writeWatches.watches q) ∧ ∀ before op after,
              ops = before ++ op :: after →
        (∀ index r, ((start ram).run before).monitors.reservations.length ≤ index →
          (((start ram).run before).step op).monitors.reservations[index]? = some r →
          ∃ r', ((start ram).run ops).monitors.reservations[index]? = some r' ∧
            r'.extent = r.extent ∧
            (r'.alive = true → (r'.valid = true ↔
            (((start ram).run before).step op).Untouched after r.extent))) ∧
        ∀ index w, ((start ram).run before).monitors.watches.length ≤ index →
          (((start ram).run before).step op).monitors.watches[index]? = some w →
          SkipsWatch index (((start ram).run before).step op) after →
          ∃ w', ((start ram).run ops).monitors.watches[index]? = some w' ∧ w'.bytes = w.bytes ∧
            (w'.alive = true → ∀ i, w'.initialized i = true ↔ i < w.bytes.size ∧
                ∃ t, w.bytes.targets[i]? = some t ∧
                (((start ram).run before).step op).Touched after (projectionReserve + t)) := by
  have horderly : ∀ run, ((start ram).run run).Orderly := (Orderly.start ram).run
  refine ⟨watched_exact (horderly ops), ?_⟩
  intro before op after hsplit
  have hrun : (start ram).run ops = (((start ram).run before).step op).run after := by
    unfold run
    rw [hsplit, foldl_append, foldl_cons]
  rw [hrun]
  constructor
  · exact fun index r hindex hr => reservation_exact (horderly before) hindex hr after
  · exact fun index w hindex hw hskips => initialization_exact hindex hw hskips

def onePage : List SystemOperation :=
  [.createSpace 65536, .client 0 (.map 0 4096 (permissionRead ||| permissionWrite)),
    .client 0 (.pinBacking 0 4096)]

def smallRAM : PhysicalMemory := { identity := 1, limit := 65536, free := [(0, 65536)] }

theorem monitors_exact_page :
        (∃ r', ((start smallRAM).run (onePage ++ [.watchWrites 0, .watchInitialization 0,
        .client 0 (.write 1 [0])])).monitors.reservations[0]? = some r' ∧
        r'.extent = (projectionReserve, 4096) ∧
        (r'.alive = true → (r'.valid = true ↔
          (((start smallRAM).run onePage).step (.watchWrites 0)).Untouched
          [.watchInitialization 0, .client 0 (.write 1 [0])] (projectionReserve, 4096)))) ∧
      ∃ w', ((start smallRAM).run (onePage ++ [.watchWrites 0, .watchInitialization 0,
        .client 0 (.write 1 [0])])).monitors.watches[0]? = some w' ∧ w'.bytes.size = 4096 ∧
        (w'.alive = true → (w'.initialized 1 = true ↔
          ((start smallRAM).run (onePage ++ [.watchWrites 0,
          .watchInitialization 0])).Touched [.client 0 (.write 1 [0])]
          (projectionReserve + 1))) := by
  have hexact := (monitors_exact smallRAM (onePage ++ [.watchWrites 0, .watchInitialization 0,
    .client 0 (.write 1 [0])])).2
  constructor
  · exact (hexact onePage (.watchWrites 0) [.watchInitialization 0, .client 0 (.write 1 [0])] rfl).1
      0 _ (by decide) rfl
  · obtain ⟨w', hw', hbytes, hflags⟩ :=
      (hexact (onePage ++ [.watchWrites 0]) (.watchInitialization 0)
      [.client 0 (.write 1 [0])] rfl).2 0 _ (by decide) rfl ⟨(fun j hj => by cases hj), trivial⟩
    refine ⟨w', hw', by rw [hbytes]; rfl, fun hal => ?_⟩
    rw [hflags hal 1]
    constructor
    · rintro ⟨-, t, ht, htouched⟩
      cases ht
      exact htouched
    · exact fun htouched => ⟨by decide, 1, rfl, htouched⟩

/-- A mapping transaction writes a byte, and its flag stays unset. -/
theorem commit_marks_nothing :
    (∃ w', ((start smallRAM).run
        (onePage ++ [.watchInitialization 0, .client 0 (.prepareMappings [] [⟨0, [7]⟩]),
        .client 0 .commit])).monitors.watches[0]? = some w' ∧ w'.alive = true ∧
        w'.initialized 0 = false ∧
        w'.bytes.targets[0]? = some 0) ∧
        (((start smallRAM).run onePage).step (.watchInitialization 0)).Touched
        [.client 0 (.prepareMappings [] [⟨0, [7]⟩]), .client 0 .commit]
          (projectionReserve + 0) := by
  constructor
  · exact ⟨_, rfl, rfl, rfl, rfl⟩
  · refine Or.inr (Or.inl ⟨by decide, ⟨projectionReserve, [7]⟩, ?_, le_rfl, lt_succ_self _⟩)
    exact mem_singleton.mpr rfl

end MemorySystem

end NeverD.Emulation
