import NeverD.Emulation.Ranges

namespace NeverD.Emulation
open Lib List AddressSpace MappingTransaction

variable {next next' : Table Page} {ram' : PhysicalMemory}

def AlignedKeys (pages : Table Page) : Prop := ∀ a ∈ pages.keys, a % pageSize = 0

namespace AlignedKeys

variable {pages : Table Page}

lemma empty : AlignedKeys Table.empty := fun _ ha => absurd ha (Finset.notMem_empty _)

variable (h : AlignedKeys pages)
include h

lemma find {a : Nat} {page : Page} (hf : pages.find a = some page) : a % pageSize = 0 := by
  apply h
  rw [Table.mem_keys, hf]
  rfl

lemma insert {k : Nat} (hk : k % pageSize = 0) (page : Page) :
    AlignedKeys (pages.insert k page) := by
  intro a ha
  rcases Finset.mem_insert.mp ha with rfl | ha
  · exact hk
  · exact h a ha

lemma erase (k : Nat) : AlignedKeys (pages.erase k) :=
  fun a ha => h a (Finset.mem_of_mem_erase ha)

lemma insertAll {entries : List (Nat × Page)} (he : ∀ e ∈ entries, e.1 % pageSize = 0) :
    AlignedKeys (pages.insertAll entries) := by
  induction entries generalizing pages with
  | nil => exact h
  | cons e rest ih =>
    exact ih (h.insert (he e mem_cons_self) e.2) fun e' he' => he e' (mem_cons_of_mem _ he')

lemma eraseAll (ks : List Nat) : AlignedKeys (pages.eraseAll ks) := by
  induction ks generalizing pages with
  | nil => exact h
  | cons k rest ih => exact ih (h.erase k)

end AlignedKeys

lemma pageAddresses_aligned {address size : Nat} (h : address % pageSize = 0) :
    ∀ a ∈ pageAddresses address size, a % pageSize = 0 := by
  intro a ha
  obtain ⟨n, -, rfl⟩ := mem_map.mp ha
  rw [Nat.add_mul_mod_self_right, h]

/-- A new generation, with pages at multiples of the page size. -/
structure Edits (space space' : AddressSpace) : Prop where
  generation : space'.generation = space.generation + 1
  aligned : AlignedKeys space.pages → AlignedKeys space'.pages

section

variable {space space' : AddressSpace} {ram : PhysicalMemory} {address size : Nat}
    {permissions : Permissions}

lemma edits_mapRegion {region : Option MemoryRegion} {offset : Nat}
    (h : space.mapRegion ram address region offset size permissions = .ok space') :
    Edits space space' := by
  unfold mapRegion at h
  split at h
  · cases h
  split at h
  · cases h
  rename_i hvalid
  split at h
  · cases h
  split at h
  · cases h
  split at h
  · cases h
  split at h
  · cases h
  split at h
  · cases h
  cases h
  refine ⟨rfl, fun hal => hal.insertAll ?_⟩
  intro e he
  obtain ⟨a, ha, rfl⟩ := mem_map.mp he
  exact pageAddresses_aligned (aligned_of_valid (not_not.mp hvalid)).start a ha

lemma edits_map (h : space.map ram address size permissions = .ok (space', ram')) :
    Edits space space' := by
  unfold AddressSpace.map at h
  split at h
  · cases h
  split at h
  · cases h
  split at h
  · cases h
  split at h
  · cases h
  split at h
  · cases h
  split at h
  · cases h
  rename_i hmap
  cases h
  exact edits_mapRegion hmap

lemma edits_unmap (h : space.unmap ram address size = .ok space') : Edits space space' := by
  unfold unmap at h
  split at h
  · cases h
  split at h
  · cases h
  cases h
  exact ⟨rfl, fun hal => hal.eraseAll _⟩

lemma aligned_removeAliases {remove : List GuestAliasRange}
    (h : space.removeAliases remove = .ok space') (hal : AlignedKeys space.pages) :
    AlignedKeys space'.pages := by
  induction remove generalizing space with
  | nil =>
    cases h
    exact hal
  | cons r rest ih =>
    rw [removeAliases] at h
    split at h
    · cases h
    split at h
    · cases h
    · exact ih h (hal.eraseAll _)

lemma aligned_aliasPages {sources : Table Page} {r : GuestAliasMapping} {as : List Nat}
    (has : ∀ a ∈ as, a % pageSize = 0) (h : aliasPages sources r as next = .ok next')
    (hal : AlignedKeys next) : AlignedKeys next' := by
  induction as generalizing next with
  | nil =>
    cases h
    exact hal
  | cons a rest ih =>
    rw [aliasPages] at h
    split at h
    · cases h
    split at h
    · cases h
    · exact ih (fun b hb => has b (mem_cons_of_mem _ hb)) h (hal.insert (has a mem_cons_self) _)

lemma aligned_addAliases {sources : Table Page} {add : List GuestAliasMapping}
    (h : addAliases sources space add = .ok space') (hal : AlignedKeys space.pages) :
    AlignedKeys space'.pages := by
  induction add generalizing space with
  | nil =>
    cases h
    exact hal
  | cons r rest ih =>
    rw [addAliases] at h
    split at h
    · cases h
    rename_i hvalid
    split at h
    · cases h
    split at h
    · cases h
    rename_i pages hpages
    rw [not_or, not_not] at hvalid
    apply ih h
    exact aligned_aliasPages (pageAddresses_aligned (aligned_of_valid hvalid.1).start) hpages hal

lemma edits_replaceAliases {remove : List GuestAliasRange} {add : List GuestAliasMapping}
    (h : space.replaceAliases ram remove add = .ok space') : Edits space space' := by
  unfold replaceAliases at h
  split at h
  · cases h
  split at h
  · cases h
  rename_i hremove
  split at h
  · cases h
  rename_i hadd
  cases h
  refine ⟨rfl, fun hal => ?_⟩
  have hadded := aligned_addAliases hadd (aligned_removeAliases hremove hal)
  exact hadded

lemma edits_protect (h : space.protect ram address size permissions = .ok space') :
    Edits space space' := by
  unfold protect at h
  split at h
  · cases h
  split at h
  · cases h
  split at h
  · cases h
  cases h
  refine ⟨rfl, fun hal => ?_⟩
  generalize pageAddresses address size = as
  revert hal
  generalize space.pages = pages
  intro hal
  induction as generalizing pages with
  | nil => exact hal
  | cons a rest ih =>
    rw [foldl_cons]
    apply ih
    split
    next page hpage => exact hal.insert (hal.find hpage) _
    · exact hal

lemma edits_mapMmio {callbacks : GuestMMIOCallbacks}
    (h : space.mapMmio ram address size callbacks = .ok space') : Edits space space' := by
  unfold mapMmio at h
  split at h
  · cases h
  split at h
  · cases h
  rename_i hvalid
  split at h
  · cases h
  split at h
  · cases h
  split at h
  · cases h
  cases h
  refine ⟨rfl, fun hal => hal.insertAll ?_⟩
  intro e he
  obtain ⟨a, ha, rfl⟩ := mem_map.mp he
  exact pageAddresses_aligned (aligned_of_valid (not_not.mp hvalid)).start a ha

lemma edits_unmapMmio (h : space.unmapMmio ram address size = .ok space') : Edits space space' := by
  unfold unmapMmio at h
  split at h
  · cases h
  split at h
  · cases h
  split at h
  · cases h
  cases h
  exact ⟨rfl, fun hal => hal.eraseAll _⟩

end

lemma aligned_reservePages {as : List Nat} (has : ∀ a ∈ as, a % pageSize = 0)
    (h : reservePages next as = some next') (hal : AlignedKeys next) : AlignedKeys next' := by
  induction as generalizing next with
  | nil =>
    cases h
    exact hal
  | cons a rest ih =>
    rw [reservePages] at h
    split at h
    · cases h
    · exact ih (fun b hb => has b (mem_cons_of_mem _ hb)) h (hal.insert (has a mem_cons_self) _)

variable {mappings : List InitializedMapping}

lemma aligned_reserve {limit : Nat} {used used' : Nat}
    (h : reserve limit mappings next used = .ok (next', used')) (hal : AlignedKeys next) :
    AlignedKeys next' ∧ ∀ m ∈ mappings, m.address % pageSize = 0 := by
  induction mappings generalizing next used with
  | nil =>
    cases h
    exact ⟨hal, forall_mem_nil _⟩
  | cons m rest ih =>
    rw [reserve] at h
    split at h
    · cases h
    rename_i hvalid
    split at h
    · cases h
    split at h
    · cases h
    rename_i pages hpages
    have hstart := (aligned_of_valid (not_not.mp hvalid)).start
    obtain ⟨hnext, hrest⟩ := ih h (aligned_reservePages (pageAddresses_aligned hstart) hpages hal)
    exact ⟨hnext, forall_mem_cons.mpr ⟨hstart, hrest⟩⟩

lemma aligned_populate {ram : PhysicalMemory} (hm : ∀ m ∈ mappings, m.address % pageSize = 0)
    (h : populate mappings next ram = (.ok next', ram')) (hal : AlignedKeys next) :
    AlignedKeys next' := by
  induction mappings generalizing next ram with
  | nil =>
    cases h
    exact hal
  | cons m rest ih =>
    rw [populate] at h
    split at h
    · cases h
    rename_i region ram₁ halloc
    apply ih (fun m' hm' => hm m' (mem_cons_of_mem _ hm')) h
    apply hal.insertAll
    intro e he
    obtain ⟨a, ha, rfl⟩ := mem_map.mp he
    exact pageAddresses_aligned (hm m mem_cons_self) a ha

lemma aligned_prepare {space : AddressSpace} {ram : PhysicalMemory}
    {patches : List BackingPatch} {t : MappingTransaction}
    (h : prepare space ram mappings patches = (.ok t, ram')) (hal : AlignedKeys space.pages) :
    AlignedKeys t.pages := by
  unfold prepare at h
  split at h
  · cases h
  split at h
  · cases h
  split at h
  · cases h
  rename_i reserved used hreserve
  split at h
  · cases h
  rename_i next ram₁ hpopulate
  split at h
  · cases h
  split at h
  · cases h
  cases h
  obtain ⟨hreserved, hmappings⟩ := aligned_reserve hreserve hal
  exact aligned_populate hmappings hpopulate hreserved

def FullSlices (v : MemoryView) : Prop := ∀ s ∈ v.slices, 0 < s.size

lemma full_cut (slices : List MemorySlice) (offset length : Nat) :
    ∀ s ∈ MemoryView.cut slices offset length, 0 < s.size := by
  induction slices generalizing offset length with
  | nil => exact forall_mem_nil _
  | cons slice rest ih =>
    rw [MemoryView.cut]
    split
    · exact forall_mem_nil _
    split
    · exact ih _ _
    · refine forall_mem_cons.mpr ⟨?_, ih _ _⟩
      dsimp only
      omega

lemma full_concat {slices : List MemorySlice} {slice : MemorySlice} (h : ∀ s ∈ slices, 0 < s.size)
    (hs : 0 < slice.size) : ∀ s ∈ slices ++ [slice], 0 < s.size := by
  intro s hm
  rcases mem_append.mp hm with hm | hm
  · exact h s hm
  · rw [mem_singleton.mp hm]
    exact hs

lemma full_pinSlices {pages : Table Page} {fuel address n : Nat} {slices out : List MemorySlice}
    (h : pinSlices pages fuel address n slices = some out) (hs : ∀ s ∈ slices, 0 < s.size) :
    ∀ s ∈ out, 0 < s.size := by
  induction fuel generalizing address n slices with
  | zero =>
    cases n with
    | zero =>
      cases h
      exact hs
    | succ n => cases h
  | succ fuel ih =>
    cases n with
    | zero =>
      cases h
      exact hs
    | succ n =>
      rw [pinSlices] at h
      split at h
      · cases h
      split at h
      · cases h
      apply ih h
      have hoffset : address % pageSize < pageSize := Nat.mod_lt _ (by decide)
      split
      next last hlast =>
        have hpos := hs last (mem_of_getLast? hlast)
        split
        · apply full_concat fun s hm => hs s (dropLast_subset _ hm)
          dsimp only
          omega
        · apply full_concat hs
          dsimp only
          omega
      · intro s hm
        rw [mem_singleton.mp hm]
        dsimp only
        omega

end NeverD.Emulation
