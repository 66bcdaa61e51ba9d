import NeverD.Emulation.Mappings

namespace NeverD.Emulation
open Lib List

variable {pages : Table Page} {ram : PhysicalMemory} {address : Nat} {space' : AddressSpace}

variable {live : MemoryRegion → Prop} {space : AddressSpace}

def SamePages (pages pages' : Table Page) : Prop :=
  pages'.size = pages.size ∧ ∀ a, (pages'.find a).map (fun p => (p.physical, p.region, p.io)) =
    (pages.find a).map fun p => (p.physical, p.region, p.io)

lemma SamePages.find {pages' : Table Page} (h : SamePages pages pages') {a : Nat} {page : Page}
    (hf : pages'.find a = some page) : ∃ page', pages.find a = some page' ∧
      page.physical = page'.physical ∧ page.region = page'.region ∧ page.io = page'.io := by
  have ha := h.2 a
  rw [hf, Option.map_some] at ha
  obtain ⟨page', hf', heq⟩ := Option.map_eq_some_iff.mp ha.symm
  simp only [Prod.mk.injEq] at heq
  exact ⟨page', hf', heq.1.symm, heq.2.1.symm, heq.2.2.symm⟩

lemma SamePages.symm {pages' : Table Page} (h : SamePages pages pages') : SamePages pages' pages :=
  ⟨h.1.symm, fun a => (h.2 a).symm⟩

lemma SpaceOk.same (h : SpaceOk live space) (hs : SamePages space.pages pages) :
    SpaceOk live { space with pages := pages } := by
  have hio : ∀ {a page}, space.pages.find a = some page → ∃ page', pages.find a = some page' ∧
      page'.io = page.io := by
    intro a page hf
    obtain ⟨page', hf', -, -, heq⟩ := hs.symm.find hf
    exact ⟨page', hf', heq.symm⟩
  refine ⟨?_, h.limit, ?_, ?_, ?_, ?_, h.deviceKeys, ?_, h.aliases⟩
  · rw [hs.1, h.used]
  · intro a page hf
    obtain ⟨page', hf', -⟩ := hs.find hf
    exact h.pages a page' hf'
  · intro a page hf hnone
    obtain ⟨page', hf', h1, h2, h3⟩ := hs.find hf
    obtain ⟨r, hb, hl⟩ := h.memory a page' hf' (h3 ▸ hnone)
    refine ⟨r, ?_, hl⟩
    unfold Page.Backed at hb ⊢
    rw [h1, h2, h3]
    exact hb
  · intro a page d hf hd
    obtain ⟨page', hf', -, h2, h3⟩ := hs.find hf
    rw [h2]
    exact h.device a page' d hf' (h3 ▸ hd)
  · intro e he
    obtain ⟨h1, h2, h3⟩ := h.devices e he
    refine ⟨h1, h2, fun a ha => ?_⟩
    obtain ⟨page, hf, hd⟩ := h3 a ha
    obtain ⟨page', hf', heq⟩ := hio hf
    exact ⟨page', hf', heq.trans hd⟩
  · intro e he
    obtain ⟨h1, h2⟩ := h.aliasPages e he
    refine ⟨h1, fun a ha => ?_⟩
    obtain ⟨page, hf, hd⟩ := h2 a ha
    obtain ⟨page', hf', heq⟩ := hio hf
    exact ⟨page', hf', heq.trans hd⟩

lemma samePages_protect (permissions : Permissions) (as : List Nat) (pages : Table Page) :
    SamePages pages (as.foldl (fun pages a => match pages.find a with
      | some page => pages.insert a { page with permissions := permissions }
      | none => pages) pages) := by
  induction as generalizing pages with
  | nil => exact ⟨rfl, fun _ => rfl⟩
  | cons a as ih =>
    rw [foldl_cons]
    cases hf : pages.find a with
    | none => exact ih pages
    | some page =>
      obtain ⟨h1, h2⟩ := ih (pages.insert a { page with permissions := permissions })
      refine ⟨h1.trans (pages.size_insert_of_mem _ (by rw [hf]; rfl)), ?_⟩
      intro b
      rw [h2 b, Table.find_insert]
      split
      next hb =>
        rw [hb, hf]
        rfl
      · rfl

variable (h : SpaceOk live space)
include h

lemma SpaceOk.protect {size : Nat} {permissions : Permissions}
    (hop : space.protect ram address size permissions = .ok space') : SpaceOk live space' := by
  unfold AddressSpace.protect at hop
  split at hop
  · cases hop
  split at hop
  · cases hop
  split at hop
  · cases hop
  cases hop
  exact (h.same (samePages_protect permissions _ _)).generation _

lemma SpaceOk.mapMmio {size : Nat} {callbacks : AddressSpace.GuestMMIOCallbacks}
    (hop : space.mapMmio ram address size callbacks = .ok space') : SpaceOk live space' := by
  unfold AddressSpace.mapMmio at hop
  split at hop
  · cases hop
  split at hop
  · cases hop
  rename_i hvalid
  split at hop
  · cases hop
  split at hop
  · cases hop
  rename_i hfit
  split at hop
  · cases hop
  rename_i hany
  cases hop
  have hal := aligned_of_valid (not_not.mp hvalid)
  have hfree := unmapped_of_any hany
  -- The device's first page was not there, so that it has a new key.
  have hkey : space.devices.any (·.1 = address) = false := by
    rw [Bool.eq_false_iff]
    intro hex
    obtain ⟨e, he, heq⟩ := any_eq_true.mp hex
    obtain ⟨h1, h2, h3⟩ := h.devices e he
    have hbase : e.2.address ∈ pageAddresses e.2.address e.2.size :=
      h2.mem_pageAddresses.mpr ⟨h2.start, le_rfl, Nat.lt_add_of_pos_right h2.positive⟩
    obtain ⟨page, hf, -⟩ := h3 _ hbase
    rw [← h1, of_decide_eq_true heq, hfree address (hal.mem_pageAddresses.mpr
      ⟨hal.start, le_rfl, Nat.lt_add_of_pos_right hal.positive⟩)] at hf
    cases hf
  have hdevices : emplace space.devices address ⟨address, size⟩ = space.devices ++
      [(address, ⟨address, size⟩)] := by
    unfold emplace
    rw [hkey]
    rfl
  rw [hdevices]
  generalize hpage : (fun a :
    Nat => (a, (⟨0, permissionRead ||| permissionWrite, none, some ⟨address, size⟩⟩ : Page))) = f
  have hkeys : ((pageAddresses address size).map f).map Prod.fst = pageAddresses address size := by
    rw [map_map, ← hpage]
    exact map_id _
  have hnodup : (((pageAddresses address size).map f).map Prod.fst).Nodup := by
    rw [hkeys]
    exact nodup_pageAddresses address size
  have hnew : ∀ a ∈ pageAddresses address size,
      (space.pages.insertAll ((pageAddresses address size).map f)).find a =
      some ⟨0, permissionRead ||| permissionWrite, none, some ⟨address, size⟩⟩ := by
    intro a ha
    have := Table.find_insertAll_of_mem space.pages hnodup (mem_map_of_mem (f := f) ha)
    rw [← hpage] at this ⊢
    exact this
  have hold : ∀ a, a ∉ pageAddresses address size →
      (space.pages.insertAll ((pageAddresses address size).map f)).find a = space.pages.find a := by
    intro a ha
    apply Table.find_insertAll_of_notMem
    rw [hkeys]
    exact ha
  have hkeep : ∀ {a page}, space.pages.find a = some page →
      (space.pages.insertAll ((pageAddresses address size).map f)).find a = some page := by
    intro a page hf
    rw [hold a, hf]
    intro ha
    rw [hfree a ha] at hf
    cases hf
  have hsize : (space.pages.insertAll ((pageAddresses address size).map f)).size =
      space.pages.size + (pageAddresses address size).length := by
    rw [Table.size_insertAll _ hnodup, length_map]
    intro e he
    have hmem : e.1 ∈ pageAddresses address size := hkeys ▸ mem_map_of_mem he
    exact hfree e.1 hmem
  generalize space.pages.insertAll ((pageAddresses address size).map f) =
    pages at hnew hold hkeep hsize
  have hlimit := h.limit
  refine ⟨?_, ?_, ?_, ?_, ?_, ?_, ?_, ?_, h.aliases⟩
  · rw [hsize, mul_add, hal.length_pageAddresses, h.used]
  · show space.used + size ≤ space.limit
    omega
  · intro a page hf
    by_cases ha : a ∈ pageAddresses address size
    · obtain ⟨hmod, hlow, hhigh⟩ := hal.mem_pageAddresses.mp ha
      have := hal.bounded
      unfold pageSize at *
      omega
    · exact h.pages a page (hold a ha ▸ hf)
  · intro a page hf hio
    by_cases ha : a ∈ pageAddresses address size
    · have heq : some page = _ := hf.symm.trans (hnew a ha)
      cases heq
      cases hio
    · exact h.memory a page (hold a ha ▸ hf) hio
  · intro a page d hf hio
    by_cases ha : a ∈ pageAddresses address size
    · have heq : some page = _ := hf.symm.trans (hnew a ha)
      cases heq
      cases hio
      exact ⟨rfl, mem_append_right _ mem_cons_self, ha⟩
    · obtain ⟨h1, h2, h3⟩ := h.device a page d (hold a ha ▸ hf) hio
      exact ⟨h1, mem_append_left _ h2, h3⟩
  · intro e he
    rcases mem_append.mp he with he | he
    · obtain ⟨h1, h2, h3⟩ := h.devices e he
      refine ⟨h1, h2, fun a ha => ?_⟩
      obtain ⟨page, hf, hd⟩ := h3 a ha
      exact ⟨page, hkeep hf, hd⟩
    · rw [mem_singleton.mp he]
      exact ⟨rfl, hal, fun a ha => ⟨_, hnew a ha, rfl⟩⟩
  · rw [map_append]
    refine List.Nodup.append h.deviceKeys (nodup_singleton _) ?_
    intro x hx hx'
    obtain ⟨e, he, rfl⟩ := mem_map.mp hx
    have heq : e.1 = address := mem_singleton.mp hx'
    rw [any_eq_false] at hkey
    exact hkey e he (decide_eq_true heq)
  · intro e he
    obtain ⟨h1, h2⟩ := h.aliasPages e he
    refine ⟨h1, fun a ha => ?_⟩
    obtain ⟨page, hf, hd⟩ := h2 a ha
    exact ⟨page, hkeep hf, hd⟩

lemma SpaceOk.unmapMmio {size : Nat} (hop : space.unmapMmio ram address size = .ok space') :
    SpaceOk live space' := by
  unfold AddressSpace.unmapMmio at hop
  split at hop
  · cases hop
  split at hop
  · cases hop
  rename_i d hlookup
  split at hop
  · cases hop
  rename_i hsz
  cases hop
  have hsize : d.size = size := not_not.mp hsz
  have hmem := lookup_mem_entries hlookup
  obtain ⟨haddr, hal, hpages⟩ := h.devices _ hmem
  rw [← haddr, hsize] at hal hpages
  have hpermK := (perm_cons_erase hmem).map Prod.fst
  have hkeys := nodup_cons.mp (hpermK.nodup_iff.mp h.deviceKeys)
  -- A page of another device is not one of this device's.
  have hother : ∀ e ∈ space.devices.erase (address, d), e.2 ≠ d := by
    intro e he heq
    apply hkeys.1
    have hkey := (h.devices e (mem_of_mem_erase he)).1
    rw [heq, ← haddr] at hkey
    have hfst : e.1 ∈ (space.devices.erase (address, d)).map Prod.fst := mem_map_of_mem he
    rwa [hkey] at hfst
  have hcount := space.pages.size_eraseAll (nodup_pageAddresses address size) fun a ha => by
    obtain ⟨page, hf, -⟩ := hpages a ha
    rw [hf]
    rfl
  have hused : space.used = pageSize * (space.pages.eraseAll (pageAddresses address size)).size +
      size := by
    rw [h.used, ← hcount, mul_add, hal.length_pageAddresses]
  have hback : ∀ {a page}, (space.pages.eraseAll (pageAddresses address size)).find a = some page →
      a ∉ pageAddresses address size ∧ space.pages.find a = some page := by
    intro a page hf
    rw [Table.find_eraseAll] at hf
    split at hf
    · cases hf
    next ha => exact ⟨ha, hf⟩
  have hkeep : ∀ {a page}, space.pages.find a = some page → page.io ≠ some d →
      (space.pages.eraseAll (pageAddresses address size)).find a = some page := by
    intro a page hf hio
    rw [Table.find_eraseAll, if_neg, hf]
    intro ha
    obtain ⟨page', hf', hio'⟩ := hpages a ha
    have heq : some page = some page' := hf.symm.trans hf'
    cases heq
    exact hio hio'
  have hlimit := h.limit
  refine ⟨?_, ?_, ?_, ?_, ?_, ?_, hkeys.2, ?_, h.aliases⟩
  · show space.used - size = pageSize * (space.pages.eraseAll (pageAddresses address size)).size
    omega
  · show space.used - size ≤ space.limit
    omega
  · exact fun a page hf => h.pages a page (hback hf).2
  · exact fun a page hf hio => h.memory a page (hback hf).2 hio
  · intro a page d' hf hio
    obtain ⟨ha, hf'⟩ := hback hf
    obtain ⟨h1, h2, h3⟩ := h.device a page d' hf' hio
    refine ⟨h1, ?_, h3⟩
    have hne : (d'.address, d') ≠ (address, d) := by
      intro heq
      rw [Prod.mk.injEq] at heq
      rw [heq.1, heq.2, hsize] at h3
      exact ha h3
    exact (mem_erase_of_ne hne).mpr h2
  · intro e he
    obtain ⟨h1, h2, h3⟩ := h.devices e (mem_of_mem_erase he)
    refine ⟨h1, h2, fun a ha => ?_⟩
    obtain ⟨page, hf, hd⟩ := h3 a ha
    refine ⟨page, hkeep hf ?_, hd⟩
    rw [hd]
    intro heq
    exact hother e he (Option.some.inj heq)
  · intro e he
    obtain ⟨h1, h2⟩ := h.aliasPages e he
    refine ⟨h1, fun a ha => ?_⟩
    obtain ⟨page, hf, hd⟩ := h2 a ha
    refine ⟨page, hkeep hf ?_, hd⟩
    rw [hd]
    exact fun heq => (nomatch heq)

omit h

end NeverD.Emulation
