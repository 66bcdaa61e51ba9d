import NeverD.Emulation.Patches

namespace NeverD.Emulation
open Lib List

/-- `staged` are the bytes that the pending transaction will write. -/
structure Machine.Sound (m : Machine) (staged : List (Nat × UInt8)) : Prop where
  ram : m.ram.Ok
  space : SpaceOk (· ∈ m.ram.regions) m.space
  views : ∀ v ∈ m.views, v.memory.isSome ∧ v.targets.length = v.size ∧
    ∀ s ∈ v.slices, s.Inside ∧ s.region ∈ m.ram.regions
  handles : ∀ r ∈ m.handles, r ∈ m.ram.regions
  running : m.ram.running = m.pending.isSome
  pending : ∀ t ∈ m.pending, ∀ r, Machine.pageRegions t.pages r → r ∈ m.ram.regions
  staged : ∀ t ∈ m.pending, t.committed = false → t.metadataOnly = false →
    SpaceOk (· ∈ m.ram.regions) { m.space with pages := t.pages, used := t.used } ∧
      ∀ bytes, MappingTransaction.applyPatches t.patches bytes = applyWrites staged bytes

lemma SpaceOk.relive {live live' : MemoryRegion → Prop} {space : AddressSpace}
    (h : SpaceOk live space)
    (hl : ∀ r, Machine.pageRegions space.pages r → live r → live' r) : SpaceOk live' space := by
  refine ⟨h.used, h.limit, h.pages, ?_, h.device, h.devices, h.deviceKeys, h.aliasPages, h.aliases⟩
  intro a page hf hio
  obtain ⟨r, hb, hr⟩ := h.memory a page hf hio
  have hkey : a ∈ space.pages.keys := by
    rw [Table.mem_keys, hf]
    rfl
  have hpage : (space.pages.find a).bind Page.region = some r := by
    rw [hf]
    exact hb.2.1
  exact ⟨r, hb, hl r ⟨a, hkey, hpage⟩ hr⟩

lemma SpaceOk.live_of_pageRegions {live : MemoryRegion → Prop} {space : AddressSpace}
    (h : SpaceOk live space)
    {r : MemoryRegion} (hr : Machine.pageRegions space.pages r) : live r := by
  obtain ⟨a, -, hbind⟩ := hr
  obtain ⟨page, hf, hregion⟩ := Option.bind_eq_some_iff.mp hbind
  exact h.live_of_page hf hregion

namespace Machine

variable {m : Machine} {staged : List (Nat × UInt8)}

lemma Sound.mem_of_refers (h : m.Sound staged) {r : MemoryRegion} (hr : m.refers r) :
    r ∈ m.ram.regions := by
  rcases hr with hpage | ⟨t, ht, hpage⟩ | hhandle | ⟨v, hv, s, hs, rfl⟩
  · exact h.space.live_of_pageRegions hpage
  · exact h.pending t ht r hpage
  · exact h.handles r hhandle
  · exact ((h.views v hv).2.2 s hs).2

lemma nodup_regions {ram : PhysicalMemory} (h : ram.Ok) : ram.regions.Nodup := by
  refine h.regions.imp_of_mem ?_
  intro a b ha _ hap heq
  have hpos := (h.regionSize a ha).1
  rw [← heq] at hap
  unfold Apart MemoryRegion.range at hap
  omega

structure Released (keep : MemoryRegion → Prop) (gone : List MemoryRegion)
    (ram ram' : PhysicalMemory) : Prop where
  ok : ram'.Ok
  regions : ∀ r, r ∈ ram'.regions ↔ r ∈ ram.regions ∧ (r ∈ gone → keep r)
  bytes : ram'.bytes = ram.bytes
  rest : ram'.identity = ram.identity ∧ ram'.limit = ram.limit ∧ ram'.running = ram.running

lemma released_foldl {keep : MemoryRegion → Prop} [DecidablePred keep] {gone : List MemoryRegion}
    {ram : PhysicalMemory} (h : ram.Ok) (hn : gone.Nodup) (hg : ∀ r ∈ gone, r ∈ ram.regions) :
    Released keep gone ram (gone.foldl (fun ram region => if keep region then ram
      else ram.release region) ram) := by
  induction gone generalizing ram with
  | nil =>
    exact ⟨h, fun r => ⟨fun hr => ⟨hr, fun hf => (nomatch hf)⟩, And.left⟩, rfl, rfl, rfl, rfl⟩
  | cons a gone ih =>
    obtain ⟨hna, hn'⟩ := nodup_cons.mp hn
    rw [foldl_cons]
    by_cases hk : keep a
    · rw [if_pos hk]
      obtain ⟨hok, hregions, hbytes, hrest⟩ := ih h hn' fun r hr => hg r (mem_cons_of_mem a hr)
      refine ⟨hok, ?_, hbytes, hrest⟩
      intro r
      rw [hregions r, mem_cons]
      constructor
      · intro ⟨hr, himp⟩
        exact ⟨hr, fun hor => hor.elim (fun heq => heq ▸ hk) himp⟩
      · intro ⟨hr, himp⟩
        exact ⟨hr, fun hin => himp (.inr hin)⟩
    · rw [if_neg hk]
      have hmem := hg a mem_cons_self
      have herase : ∀ r, r ∈ (ram.release a).regions ↔ r ≠ a ∧ r ∈ ram.regions := fun r =>
        (nodup_regions h).mem_erase_iff
      have hleft : ∀ r ∈ gone, r ∈ (ram.release a).regions := fun r hr =>
        (herase r).mpr ⟨fun heq => hna (heq ▸ hr), hg r (mem_cons_of_mem a hr)⟩
      obtain ⟨hok, hregions, hbytes, hrest⟩ := ih (h.release hmem) hn' hleft
      refine ⟨hok, ?_, hbytes, hrest⟩
      intro r
      rw [hregions r, herase r, mem_cons]
      constructor
      · intro ⟨⟨hne, hr⟩, himp⟩
        exact ⟨hr, fun hor => hor.elim (fun heq => absurd heq hne) himp⟩
      · intro ⟨hr, himp⟩
        refine ⟨⟨?_, hr⟩, fun hin => himp (.inr hin)⟩
        intro heq
        exact hk (heq ▸ himp (.inl heq))

lemma settle_released (h : m.ram.Ok) : Released m.refers m.ram.regions m.ram m.settle.ram :=
  released_foldl h (nodup_regions h) fun _ hr => hr

lemma mem_settle (h : m.ram.Ok) (r : MemoryRegion) : r ∈ m.settle.ram.regions ↔ r ∈ m.ram.regions ∧
    m.refers r := by
  rw [(settle_released h).regions r]
  exact ⟨fun ⟨hr, himp⟩ => ⟨hr, himp hr⟩, fun ⟨hr, href⟩ => ⟨hr, fun _ => href⟩⟩

lemma Sound.settle (h : m.Sound staged) : m.settle.Sound staged := by
  have hrel := settle_released h.ram
  -- A region that is referred to is kept.
  have hkeep : ∀ r, m.refers r → r ∈ m.settle.ram.regions := fun r hr =>
    (mem_settle h.ram r).mpr ⟨h.mem_of_refers hr, hr⟩
  refine ⟨hrel.ok, ?_, ?_, ?_, ?_, ?_, ?_⟩
  · exact h.space.relive fun r hr _ => hkeep r (.inl hr)
  · intro v hv
    obtain ⟨hsome, hlen, hslices⟩ := h.views v hv
    refine ⟨hsome, hlen, ?_⟩
    intro s hs
    exact ⟨(hslices s hs).1, hkeep _ (.inr (.inr (.inr ⟨v, hv, s, hs, rfl⟩)))⟩
  · intro r hr
    exact hkeep r (.inr (.inr (.inl hr)))
  · exact hrel.rest.2.2.trans h.running
  · intro t ht r hr
    exact hkeep r (.inr (.inl ⟨t, ht, hr⟩))
  · intro t ht hc hm
    obtain ⟨hspace, hpatches⟩ := h.staged t ht hc hm
    exact ⟨hspace.relive fun r hr _ => hkeep r (.inr (.inl ⟨t, ht, hr⟩)), hpatches⟩

theorem settle_self (h : ∀ r ∈ m.ram.regions, m.refers r) : m.settle = m := by
  have hfold : ∀ (gone : List MemoryRegion) (ram : PhysicalMemory), (∀ r ∈ gone, m.refers r) →
      gone.foldl (fun ram region => if m.refers region then ram else ram.release region) ram =
      ram := by
    intro gone ram hg
    induction gone with
    | nil => rfl
    | cons a gone ih =>
      rw [foldl_cons, if_pos (hg a mem_cons_self)]
      exact ih fun r hr => hg r (mem_cons_of_mem a hr)
  show { m with ram := _ } = m
  rw [hfold m.ram.regions m.ram h]

end Machine

end NeverD.Emulation
