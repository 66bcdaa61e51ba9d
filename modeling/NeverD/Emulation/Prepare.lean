import NeverD.Emulation.Devices

namespace NeverD.Emulation
open Lib List MappingTransaction

variable {ram' : PhysicalMemory} {region : MemoryRegion} {next next' : Table Page}

/-- Every byte of a region in use holds what was last written to it. -/
def Remembers (ram : PhysicalMemory) (h : List Event) : Prop :=
  ∀ r ∈ ram.regions, ∀ p, r.offset ≤ p → p < r.offset + r.size → ram.bytes p = lastWritten h p

lemma zeroFill_outside {bytes : Nat → UInt8} {base n p : Nat} (h : ¬ (base ≤ p ∧ p < base + n)) :
    zeroFill bytes base n p = bytes p := if_neg h

variable {ram : PhysicalMemory}

lemma Remembers.allocate {h : List Event} {size : Nat}
    (hr : Remembers ram h) (ha : PhysicalMemory.Allocated ram size region ram') :
    Remembers ram' (.allocated region.offset size :: h) := by
  intro r hmem p hlow hhigh
  rw [ha.bytes, lastWritten_allocated]
  rw [ha.regions] at hmem
  by_cases hin : region.offset ≤ p ∧ p < region.offset + size
  · rw [zeroFill, zeroFill, if_pos hin, if_pos hin]
  · rw [zeroFill_outside hin, zeroFill_outside hin]
    rcases mem_cons.mp hmem with rfl | hmem
    · rw [ha.owned.2] at hhigh
      exact absurd ⟨hlow, hhigh⟩ hin
    · exact hr r hmem p hlow hhigh

lemma Remembers.write {h : List Event} (hr : Remembers ram h) (writes : List (Nat × UInt8)) :
    Remembers { ram with bytes := applyWrites writes ram.bytes } (wroteAll writes ++ h) := by
  intro r hmem p hlow hhigh
  rw [lastWritten_wroteAll]
  exact applyWrites_congr writes (hr r hmem p hlow hhigh)

structure Preserves (ram ram' : PhysicalMemory) : Prop where
  ok : ram'.Ok
  regions : ∀ r ∈ ram.regions, r ∈ ram'.regions
  bytes : ∀ r ∈ ram.regions, ∀ p, r.offset ≤ p → p < r.offset + r.size → ram'.bytes p = ram.bytes p
  rest : ram'.identity = ram.identity ∧ ram'.limit = ram.limit ∧ ram'.running = ram.running

lemma Preserves.refl (h : ram.Ok) : Preserves ram ram :=
  ⟨h, fun _ hr => hr, fun _ _ _ _ _ => rfl, rfl, rfl, rfl⟩

lemma Preserves.trans {a b c : PhysicalMemory} (h : Preserves a b) (h' : Preserves b c) :
    Preserves a c where
  ok := h'.ok
  regions r hr := h'.regions r (h.regions r hr)
  bytes r hr p hlow hhigh :=
    (h'.bytes r (h.regions r hr) p hlow hhigh).trans (h.bytes r hr p hlow hhigh)
  rest := ⟨h'.rest.1.trans h.rest.1, h'.rest.2.1.trans h.rest.2.1, h'.rest.2.2.trans h.rest.2.2⟩

lemma Preserves.allocate {data : List UInt8}
    (ha : PhysicalMemory.Allocated ram data.length region ram') :
    Preserves ram { ram' with bytes := memcpy ram'.bytes region.offset data } := by
  refine ⟨ha.ok.same rfl rfl rfl rfl, ?_, ?_, ?_⟩
  · intro r hr
    rw [ha.regions]
    exact mem_cons_of_mem _ hr
  · intro r hr p hlow hhigh
    have hap := ha.fresh r hr
    unfold Apart MemoryRegion.range at hap
    rw [ha.owned.2] at hap
    dsimp only at hap ⊢
    have hout : p ∉ List.range' region.offset data.length := by
      rw [mem_range'_1]
      omega
    rw [memcpy_eq, applyWrites_of_notMem, ha.bytes, zeroFill_outside (by omega)]
    intro hmem
    obtain ⟨w, hw, rfl⟩ := mem_map.mp hmem
    exact hout (of_mem_zip hw).1
  · obtain ⟨h1, h2, h3, h4⟩ := ha.rest
    exact ⟨h1, h2, h3.trans h4.symm⟩

def newPages (mappings : List InitializedMapping) (a : Nat) : Prop :=
  ∃ m ∈ mappings, a ∈ pageAddresses m.address m.bytes.length

lemma newPages_cons {m : InitializedMapping} {rest : List InitializedMapping} {a : Nat} :
    newPages (m :: rest) a ↔ a ∈ pageAddresses m.address m.bytes.length ∨ newPages rest a := by
  simp [newPages]

lemma reservePages_ok {as : List Nat} (hn : as.Nodup) (h : reservePages next as = some next') :
    (∀ a ∈ as, next.find a = none ∧ (next'.find a).isSome) ∧
      (∀ a, a ∉ as → next'.find a = next.find a) ∧ next'.size = next.size + as.length := by
  induction as generalizing next with
  | nil =>
    cases h
    exact ⟨forall_mem_nil _, fun _ _ => rfl, rfl⟩
  | cons a as ih =>
    obtain ⟨hna, hn'⟩ := nodup_cons.mp hn
    rw [reservePages] at h
    split at h
    · cases h
    rename_i hfree
    rw [Bool.not_eq_true, Option.isSome_eq_false_iff, Option.isNone_iff_eq_none] at hfree
    obtain ⟨h1, h2, h3⟩ := ih hn' h
    refine ⟨?_, ?_, ?_⟩
    · intro b hb
      rcases mem_cons.mp hb with rfl | hb
      · refine ⟨hfree, ?_⟩
        rw [h2 b hna, Table.find_insert, if_pos rfl]
        rfl
      · obtain ⟨hnone, hsome⟩ := h1 b hb
        have hne : b ≠ a := by
          intro heq
          exact hna (heq ▸ hb)
        rw [Table.find_insert, if_neg hne] at hnone
        exact ⟨hnone, hsome⟩
    · intro b hb
      rw [mem_cons, not_or] at hb
      rw [h2 b hb.2, Table.find_insert, if_neg hb.1]
    · rw [h3, Table.size_insert _ _ hfree, length_cons]
      omega

structure Reserved (limit : Nat) (mappings : List InitializedMapping) (next next' : Table Page)
    (used used' : Nat) : Prop where
  aligned : ∀ m ∈ mappings, Aligned m.address m.bytes.length
  old : ∀ a, ¬ newPages mappings a → next'.find a = next.find a
  new : ∀ a, newPages mappings a → next.find a = none ∧ (next'.find a).isSome
  size : used' + pageSize * next.size = used + pageSize * next'.size
  limit : used ≤ limit → used' ≤ limit

lemma reserve_ok {limit : Nat} {mappings : List InitializedMapping} {used used' : Nat}
    (h : reserve limit mappings next used = .ok (next', used')) :
    Reserved limit mappings next next' used used' := by
  induction mappings generalizing next used with
  | nil =>
    cases h
    exact ⟨forall_mem_nil _, fun _ _ => rfl, fun a ⟨m, hm, _⟩ => (nomatch hm), rfl, fun hl => hl⟩
  | cons m rest ih =>
    rw [reserve] at h
    split at h
    · cases h
    rename_i hvalid
    have hal := aligned_of_valid (not_not.mp hvalid)
    split at h
    · cases h
    rename_i hfit
    split at h
    · cases h
    rename_i mid hmid
    obtain ⟨h1, h2, h3⟩ := reservePages_ok (nodup_pageAddresses ..) hmid
    have hrest := ih h
    refine ⟨?_, ?_, ?_, ?_, ?_⟩
    · intro q hq
      rcases mem_cons.mp hq with rfl | hq
      · exact hal
      · exact hrest.aligned q hq
    · intro a ha
      rw [newPages_cons, not_or] at ha
      rw [hrest.old a ha.2, h2 a ha.1]
    · intro a ha
      by_cases hin : a ∈ pageAddresses m.address m.bytes.length
      · obtain ⟨hnone, hsome⟩ := h1 a hin
        refine ⟨hnone, ?_⟩
        by_cases hlater : newPages rest a
        · exact (hrest.new a hlater).2
        · rw [hrest.old a hlater]
          exact hsome
      · have hlater := (newPages_cons.mp ha).resolve_left hin
        obtain ⟨hnone, hsome⟩ := hrest.new a hlater
        rw [h2 a hin] at hnone
        exact ⟨hnone, hsome⟩
    · have hsize := hrest.size
      have hlen := hal.length_pageAddresses
      rw [h3, mul_add, hlen] at hsize
      omega
    · intro hl
      have := hrest.limit
      omega

def populateEvents : List InitializedMapping → PhysicalMemory → List Event
  | [], _ => []
  | m :: rest, ram =>
    match ram.allocate m.bytes.length with
    | .error _ => []
    | .ok (region, ram) =>
      populateEvents rest { ram with bytes := memcpy ram.bytes region.offset m.bytes } ++
        (wroteAll ((List.range' region.offset m.bytes.length).zip m.bytes) ++
          [.allocated region.offset m.bytes.length])

lemma populate_preserves (mappings : List InitializedMapping) (next : Table Page)
    (h : ram.Ok) : Preserves ram (populate mappings next ram).2 := by
  induction mappings generalizing next ram with
  | nil => exact .refl h
  | cons m rest ih =>
    rw [populate]
    split
    · exact .refl h
    next region ram' halloc =>
      have hp := Preserves.allocate (h.allocate halloc)
      exact hp.trans (ih _ hp.ok)

lemma regionPages_keys (m : InitializedMapping) (region : MemoryRegion) :
    (regionPages m region).map Prod.fst = pageAddresses m.address m.bytes.length := by
  rw [regionPages, map_map]
  exact map_id _

lemma find_regionPages {m : InitializedMapping} (hal : Aligned m.address m.bytes.length)
    (hsize : region.size = m.bytes.length) (next : Table Page) {a : Nat}
    (ha : a ∈ pageAddresses m.address m.bytes.length) :
    ∃ page, (next.insertAll (regionPages m region)).find a = some page ∧ page.Backed region := by
  have hnodup : ((regionPages m region).map Prod.fst).Nodup := by
    rw [regionPages_keys]
    exact nodup_pageAddresses ..
  refine ⟨_, Table.find_insertAll_of_mem next hnodup (mem_map_of_mem ha), rfl, rfl, ?_, ?_⟩
  · exact Nat.le_add_right ..
  · obtain ⟨hmod, hlow, hhigh⟩ := hal.mem_pageAddresses.mp ha
    have := hal.start
    have := hal.whole
    unfold pageSize at *
    dsimp only
    omega

structure Populated (mappings : List InitializedMapping) (next next' : Table Page)
    (ram ram' : PhysicalMemory) : Prop where
  old : ∀ a, ¬ newPages mappings a → next'.find a = next.find a
  new : ∀ a, newPages mappings a → ∃ page r, next'.find a = some page ∧ page.Backed r ∧
    r ∈ ram'.regions
  size : (∀ a, newPages mappings a → (next.find a).isSome) → next'.size = next.size
  remembers : ∀ h, Remembers ram h → Remembers ram' (populateEvents mappings ram ++ h)

lemma populate_ok {mappings : List InitializedMapping}
    (hok : ram.Ok) (hal : ∀ m ∈ mappings, Aligned m.address m.bytes.length)
    (h : populate mappings next ram = (.ok next', ram')) :
    Populated mappings next next' ram ram' := by
  induction mappings generalizing next ram with
  | nil =>
    cases h
    exact ⟨fun _ _ => rfl, fun a ⟨m, hm, _⟩ => (nomatch hm), fun _ => rfl, fun h hr => hr⟩
  | cons m rest ih =>
    rw [populate] at h
    split at h
    · cases h
    rename_i region ram₁ halloc
    have ha := hok.allocate halloc
    have hp := Preserves.allocate ha
    have hal₁ := hal m mem_cons_self
    have hrest := ih hp.ok (fun q hq => hal q (mem_cons_of_mem m hq)) h
    have hlater : Preserves { ram₁ with bytes := memcpy ram₁.bytes region.offset m.bytes }
        ram' := by
      have hpres := populate_preserves rest (next.insertAll (regionPages m region)) hp.ok
      rw [h] at hpres
      exact hpres
    have hregion : region ∈ ram'.regions := by
      apply hlater.regions
      rw [ha.regions]
      exact mem_cons_self
    have hkeys := regionPages_keys m region
    refine ⟨?_, ?_, ?_, ?_⟩
    · intro a hn
      rw [newPages_cons, not_or] at hn
      rw [hrest.old a hn.2, Table.find_insertAll_of_notMem _ (by rw [hkeys]; exact hn.1)]
    · intro a hn
      by_cases hl : newPages rest a
      · exact hrest.new a hl
      · have hin := (newPages_cons.mp hn).resolve_right hl
        obtain ⟨page, hf, hb⟩ := find_regionPages hal₁ ha.owned.2 next hin
        rw [← hrest.old a hl] at hf
        exact ⟨page, region, hf, hb, hregion⟩
    · intro hall
      rw [hrest.size, Table.size_insertAll_of_mem]
      · intro e he
        have hin : e.1 ∈ pageAddresses m.address m.bytes.length := hkeys ▸ mem_map_of_mem he
        exact hall e.1 (newPages_cons.mpr (.inl hin))
      · intro a hl
        by_cases hin : a ∈ pageAddresses m.address m.bytes.length
        · obtain ⟨page, hf, -⟩ := find_regionPages hal₁ ha.owned.2 next hin
          rw [hf]
          rfl
        · rw [Table.find_insertAll_of_notMem _ (by rw [hkeys]; exact hin)]
          exact hall a (newPages_cons.mpr (.inr hl))
    · intro hist hr
      have hstep := (hr.allocate ha).write ((List.range' region.offset m.bytes.length).zip m.bytes)
      rw [← memcpy_eq] at hstep
      have hrem := hrest.remembers _ hstep
      rw [populateEvents, halloc]
      simp only [append_assoc, singleton_append]
      exact hrem

end NeverD.Emulation
