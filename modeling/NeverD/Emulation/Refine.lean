import NeverD.Emulation.Operations

namespace NeverD.Emulation
open Lib List AddressSpace

variable {e : Diagnostic} {address : Nat}

namespace Machine

variable {m : Machine} {staged : List (Nat × UInt8)} {h : List Event}

def effects (m : Machine) (staged : List (Nat × UInt8)) : Operation → List Event
  | .map _ size _ | .allocate size | .allocateBacking size =>
    match m.ram.allocate size with
    | .ok (region, _) => [.allocated region.offset size]
    | .error _ => []
  | .prepareMappings mappings _ => populateEvents mappings m.ram
  | .commit =>
    match m.pending with
    | some t => if t.metadataOnly then [] else wroteAll staged
    | none => []
  | .write address data | .writeBacking address data =>
    wroteAll ((targets m.space.pages address data.length).zip data)
  | .writeView index offset data =>
      wroteAll (((m.views.getD index {}).targets.drop offset).zip data)
  | _ => []

def events (m : Machine) (staged : List (Nat × UInt8)) (op : Operation) : List Event :=
  match (m.perform op).1 with
  | .ok _ => m.effects staged op
  | .error _ => []

def Recalls (m : Machine) (h : List Event) : Prop :=
  ∀ r, m.refers r → ∀ p, r.offset ≤ p → p < r.offset + r.size → m.ram.bytes p = lastWritten h p

lemma Sound.recalls (hs : m.Sound staged) (hr : Remembers m.ram h) : m.Recalls h := fun r href =>
  hr r (hs.mem_of_refers href)

lemma Sound.remembers_settle (hs : m.Sound staged) (hr : m.Recalls h) :
    Remembers m.settle.ram h := by
  intro r hmem p hlow hhigh
  rw [(settle_released hs.ram).bytes]
  exact hr r ((mem_settle hs.ram r).mp hmem).2 p hlow hhigh

lemma edit_ram (m : Machine) (result : Except Diagnostic AddressSpace) :
    (m.edit result).2.ram = m.ram := by
  cases result with
  | error e => rfl
  | ok space => rfl

lemma keepView_ram (m : Machine) (result : Except Diagnostic MemoryView) :
    (m.keepView result).2.ram = m.ram := by
  cases result with
  | error e => rfl
  | ok view => rfl

variable {permissions : Permissions} {op : Operation}

theorem events_of_effects (he : m.effects staged op = []) : m.events staged op = [] := by
  unfold events
  split
  · exact he
  · rfl

lemma remembers_silent (hr : Remembers m.ram h) (hram : (m.perform op).2.ram = m.ram)
    (he : m.effects staged op = []) : Remembers (m.perform op).2.ram (m.events staged op ++ h) := by
  rw [hram, events_of_effects he]
  exact hr

lemma remembers_store {result : Except Diagnostic PhysicalMemory}
    {writes : List (Nat × UInt8)} (hr : Remembers m.ram h) (hop : m.perform op = m.store result)
    (hw : ∀ ram, result = .ok ram → ram.regions = m.ram.regions ∧
    ram.bytes = applyWrites writes m.ram.bytes)
    (he : m.effects staged op = wroteAll writes) :
    Remembers (m.perform op).2.ram (m.events staged op ++ h) := by
  unfold events
  rw [hop]
  cases result with
  | error e => exact hr
  | ok ram =>
    obtain ⟨hregions, hbytes⟩ := hw ram rfl
    have hwrite := hr.write writes
    show Remembers ram (m.effects staged op ++ h)
    rw [he]
    intro r hmem p hlow hhigh
    rw [hbytes]
    exact hwrite r (hregions ▸ hmem) p hlow hhigh

lemma remembers_commit (hs : m.Sound staged) (hr : Remembers m.ram h) :
    Remembers m.commit.2.ram (m.events staged .commit ++ h) := by
  show Remembers m.commit.2.ram
    ((match m.commit.1 with | .ok _ => m.effects staged .commit | .error _ => []) ++ h)
  rw [effects]
  unfold Machine.commit
  cases hp : m.pending with
  | none => exact hr
  | some t =>
    dsimp only
    cases hc : t.committed with
    | true => exact hr
    | false =>
      cases hm : t.metadataOnly with
      | true => exact hr
      | false =>
        have hwrite := hr.write staged
        rw [← (hs.staged t hp hc hm).2] at hwrite
        exact hwrite

lemma Sound.recalls_perform (hs : m.Sound staged) (hr : Remembers m.ram h) (ho : op.Owned m) :
    (m.perform op).2.Recalls (m.events staged op ++ h) := by
  have hsound := hs.perform ho
  cases op with
  | map address size permissions =>
    apply hsound.recalls
    unfold events
    rw [effects, Machine.perform]
    cases hop : m.space.map m.ram address size permissions with
    | error e => exact hr
    | ok result =>
      obtain ⟨region, halloc, -⟩ := map_allocates hop
      rw [halloc]
      exact hr.allocate (hs.ram.allocate halloc)
  | mapRegion address region offset size permissions =>
    exact hsound.recalls (remembers_silent hr (edit_ram ..) rfl)
  | unmap address size => exact hsound.recalls (remembers_silent hr (edit_ram ..) rfl)
  | replaceAliases remove add => exact hsound.recalls (remembers_silent hr (edit_ram ..) rfl)
  | protect address size permissions => exact hsound.recalls (remembers_silent hr (edit_ram ..) rfl)
  | mapMmio address size callbacks => exact hsound.recalls (remembers_silent hr (edit_ram ..) rfl)
  | unmapMmio address size => exact hsound.recalls (remembers_silent hr (edit_ram ..) rfl)
  | prepareMappings mappings patches =>
    unfold events
    rw [effects, Machine.perform]
    cases hp : MappingTransaction.prepare m.space m.ram mappings patches with
    | mk result ram =>
      cases result with
      | error e =>
        -- What was allocated before the failure is not referred to.
        intro r href p hlow hhigh
        have hmem : r ∈ m.ram.regions := hs.mem_of_refers href
        exact ((prepare_error hs.ram hp).bytes r hmem p hlow hhigh).trans (hr r hmem p hlow hhigh)
      | ok t =>
        have hprep := hs.prepareMappings mappings patches
        rw [Machine.perform, hp] at hprep
        exact hprep.recalls ((prepare_ok hs.ram hs.space hp).remembers h hr)
  | prepareMetadataPublication | drop =>
    apply hsound.recalls
    rw [events_of_effects rfl, Machine.perform]
    split
    · exact hr
    · exact hr
  | commit => exact hsound.recalls (remembers_commit hs hr)
  | read address n => exact hsound.recalls (remembers_silent hr rfl rfl)
  | write address data | writeBacking address data =>
    refine hsound.recalls (remembers_store hr rfl ?_ rfl)
    intro ram hop
    obtain ⟨hbytes, bytes, rfl⟩ := hs.space.write_ok hop
    exact ⟨rfl, hbytes⟩
  | readBacking address n =>
    refine hsound.recalls (remembers_silent hr ?_ rfl)
    rw [Machine.perform]
    split
    · rfl
    · rfl
  | allocate size | allocateBacking size =>
    apply hsound.recalls
    unfold events
    rw [effects, Machine.perform]
    cases halloc : m.ram.allocate size with
    | error e => exact hr
    | ok result => exact hr.allocate (hs.ram.allocate halloc)
  | releaseRegion index => exact hsound.recalls (remembers_silent hr rfl rfl)
  | pinBacking address size => exact hsound.recalls (remembers_silent hr (keepView_ram ..) rfl)
  | subview index offset length => exact hsound.recalls (remembers_silent hr (keepView_ram ..) rfl)
  | releaseView index => exact hsound.recalls (remembers_silent hr rfl rfl)
  | readView index offset n => exact hsound.recalls (remembers_silent hr rfl rfl)
  | writeView index offset data =>
    refine hsound.recalls (remembers_store hr rfl ?_ rfl)
    intro ram hop
    unfold MemoryView.write at hop
    split at hop
    · cases hop
    split at hop
    · cases hop
    · cases hop
      exact ⟨rfl, writeSlices_eq ..⟩

lemma replaceAliases_limit {space space' : AddressSpace} {ram : PhysicalMemory}
    {remove : List GuestAliasRange} {add : List GuestAliasMapping}
    (hop : space.replaceAliases ram remove add = .ok space') {live : MemoryRegion → Prop}
    (hs : SpaceOk live space) : space'.limit = space.limit := by
  unfold replaceAliases at hop
  split at hop
  · cases hop
  split at hop
  · cases hop
  rename_i next hremove
  split at hop
  · cases hop
  rename_i next' hadd
  cases hop
  obtain ⟨hnext, -, hlimit, -⟩ := hs.removeAliases hremove
  exact (hnext.addAliases hnext.memory hadd).2.2.trans hlimit

lemma mapRegion_limit {space space' : AddressSpace} {ram : PhysicalMemory} {offset size : Nat}
    {region : Option MemoryRegion}
    (hop : space.mapRegion ram address region offset size permissions = .ok space') :
    space'.limit = space.limit := by
  unfold mapRegion at hop
  split at hop
  · cases hop
  split at hop
  · cases hop
  split at hop
  · cases hop
  split at hop
  · cases hop
  split at hop
  · cases hop
  split at hop
  · cases hop
  split at hop
  · cases hop
  · cases hop
    rfl

lemma edit_limit {result : Except Diagnostic AddressSpace}
    (hr : ∀ space, result = .ok space → space.limit = m.space.limit) :
    (m.edit result).2.space.limit = m.space.limit := by
  cases result with
  | error e => rfl
  | ok space => exact hr space rfl

lemma store_space (m : Machine) (result : Except Diagnostic PhysicalMemory) :
    (m.store result).2.space = m.space := by
  cases result with
  | error e => rfl
  | ok ram => rfl

lemma keepView_space (m : Machine) (result : Except Diagnostic MemoryView) :
    (m.keepView result).2.space = m.space := by
  cases result with
  | error e => rfl
  | ok view => rfl

lemma Sound.perform_limit (hs : m.Sound staged) (op : Operation) :
    (m.perform op).2.space.limit = m.space.limit := by
  cases op with
  | map address size permissions =>
    rw [Machine.perform]
    split
    · rfl
    next space ram hop =>
      obtain ⟨region, -, hmap⟩ := map_allocates hop
      exact mapRegion_limit hmap
  | mapRegion address region offset size permissions =>
    exact edit_limit fun space hop => mapRegion_limit hop
  | unmap address size =>
    refine edit_limit ?_
    intro space hop
    unfold unmap at hop
    split at hop
    · cases hop
    split at hop
    · cases hop
    · cases hop
      rfl
  | replaceAliases remove add => exact edit_limit fun space hop => replaceAliases_limit hop hs.space
  | protect address size permissions =>
    refine edit_limit ?_
    intro space hop
    unfold protect at hop
    split at hop
    · cases hop
    split at hop
    · cases hop
    split at hop
    · cases hop
    · cases hop
      rfl
  | mapMmio address size callbacks =>
    refine edit_limit ?_
    intro space hop
    unfold mapMmio at hop
    split at hop
    · cases hop
    split at hop
    · cases hop
    split at hop
    · cases hop
    split at hop
    · cases hop
    split at hop
    · cases hop
    · cases hop
      rfl
  | unmapMmio address size =>
    refine edit_limit ?_
    intro space hop
    unfold unmapMmio at hop
    split at hop
    · cases hop
    split at hop
    · cases hop
    split at hop
    · cases hop
    · cases hop
      rfl
  | prepareMappings mappings patches =>
    rw [Machine.perform]
    split
    · rfl
    · rfl
  | prepareMetadataPublication =>
    rw [Machine.perform]
    split
    · rfl
    · rfl
  | commit =>
    rw [Machine.perform, Machine.commit]
    split
    · rfl
    split
    · rfl
    split
    · rfl
    · rfl
  | drop =>
    rw [Machine.perform]
    split
    · rfl
    · rfl
  | read address n => rfl
  | write address data => rw [Machine.perform, store_space]
  | readBacking address n =>
    rw [Machine.perform]
    split
    · rfl
    · rfl
  | writeBacking address data => rw [Machine.perform, store_space]
  | allocate size =>
    rw [Machine.perform]
    split
    · rfl
    · rfl
  | releaseRegion index => rfl
  | allocateBacking size =>
    rw [Machine.perform]
    split
    · rfl
    · rfl
  | pinBacking address size => rw [Machine.perform, keepView_space]
  | subview index offset length => rw [Machine.perform, keepView_space]
  | releaseView index => rfl
  | readView index offset n => rfl
  | writeView index offset data => rw [Machine.perform, store_space]

lemma edit_error {result : Except Diagnostic AddressSpace} (h : (m.edit result).1 = .error e) :
    (m.edit result).2 = m := by
  cases result with
  | error e => rfl
  | ok space => cases h

lemma store_error {result : Except Diagnostic PhysicalMemory}
    (h : (m.store result).1 = .error e) : (m.store result).2 = m := by
  cases result with
  | error e => rfl
  | ok space => cases h

lemma keepView_error {result : Except Diagnostic MemoryView}
    (h : (m.keepView result).1 = .error e) : (m.keepView result).2 = m := by
  cases result with
  | error e => rfl
  | ok space => cases h

theorem perform_error (h : (m.perform op).1 = .error e) :
    (m.perform op).2 = m ∨ ∃ mappings patches ram, op = .prepareMappings mappings patches ∧
      MappingTransaction.prepare m.space m.ram mappings patches = (.error e, ram) ∧
      (m.perform op).2 = { m with ram := ram } := by
  cases op with
  | prepareMappings mappings patches =>
    right
    refine ⟨mappings, patches, ?_⟩
    rw [Machine.perform] at h ⊢
    cases hp : MappingTransaction.prepare m.space m.ram mappings patches with
    | mk result ram =>
      rw [hp] at h
      cases result with
      | error e' =>
        cases h
        exact ⟨ram, rfl, rfl, rfl⟩
      | ok t => cases h
  | map address size permissions =>
    left
    rw [Machine.perform] at h ⊢
    split at h
    · rfl
    · cases h
  | mapRegion address region offset size permissions => exact .inl (edit_error h)
  | unmap address size => exact .inl (edit_error h)
  | replaceAliases remove add => exact .inl (edit_error h)
  | protect address size permissions => exact .inl (edit_error h)
  | mapMmio address size callbacks => exact .inl (edit_error h)
  | unmapMmio address size => exact .inl (edit_error h)
  | prepareMetadataPublication =>
    left
    rw [Machine.perform] at h ⊢
    split at h
    next hrun => rw [if_pos hrun]
    · cases h
  | commit =>
    left
    rw [Machine.perform, Machine.commit] at h ⊢
    split at h
    · rfl
    split at h
    next hc => rw [if_pos hc]
    split at h
    · cases h
    · cases h
  | drop =>
    rw [Machine.perform] at h
    split at h
    · cases h
    · cases h
  | read address n => exact .inl rfl
  | write address data => exact .inl (store_error h)
  | readBacking address n =>
    left
    rw [Machine.perform]
    split
    · rfl
    · rfl
  | writeBacking address data => exact .inl (store_error h)
  | allocate size =>
    left
    rw [Machine.perform] at h ⊢
    split at h
    · rfl
    · cases h
  | releaseRegion index => cases h
  | allocateBacking size =>
    left
    rw [Machine.perform] at h ⊢
    split at h
    · rfl
    · cases h
  | pinBacking address size => exact .inl (keepView_error h)
  | subview index offset length => exact .inl (keepView_error h)
  | releaseView index => cases h
  | readView index offset n => exact .inl rfl
  | writeView index offset data => exact .inl (store_error h)

def Granted (pages : Table Page) (permissions : Permissions) (address n : Nat) : Prop :=
  n = 0 ∨ (address + n ≤ 2 ^ 64 ∧ ∀ i < n, Accessible pages permissions (address + i))

variable (hs : m.Sound staged)
include hs

lemma Sound.target_eq (hr : Remembers m.ram h) {a : Nat}
    (ha : Accessible m.space.pages permissions a) :
    m.ram.bytes (target m.space.pages a) = lastWritten h (target m.space.pages a) := by
  obtain ⟨page, hf, hio, -⟩ := ha
  obtain ⟨r, ⟨-, -, hlow, hhigh⟩, hmem⟩ := hs.space.memory _ page hf hio
  have hmod : a % pageSize < pageSize := Nat.mod_lt _ (by decide)
  have htarget : target m.space.pages a = page.physical - projectionReserve + a % pageSize := by
    unfold target
    unfold pageOf at hf
    rw [hf]
  rw [htarget]
  apply hr r hmem
  · omega
  · omega

lemma Sound.targets_eq (hr : Remembers m.ram h) {n : Nat}
    (hg : Granted m.space.pages permissions address n) :
    (targets m.space.pages address n).map m.ram.bytes = (targets m.space.pages address n).map
    (lastWritten h) := by
  apply map_congr_left
  intro p hp
  obtain ⟨i, hi, rfl⟩ := mem_map.mp hp
  rw [mem_range] at hi
  rcases hg with hz | ⟨-, hacc⟩
  · omega
  · exact hs.target_eq hr (hacc i hi)

lemma Sound.accessFails_iff_granted {n : Nat} :
    m.space.accessFails address n permissions = false ↔
      Granted m.space.pages permissions address n :=
  hs.space.accessFails_iff

lemma Sound.read_answer (hr : Remembers m.ram h) (permissions : Permissions) (address n : Nat) :
    (Granted m.space.pages permissions address n →
      m.space.readWithPermissions m.ram address n permissions =
      .ok ((targets m.space.pages address n).map (lastWritten h))) ∧
      (¬ Granted m.space.pages permissions address n →
      m.space.readWithPermissions m.ram address n permissions = .error .memoryAccess) := by
  rw [hs.space.read_eq, ← hs.accessFails_iff_granted, Bool.not_eq_false]
  constructor
  · intro ha
    rw [ha, ← hs.targets_eq hr (hs.accessFails_iff_granted.mp ha)]
    rfl
  · intro ha
    rw [ha]
    rfl

lemma Sound.write_answer (hrun : m.ram.running = false) (permissions : Permissions)
    (address : Nat) (data : List UInt8) :
      (Granted m.space.pages permissions address data.length → (m.store
      (m.space.writeWithPermissions m.ram address data permissions)).1 = .ok []) ∧
    (¬ Granted m.space.pages permissions address data.length → (m.store
      (m.space.writeWithPermissions m.ram address data permissions)).1 = .error .memoryAccess) := by
  rw [hs.space.write_eq, hrun, ← hs.accessFails_iff_granted, Bool.not_eq_false]
  constructor
  · intro ha
    rw [ha]
    rfl
  · intro ha
    rw [ha]
    rfl

lemma Sound.view_eq (hr : Remembers m.ram h) {v : MemoryView} (hv : v ∈ m.views) {p : Nat}
    (hp : p ∈ v.targets) : m.ram.bytes p = lastWritten h p := by
  obtain ⟨s, hslice, hin⟩ := mem_flatMap.mp hp
  obtain ⟨hinside, hmem⟩ := (hs.views v hv).2.2 s hslice
  unfold MemorySlice.Inside at hinside
  rw [MemorySlice.targets, mem_range'_1] at hin
  apply hr _ hmem
  · omega
  · omega

lemma Sound.readView_answer (hr : Remembers m.ram h) (hrun : m.ram.running = false)
    {v : MemoryView} (hv : v ∈ m.views) {offset n : Nat} (hn : offset + n ≤ v.size) :
    v.read m.ram offset n = .ok (((v.targets.drop offset).take n).map (lastWritten h)) := by
  have hvalid : v.validate offset n = true := by
    refine decide_eq_true ⟨(hs.views v hv).1, ?_, ?_⟩
    · omega
    · omega
  unfold MemoryView.read
  rw [hvalid, hrun, readSlices_eq]
  show Except.ok (((v.targets.drop offset).take n).map m.ram.bytes) = _
  congr 1
  apply map_congr_left
  intro p hp
  exact hs.view_eq hr hv (mem_of_mem_drop (mem_of_mem_take hp))

end Machine

end NeverD.Emulation
