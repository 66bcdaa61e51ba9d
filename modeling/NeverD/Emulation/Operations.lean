import NeverD.Emulation.Settle

namespace NeverD.Emulation
open Lib List Bool

variable {ram : PhysicalMemory}

lemma notRunning {α : Type} {f : Except Diagnostic α} {x : α}
    (h : (if ram.running then .error .running else f) = .ok x) : ram.running = false := by
  split at h
  · cases h
  next hrun => rwa [not_eq_true] at hrun

section

variable {live : MemoryRegion → Prop} {space : AddressSpace} {address : Nat}
    {permissions : Permissions}

variable (h : SpaceOk live space)
include h

lemma SpaceOk.present {n : Nat} (ha : space.accessFails address n permissions = false) :
    Present space.pages address n := by
  intro i hi
  rcases h.accessFails_iff.mp ha with hz | ⟨-, hacc⟩
  · omega
  · obtain ⟨page, hf, -⟩ := hacc i hi
    unfold pageOf at hf
    rw [hf]
    rfl

lemma SpaceOk.read_eq (ram : PhysicalMemory) (n : Nat) :
      space.readWithPermissions ram address n permissions =
      if space.accessFails address n permissions then .error .memoryAccess
      else .ok ((targets space.pages address n).map ram.bytes) := by
  unfold AddressSpace.readWithPermissions
  split
  · rfl
  next ha =>
    rw [not_eq_true] at ha
    rw [readPages_eq ram.bytes (Nat.le_refl n) (h.present ha)]

lemma SpaceOk.write_eq (ram : PhysicalMemory) (data : List UInt8) :
    space.writeWithPermissions ram address data permissions =
      if ram.running then .error .running
      else if space.accessFails address data.length permissions then .error .memoryAccess
      else .ok { ram with
        bytes := applyWrites ((targets space.pages address data.length).zip data) ram.bytes } := by
  unfold AddressSpace.writeWithPermissions
  split
  · rfl
  split
  · rfl
  next ha =>
    rw [not_eq_true] at ha
    rw [writePages_eq ram.bytes le_rfl (h.present ha)]

lemma SpaceOk.write_ok {ram' : PhysicalMemory} {data : List UInt8}
    (hop : space.writeWithPermissions ram address data permissions = .ok ram') :
    ram'.bytes = applyWrites ((targets space.pages address data.length).zip data) ram.bytes ∧
      ∃ bytes, ram' = { ram with bytes := bytes } := by
  rw [h.write_eq] at hop
  split at hop
  · cases hop
  split at hop
  · cases hop
  · cases hop
    exact ⟨rfl, _, rfl⟩

end

namespace Machine

variable {m : Machine} {staged : List (Nat × UInt8)}

variable (h : m.Sound staged)
include h

lemma Sound.noPending (hr : m.ram.running = false) : m.pending = none := by
  have := h.running
  rw [hr] at this
  exact Option.isNone_iff_eq_none.mp (Option.isSome_eq_false_iff.mp this.symm)

lemma Sound.withSpace (hr : m.ram.running = false) {space : AddressSpace}
    (hs : SpaceOk (· ∈ m.ram.regions) space) : Sound { m with space := space } staged := by
  have hp := h.noPending hr
  refine ⟨h.ram, hs, h.views, h.handles, h.running, h.pending, ?_⟩
  intro t ht
  have hno : some t = none := ht.symm.trans hp
  cases hno

lemma Sound.withRam (hok : ram.Ok)
    (hregions : ∀ r ∈ m.ram.regions, r ∈ ram.regions) (hrun : ram.running = m.ram.running) :
    Sound { m with ram := ram } staged := by
  refine ⟨hok, h.space.relive fun r _ hr => hregions r hr, ?_, ?_, hrun.trans h.running, ?_, ?_⟩
  · intro v hv
    obtain ⟨hsome, hlen, hslices⟩ := h.views v hv
    exact ⟨hsome, hlen, fun s hs => ⟨(hslices s hs).1, hregions _ (hslices s hs).2⟩⟩
  · intro r hr
    exact hregions r (h.handles r hr)
  · intro t ht r hr
    exact hregions r (h.pending t ht r hr)
  · intro t ht hc hm
    obtain ⟨hspace, hpatches⟩ := h.staged t ht hc hm
    exact ⟨hspace.relive fun r _ hr => hregions r hr, hpatches⟩

lemma Sound.withView {v : MemoryView} (hsome : v.memory.isSome)
    (hlen : v.targets.length = v.size)
    (hslices : ∀ s ∈ v.slices, s.Inside ∧ s.region ∈ m.ram.regions) :
    Sound { m with views := m.views ++ [v] } staged := by
  refine ⟨h.ram, h.space, ?_, h.handles, h.running, h.pending, h.staged⟩
  intro w hw
  rcases mem_append.mp hw with hw | hw
  · exact h.views w hw
  · rw [mem_singleton.mp hw]
    exact ⟨hsome, hlen, hslices⟩

lemma Sound.withHandle {r : MemoryRegion} (hr : r ∈ m.ram.regions) :
    Sound { m with handles := m.handles ++ [r] } staged := by
  refine ⟨h.ram, h.space, h.views, ?_, h.running, h.pending, h.staged⟩
  intro s hs
  rcases mem_append.mp hs with hs | hs
  · exact h.handles s hs
  · rw [mem_singleton.mp hs]
    exact hr

lemma Sound.allocate {size : Nat} {region : MemoryRegion}
    (ha : m.ram.allocate size = .ok (region, ram)) :
    PhysicalMemory.Allocated m.ram size region ram ∧ Sound { m with ram := ram } staged ∧
      region ∈ ram.regions := by
  have hal := h.ram.allocate ha
  refine ⟨hal, h.withRam hal.ok ?_ ?_, ?_⟩
  · intro r hr
    rw [hal.regions]
    exact mem_cons_of_mem _ hr
  · exact hal.rest.2.2.1.trans hal.rest.2.2.2.symm
  · rw [hal.regions]
    exact mem_cons_self

lemma Sound.edit {result : Except Diagnostic AddressSpace}
    (hr : ∀ space, result = .ok space → m.ram.running = false ∧ SpaceOk (· ∈ m.ram.regions) space) :
    (m.edit result).2.Sound staged := by
  cases result with
  | error e => exact h
  | ok space => exact h.withSpace (hr space rfl).1 (hr space rfl).2

lemma Sound.store {result : Except Diagnostic PhysicalMemory}
    (hr : ∀ ram, result = .ok ram → ∃ bytes, ram = { m.ram with bytes := bytes }) :
    (m.store result).2.Sound staged := by
  cases result with
  | error e => exact h
  | ok ram =>
    obtain ⟨bytes, rfl⟩ := hr ram rfl
    exact h.withRam (h.ram.same rfl rfl rfl rfl) (fun _ hr => hr) rfl

lemma Sound.keepView {result : Except Diagnostic MemoryView}
    (hr : ∀ v, result = .ok v → v.memory.isSome ∧ v.targets.length = v.size ∧
      ∀ s ∈ v.slices, s.Inside ∧ s.region ∈ m.ram.regions) :
        (m.keepView result).2.Sound staged := by
  cases result with
  | error e => exact h
  | ok v => exact h.withView (hr v rfl).1 (hr v rfl).2.1 (hr v rfl).2.2

omit h

lemma map_allocates {space space' : AddressSpace} {ram' : PhysicalMemory} {address size : Nat}
    {permissions : Permissions}
    (hop : space.map ram address size permissions = .ok (space', ram')) :
    ∃ region, ram.allocate size = .ok (region, ram') ∧
      space.mapRegion ram' address (some region) 0 size permissions = .ok space' := by
  unfold AddressSpace.map at hop
  split at hop
  · cases hop
  split at hop
  · cases hop
  split at hop
  · cases hop
  split at hop
  · cases hop
  split at hop
  · cases hop
  rename_i region ram₁ halloc
  split at hop
  · cases hop
  rename_i space₁ hmap
  cases hop
  exact ⟨region, halloc, hmap⟩

variable (h : m.Sound staged)
include h

lemma Sound.map (address size : Nat) (permissions : Permissions) :
    (m.perform (.map address size permissions)).2.Sound staged := by
  rw [perform]
  split
  · exact h
  next space ram hop =>
    obtain ⟨region, halloc, hmap⟩ := map_allocates hop
    obtain ⟨hal, hsound, hmem⟩ := h.allocate halloc
    refine hsound.withSpace hal.rest.2.2.1 (hsound.space.mapRegion ?_ hmap)
    intro r heq _
    cases heq
    exact hmem

lemma Sound.mapRegion {address offset size : Nat} {region : Option MemoryRegion}
    {permissions : Permissions}
    (ho : Operation.Owned m (.mapRegion address region offset size permissions)) :
    (m.perform (.mapRegion address region offset size permissions)).2.Sound staged := by
  refine h.edit ?_
  intro space hop
  refine ⟨notRunning hop, h.space.mapRegion ?_ hop⟩
  intro r heq howner
  subst heq
  exact h.mem_of_refers (Or.inr (Or.inr (ho howner)))

lemma Sound.commit : m.commit.2.Sound staged := by
  unfold Machine.commit
  split
  · exact h
  rename_i t ht
  split
  · exact h
  rename_i hc
  rw [not_eq_true] at hc
  split
  · refine ⟨h.ram, h.space, h.views, h.handles, ?_, ?_, ?_⟩
    · rw [h.running, ht]
      rfl
    · intro t' ht' r hr
      cases ht'
      exact h.pending t ht r hr
    · intro t' ht' hc'
      cases ht'
      cases hc'
  next hm =>
    rw [not_eq_true] at hm
    have hspace := (h.staged t ht hc hm).1.generation (m.space.generation + 1)
    refine ⟨h.ram.same rfl rfl rfl rfl, hspace, h.views, h.handles, ?_, ?_, ?_⟩
    · rw [h.running, ht]
      rfl
    · -- The transaction keeps the pages it replaced.
      intro t' ht' r hr
      cases ht'
      exact h.space.live_of_pageRegions hr
    · intro t' ht' hc'
      cases ht'
      cases hc'

lemma Sound.drop : (m.perform .drop).2.Sound staged := by
  rw [perform]
  split
  · exact h
  · exact ⟨h.ram.same rfl rfl rfl rfl, h.space, h.views, h.handles, rfl, fun t ht => (nomatch ht),
      fun t ht => (nomatch ht)⟩

lemma Sound.prepareMetadataPublication :
    (m.perform .prepareMetadataPublication).2.Sound staged := by
  rw [perform]
  split
  · exact h
  · refine ⟨h.ram.same rfl rfl rfl rfl, h.space, h.views, h.handles, rfl, ?_, ?_⟩
    · intro t ht r ⟨a, ha, _⟩
      cases ht
      cases ha
    · intro t ht _ hm
      cases ht
      cases hm

lemma Sound.pinBacking (address size : Nat) :
    (m.perform (.pinBacking address size)).2.Sound staged := by
  refine h.keepView ?_
  intro v hop
  unfold AddressSpace.pinBacking at hop
  split at hop
  · cases hop
  rename_i hacc
  rw [not_eq_true, h.space.accessFails_iff] at hacc
  have hpages : ∀ i < size, ∃ page r, m.space.pages.find (address + i - (address + i) % pageSize) =
      some page ∧ page.Backed r ∧ r ∈ m.ram.regions := by
    intro i hi
    rcases hacc with hz | ⟨-, hacc⟩
    · omega
    · obtain ⟨page, hf, hio, -⟩ := hacc i hi
      obtain ⟨r, hb, hr⟩ := h.space.memory _ page hf hio
      exact ⟨page, r, hf, hb, hr⟩
  obtain ⟨out, hout, htargets, hin⟩ :=
    pinSlices_spec (P := (· ∈ m.ram.regions)) (Nat.le_refl size) hpages (forall_mem_nil _)
  rw [hout] at hop
  cases hop
  refine ⟨rfl, ?_, hin⟩
  show (slicesTargets out).length = size
  rw [htargets, slicesTargets, flatMap_nil, nil_append, length_targets]

lemma Sound.getD_view {index : Nat} (hs : (m.views.getD index {}).memory.isSome) :
    (m.views.getD index {}).targets.length = (m.views.getD index {}).size ∧
      ∀ s ∈ (m.views.getD index {}).slices, s.Inside ∧ s.region ∈ m.ram.regions := by
  rw [getD_eq_getElem?_getD] at *
  cases hv : m.views[index]? with
  | none =>
    rw [hv] at hs
    cases hs
  | some v => exact (h.views v (mem_of_getElem? hv)).2

lemma Sound.subview (index offset length : Nat) :
    (m.perform (.subview index offset length)).2.Sound staged := by
  refine h.keepView ?_
  intro v hop
  unfold MemoryView.subview at hop
  split at hop
  next hvalid =>
    cases hop
    have hvalid := of_decide_eq_true hvalid
    obtain ⟨hlen, hslices⟩ := h.getD_view hvalid.1
    refine ⟨hvalid.1, ?_, cut_inside hslices offset length⟩
    show (slicesTargets _).length = length
    rw [cut_targets, length_take, length_drop]
    unfold MemoryView.targets at hlen
    omega
  · cases hop

omit h

def stage (m : Machine) (staged : List (Nat × UInt8)) : Operation → List (Nat × UInt8)
  | .prepareMappings mappings patches =>
    match MappingTransaction.prepare m.space m.ram mappings patches with
    | (.error _, _) => staged
    | (.ok t, _) => patches.flatMap (BackingPatch.writes t.pages)
  | _ => staged

lemma Sound.prepareMappings (h : m.Sound staged) (mappings : List InitializedMapping)
    (patches : List BackingPatch) :
    (m.perform (.prepareMappings mappings patches)).2.Sound
    (m.stage staged (.prepareMappings mappings patches)) := by
  rw [perform, stage]
  cases hp : MappingTransaction.prepare m.space m.ram mappings patches with
  | mk result ram =>
    cases result with
    | error e =>
      have hpres := prepare_error h.ram hp
      exact h.withRam hpres.ok hpres.regions hpres.rest.2.2
    | ok t =>
      have hprep := prepare_ok h.ram h.space hp
      have hgrow := h.withRam hprep.preserves.ok hprep.preserves.regions hprep.preserves.rest.2.2
      refine ⟨hprep.preserves.ok.same rfl rfl rfl rfl, hgrow.space, hgrow.views, hgrow.handles,
        hprep.running.2, ?_, ?_⟩
      · intro t' ht' r hr
        cases ht'
        exact hprep.space.live_of_pageRegions hr
      · intro t' ht' _ _
        cases ht'
        exact ⟨hprep.space, hprep.patches⟩

lemma Sound.perform (h : m.Sound staged) {op : Operation} (ho : op.Owned m) :
    (m.perform op).2.Sound (m.stage staged op) := by
  cases op with
  | map address size permissions => exact h.map address size permissions
  | mapRegion address region offset size permissions => exact h.mapRegion ho
  | unmap address size => exact h.edit fun space hop => ⟨notRunning hop, h.space.unmap hop⟩
  | replaceAliases remove add =>
    exact h.edit fun space hop => ⟨notRunning hop, h.space.replaceAliases hop⟩
  | protect address size permissions =>
    exact h.edit fun space hop => ⟨notRunning hop, h.space.protect hop⟩
  | mapMmio address size callbacks =>
    exact h.edit fun space hop => ⟨notRunning hop, h.space.mapMmio hop⟩
  | unmapMmio address size => exact h.edit fun space hop => ⟨notRunning hop, h.space.unmapMmio hop⟩
  | prepareMappings mappings patches => exact h.prepareMappings mappings patches
  | prepareMetadataPublication => exact h.prepareMetadataPublication
  | commit => exact h.commit
  | drop => exact h.drop
  | read address n => exact h
  | write address data | writeBacking address data =>
    exact h.store fun ram hop => (h.space.write_ok hop).2
  | readBacking address n =>
    rw [Machine.perform]
    split
    · exact h
    · exact h
  | allocate size =>
    rw [Machine.perform]
    split
    · exact h
    next region ram halloc =>
      obtain ⟨-, hsound, hmem⟩ := h.allocate halloc
      exact hsound.withHandle hmem
  | releaseRegion index =>
    refine ⟨h.ram, h.space, h.views, ?_, h.running, h.pending, h.staged⟩
    intro r hr
    exact h.handles r (mem_of_mem_eraseIdx hr)
  | allocateBacking size =>
    rw [Machine.perform]
    split
    · exact h
    next region ram halloc =>
      obtain ⟨hal, hsound, hmem⟩ := h.allocate halloc
      refine hsound.withView rfl ?_ ?_
      · show (slicesTargets [⟨region, 0, size⟩]).length = size
        rw [slicesTargets_cons, length_append, MemorySlice.length_targets]
        rfl
      · intro s hs
        rw [mem_singleton.mp hs]
        refine ⟨?_, hmem⟩
        show 0 + size ≤ region.size
        rw [hal.owned.2, zero_add]
  | pinBacking address size => exact h.pinBacking address size
  | subview index offset length => exact h.subview index offset length
  | releaseView index =>
    refine ⟨h.ram, h.space, ?_, h.handles, h.running, h.pending, h.staged⟩
    intro v hv
    exact h.views v (mem_of_mem_eraseIdx hv)
  | readView index offset n => exact h
  | writeView index offset data =>
    refine h.store ?_
    intro ram hop
    unfold MemoryView.write at hop
    split at hop
    · cases hop
    split at hop
    · cases hop
    · cases hop
      exact ⟨_, rfl⟩

end Machine

end NeverD.Emulation
