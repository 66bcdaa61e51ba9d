import NeverD.Emulation.Ranges

namespace NeverD.Emulation
open Lib List AddressSpace

/-- `live` are the regions that exist. -/
structure SpaceOk (live : MemoryRegion → Prop) (space : AddressSpace) : Prop where
  used : space.used = pageSize * space.pages.size
  limit : space.used ≤ space.limit
  pages : ∀ a page, space.pages.find a = some page → a % pageSize = 0 ∧ a + pageSize ≤ 2 ^ 64
  memory : ∀ a page, space.pages.find a = some page → page.io = none → ∃ r, page.Backed r ∧ live r
  device : ∀ a page d, space.pages.find a = some page → page.io = some d → page.region = none ∧
    (d.address, d) ∈ space.devices ∧ a ∈ pageAddresses d.address d.size
  devices : ∀ e ∈ space.devices, e.1 = e.2.address ∧ Aligned e.2.address e.2.size ∧
    ∀ a ∈ pageAddresses e.2.address e.2.size, ∃ page, space.pages.find a = some page ∧
    page.io = some e.2
  deviceKeys : (space.devices.map Prod.fst).Nodup
  aliasPages : ∀ e ∈ space.aliases, Aligned e.1 e.2 ∧
    ∀ a ∈ pageAddresses e.1 e.2, ∃ page, space.pages.find a = some page ∧ page.io = none
  aliases : space.aliases.Pairwise Apart

variable {live live' : MemoryRegion → Prop} {space : AddressSpace}

lemma spaceOk_create {limit : Nat} (h : create limit = .ok space) : SpaceOk live space := by
  unfold create at h
  split at h
  · cases h
  · cases h
    exact ⟨rfl, Nat.zero_le _, fun _ _ h => (nomatch h), fun _ _ h => (nomatch h),
      fun _ _ _ h => (nomatch h), forall_mem_nil _, nodup_nil, forall_mem_nil _, .nil⟩

lemma SpaceOk.live_of_page (h : SpaceOk live space) {a : Nat} {page : Page} {r : MemoryRegion}
    (hp : space.pages.find a = some page) (hr : page.region = some r) : live r := by
  cases hio : page.io with
  | none =>
    obtain ⟨r', hb, hl⟩ := h.memory a page hp hio
    have heq : some r = some r' := hr.symm.trans hb.2.1
    cases heq
    exact hl
  | some d =>
    have hnone := (h.device a page d hp hio).1
    rw [hr] at hnone
    cases hnone

/-- The address stands for a byte of memory, with the permissions. -/
def Accessible (pages : Table Page) (permissions : Permissions) (a : Nat) : Prop :=
  ∃ page, pages.find (pageOf a) = some page ∧ page.io = none ∧
    page.permissions &&& permissions = permissions

variable {address size : Nat} {space' : AddressSpace} {aliases : List (Nat × Nat)}
    {permissions : Permissions}

variable (h : SpaceOk live space)
include h

lemma SpaceOk.overlapsDevice_iff (hs : 0 < size) : space.overlapsDevice address size = true ↔
      ∃ i < size, ∃ page d, space.pages.find (pageOf (address + i)) = some page ∧
        page.io = some d := by
  unfold overlapsDevice
  rw [decide_eq_true_eq, any_eq_true]
  constructor
  · intro ⟨_, e, he, hint⟩
    obtain ⟨hkey, hal, hpages⟩ := h.devices e he
    rw [hkey, intersects_iff hs hal.positive] at hint
    obtain ⟨a, ha, hb⟩ := hint
    obtain ⟨page, hpage, hio⟩ := hpages _ (hal.pageOf_mem.mpr hb)
    refine ⟨a - address, by omega, page, e.2, ?_, hio⟩
    rw [Nat.add_sub_cancel' ha.1]
    exact hpage
  · intro ⟨i, hi, page, d, hpage, hio⟩
    obtain ⟨-, hd, hmem⟩ := h.device _ page d hpage hio
    have hal := (h.devices _ hd).2.1
    refine ⟨ne_of_gt hs, (d.address, d), hd, ?_⟩
    rw [intersects_iff hs hal.positive]
    exact ⟨address + i, by omega, hal.pageOf_mem.mp hmem⟩

theorem SpaceOk.accessFails_iff {n : Nat} : space.accessFails address n permissions = false ↔
      n = 0 ∨ (address + n ≤ 2 ^ 64 ∧
        ∀ i < n, Accessible space.pages permissions (address + i)) := by
  have hp : ∀ va page, space.pages.find va = some page → va + pageSize ≤ 2 ^ 64 := fun a page hf =>
    (h.pages a page hf).2
  unfold accessFails
  rw [Bool.or_eq_false_iff, Option.isSome_eq_false_iff, Option.isNone_iff_eq_none,
    check_none_iff hp]
  by_cases hn : n = 0
  · subst hn
    simp [overlapsDevice]
  have hdev : space.overlapsDevice address n = true ↔
      ∃ i < n, ∃ page d, space.pages.find (pageOf (address + i)) = some page ∧ page.io = some d :=
    h.overlapsDevice_iff (Nat.pos_of_ne_zero hn)
  constructor
  · intro ⟨hcheck, hover⟩
    rcases hcheck with hz | ⟨hb, hperm⟩
    · exact absurd hz hn
    · refine .inr ⟨hb, ?_⟩
      intro i hi
      obtain ⟨page, hpage, hok⟩ := hperm i hi
      refine ⟨page, hpage, ?_, hok⟩
      cases hio : page.io with
      | none => rfl
      | some d =>
        rw [hdev.mpr ⟨i, hi, page, d, hpage, hio⟩] at hover
        cases hover
  · intro hor
    rcases hor with hz | ⟨hb, hacc⟩
    · exact absurd hz hn
    · refine ⟨.inr ⟨hb, fun i hi => ?_⟩, ?_⟩
      · obtain ⟨page, hpage, -, hok⟩ := hacc i hi
        exact ⟨page, hpage, hok⟩
      · rw [← Bool.not_eq_true, hdev]
        intro ⟨i, hi, page, d, hpage, hio⟩
        obtain ⟨page', hpage', hio', -⟩ := hacc i hi
        have heq : some page = some page' := hpage.symm.trans hpage'
        cases heq
        rw [hio] at hio'
        cases hio'

lemma SpaceOk.extend (hlive : ∀ r, live r → live' r) {pages : Table Page} {used : Nat}
    {N : Nat → Prop} (hold : ∀ a, ¬ N a → pages.find a = space.pages.find a)
    (hnew : ∀ a, N a → space.pages.find a = none ∧ a % pageSize = 0 ∧ a + pageSize ≤ 2 ^ 64 ∧
      ∃ page r, pages.find a = some page ∧ page.Backed r ∧ live' r)
    (hused : used = pageSize * pages.size) (hlimit : used ≤ space.limit) :
    SpaceOk live' { space with pages := pages, used := used } := by
  -- A page that was there is still there.
  have hkeep : ∀ {a page}, space.pages.find a = some page → pages.find a = some page := by
    intro a page hf
    rw [hold a, hf]
    intro ha
    rw [(hnew a ha).1] at hf
    cases hf
  refine ⟨hused, hlimit, ?_, ?_, ?_, ?_, h.deviceKeys, ?_, h.aliases⟩
  · intro a page hf
    by_cases ha : N a
    · exact ⟨(hnew a ha).2.1, (hnew a ha).2.2.1⟩
    · exact h.pages a page (hold a ha ▸ hf)
  · intro a page hf hio
    by_cases ha : N a
    · obtain ⟨page', r, hf', hb, hl⟩ := (hnew a ha).2.2.2
      have heq : some page = some page' := hf.symm.trans hf'
      cases heq
      exact ⟨r, hb, hl⟩
    · obtain ⟨r, hb, hl⟩ := h.memory a page (hold a ha ▸ hf) hio
      exact ⟨r, hb, hlive r hl⟩
  · intro a page d hf hio
    by_cases ha : N a
    · obtain ⟨page', r, hf', hb, -⟩ := (hnew a ha).2.2.2
      have heq : some page = some page' := hf.symm.trans hf'
      cases heq
      rw [hb.1] at hio
      cases hio
    · exact h.device a page d (hold a ha ▸ hf) hio
  · intro e he
    obtain ⟨h1, h2, h3⟩ := h.devices e he
    refine ⟨h1, h2, fun a ha => ?_⟩
    obtain ⟨page, hf, hio⟩ := h3 a ha
    exact ⟨page, hkeep hf, hio⟩
  · intro e he
    obtain ⟨h1, h2⟩ := h.aliasPages e he
    refine ⟨h1, fun a ha => ?_⟩
    obtain ⟨page, hf, hio⟩ := h2 a ha
    exact ⟨page, hkeep hf, hio⟩

theorem SpaceOk.shrink {pages : Table Page} {used : Nat}
    {G : Nat → Prop} (hold : ∀ a, ¬ G a → pages.find a = space.pages.find a)
    (hgone : ∀ a, G a → pages.find a = none ∧ ∀ page, space.pages.find a = some page →
    page.io = none) (haliases : ∀ e ∈ aliases, Aligned e.1 e.2 ∧ ∀ a ∈ pageAddresses e.1 e.2,
      ¬ G a ∧ ∃ page, space.pages.find a = some page ∧ page.io = none)
        (hpair : aliases.Pairwise Apart)
    (hused : used = pageSize * pages.size) (hle : used ≤ space.used) :
    SpaceOk live { space with pages := pages, used := used, aliases := aliases } := by
  -- A page that is left was there.
  have hback : ∀ {a page}, pages.find a = some page → space.pages.find a = some page := by
    intro a page hf
    rw [← hold a, hf]
    intro ha
    rw [(hgone a ha).1] at hf
    cases hf
  refine ⟨hused, hle.trans h.limit, ?_, ?_, ?_, ?_, h.deviceKeys, ?_, hpair⟩
  · exact fun a page hf => h.pages a page (hback hf)
  · exact fun a page hf hio => h.memory a page (hback hf) hio
  · exact fun a page d hf hio => h.device a page d (hback hf) hio
  · intro e he
    obtain ⟨h1, h2, h3⟩ := h.devices e he
    refine ⟨h1, h2, fun a ha => ?_⟩
    obtain ⟨page, hf, hio⟩ := h3 a ha
    refine ⟨page, ?_, hio⟩
    rw [hold a, hf]
    intro hg
    have := (hgone a hg).2 page hf
    rw [hio] at this
    cases this
  · intro e he
    obtain ⟨h1, h2⟩ := haliases e he
    refine ⟨h1, fun a ha => ?_⟩
    obtain ⟨hg, page, hf, hio⟩ := h2 a ha
    refine ⟨page, ?_, hio⟩
    rw [hold a hg, hf]

lemma SpaceOk.insertPages (hal : Aligned address size)
    (hfree : ∀ a ∈ pageAddresses address size, space.pages.find a = none)
    (hfit : size ≤ space.limit - space.used)
    {f : Nat → Page} (hf : ∀ a ∈ pageAddresses address size, ∃ r, (f a).Backed r ∧ live r) :
    SpaceOk live { space with
      pages := space.pages.insertAll ((pageAddresses address size).map fun a => (a, f a))
      used := space.used + size } := by
  have hkeys : ((pageAddresses address size).map fun a => (a, f a)).map Prod.fst =
      pageAddresses address size := by
    rw [map_map]
    exact map_id _
  have hnodup : (((pageAddresses address size).map fun a => (a, f a)).map Prod.fst).Nodup := by
    rw [hkeys]
    exact nodup_pageAddresses address size
  refine h.extend (fun _ hl => hl) (N := fun a => a ∈ pageAddresses address size) ?_ ?_ ?_ ?_
  · intro a ha
    apply Table.find_insertAll_of_notMem
    rw [hkeys]
    exact ha
  · intro a ha
    obtain ⟨hmod, hlow, hhigh⟩ := hal.mem_pageAddresses.mp ha
    obtain ⟨r, hb, hl⟩ := hf a ha
    refine ⟨hfree a ha, hmod, ?_, f a, r, ?_, hb, hl⟩
    · have := hal.bounded
      unfold pageSize at *
      omega
    · exact Table.find_insertAll_of_mem _ hnodup (mem_map_of_mem (f := fun a => (a, f a)) ha)
  · rw [Table.size_insertAll _ hnodup, h.used, length_map, mul_add, hal.length_pageAddresses]
    intro e he
    obtain ⟨a, ha, rfl⟩ := mem_map.mp he
    exact hfree a ha
  · have := h.limit
    omega

lemma SpaceOk.generation (g : Nat) : SpaceOk live { space with generation := g } :=
  ⟨h.used, h.limit, h.pages, h.memory, h.device, h.devices, h.deviceKeys, h.aliasPages, h.aliases⟩

omit h

lemma unmapped_of_any {pages : Table Page} {as : List Nat}
    (h : ¬ (as.any fun a => (pages.find a).isSome) = true) : ∀ a ∈ as, pages.find a = none := by
  intro a ha
  cases hf : pages.find a with
  | none => rfl
  | some page =>
    exact absurd (any_eq_true.mpr ⟨a, ha, by rw [hf]; rfl⟩) h

lemma SpaceOk.mapRegion (h : SpaceOk live space) {ram : PhysicalMemory} {offset : Nat}
    {region : Option MemoryRegion} (hlive : ∀ r, region = some r → r.owner = ram.identity → live r)
    (hop : space.mapRegion ram address region offset size permissions = .ok space') :
    SpaceOk live space' := by
  unfold AddressSpace.mapRegion at hop
  split at hop
  · cases hop
  split at hop
  · cases hop
  rename_i hvalid
  have hal := aligned_of_valid (not_not.mp hvalid)
  split at hop
  · cases hop
  rename_i r
  split at hop
  · cases hop
  rename_i hin
  split at hop
  · cases hop
  rename_i howner
  split at hop
  · cases hop
  rename_i hfit
  split at hop
  · cases hop
  rename_i hany
  cases hop
  refine (h.insertPages hal (unmapped_of_any hany) (not_lt.mp hfit) ?_).generation _
  intro a ha
  obtain ⟨hmod, hlow, hhigh⟩ := hal.mem_pageAddresses.mp ha
  refine ⟨r, ⟨rfl, rfl, ?_, ?_⟩, hlive r rfl (not_not.mp howner)⟩
  · dsimp only
    omega
  · have := hal.start
    have := hal.whole
    unfold pageSize at *
    dsimp only
    omega

lemma mem_emplace {β : Type} {entries : List (Nat × β)} {key : Nat} {value : β} {e : Nat × β}
    (h : e ∈ emplace entries key value) : e ∈ entries ∨ e = (key, value) := by
  unfold emplace at h
  split at h
  · exact .inl h
  · rcases mem_append.mp h with h | h
    · exact .inl h
    · exact .inr (mem_singleton.mp h)

lemma pairwise_emplace {entries : List (Nat × Nat)} {key value : Nat} (h : entries.Pairwise Apart)
    (hnew : ∀ e ∈ entries, Apart e (key, value)) : (emplace entries key value).Pairwise Apart := by
  unfold emplace
  split
  · exact h
  · refine pairwise_append.mpr ⟨h, pairwise_singleton .., ?_⟩
    intro e he f hf
    rw [mem_singleton.mp hf]
    exact hnew e he

theorem Aligned.apart {a b : Nat × Nat} (ha : Aligned a.1 a.2) (hb : Aligned b.1 b.2)
    (h : ∀ x ∈ pageAddresses a.1 a.2, x ∉ pageAddresses b.1 b.2) : Apart a b := by
  have hpos := ha.positive
  have hpos' := hb.positive
  by_contra hap
  unfold Apart at hap
  rw [not_or] at hap
  -- The larger of the two bases is a page of both.
  by_cases hle : a.1 ≤ b.1
  · exact h b.1 (ha.mem_pageAddresses.mpr ⟨hb.start, hle, by omega⟩)
      (hb.mem_pageAddresses.mpr ⟨hb.start, le_rfl, by omega⟩)
  · exact h a.1 (ha.mem_pageAddresses.mpr ⟨ha.start, le_rfl, by omega⟩)
      (hb.mem_pageAddresses.mpr ⟨ha.start, by omega, by omega⟩)

lemma Apart.pages {a b : Nat × Nat} (h : Apart a b) (ha : Aligned a.1 a.2) (hb : Aligned b.1 b.2)
    {x : Nat} (hx : x ∈ pageAddresses a.1 a.2) : x ∉ pageAddresses b.1 b.2 := by
  intro hx'
  have h1 := ha.mem_pageAddresses.mp hx
  have h2 := hb.mem_pageAddresses.mp hx'
  unfold Apart at h
  omega

lemma lookup_mem_entries {β : Type} {entries : List (Nat × β)} {key : Nat} {value : β}
    (h : entries.lookup key = some value) : (key, value) ∈ entries := by
  obtain ⟨before, behind, heq, -⟩ := lookup_eq_some_iff.mp h
  rw [heq]
  exact mem_append_right before mem_cons_self

theorem SpaceOk.erasePages (h : SpaceOk live space) (hal : Aligned address size)
    (hpages : ∀ a ∈ pageAddresses address size, ∃ page, space.pages.find a = some page ∧
    page.io = none) (haliases : ∀ e ∈ aliases, Aligned e.1 e.2 ∧ Apart e (address, size) ∧
      ∀ a ∈ pageAddresses e.1 e.2, ∃ page, space.pages.find a = some page ∧ page.io = none)
    (hpair : aliases.Pairwise Apart) :
    size ≤ space.used ∧ SpaceOk live { space with
      pages := space.pages.eraseAll (pageAddresses address size)
      used := space.used - size
      aliases := aliases } := by
  have hsize := space.pages.size_eraseAll (nodup_pageAddresses address size) fun a ha => by
    obtain ⟨page, hf, -⟩ := hpages a ha
    rw [hf]
    rfl
  have hused : space.used = pageSize * (space.pages.eraseAll (pageAddresses address size)).size +
      size := by
    rw [h.used, ← hsize, mul_add, hal.length_pageAddresses]
  refine ⟨by
    omega, h.shrink (G := fun a => a ∈ pageAddresses address size) ?_ ?_ ?_ hpair ?_ (by omega)⟩
  · intro a ha
    rw [Table.find_eraseAll, if_neg ha]
  · intro a ha
    refine ⟨by rw [Table.find_eraseAll, if_pos ha], ?_⟩
    intro page hf
    obtain ⟨page', hf', hio⟩ := hpages a ha
    have heq : some page = some page' := hf.symm.trans hf'
    cases heq
    exact hio
  · intro e he
    obtain ⟨h1, h2, h3⟩ := haliases e he
    exact ⟨h1, fun a ha => ⟨h2.pages h1 hal ha, h3 a ha⟩⟩
  · omega

lemma SpaceOk.removeAliases (h : SpaceOk live space) {remove : List GuestAliasRange}
    (hop : space.removeAliases remove = .ok space') :
    SpaceOk live space' ∧ space'.devices = space.devices ∧ space'.limit = space.limit ∧
      space'.generation = space.generation := by
  induction remove generalizing space with
  | nil =>
    cases hop
    exact ⟨h, rfl, rfl, rfl⟩
  | cons r rest ih =>
    rw [removeAliases] at hop
    split at hop
    · cases hop
    rename_i length hlookup
    split at hop
    · cases hop
    rename_i hsize
    have heq : length = r.size := not_not.mp hsize
    have hmem := lookup_mem_entries hlookup
    rw [heq] at hmem hop
    obtain ⟨hal, hpages⟩ := h.aliasPages _ hmem
    have hothers :=
      pairwise_cons.mp (((perm_cons_erase hmem).pairwise_iff fun hab => hab.symm).mp h.aliases)
    have hleft : ∀ e ∈ space.aliases.erase (r.address, r.size), Aligned e.1 e.2 ∧
        Apart e (r.address, r.size) ∧
        ∀ a ∈ pageAddresses e.1 e.2, ∃ page, space.pages.find a = some page ∧ page.io = none := by
      intro e he
      obtain ⟨h1, h2⟩ := h.aliasPages e (mem_of_mem_erase he)
      exact ⟨h1, (hothers.1 e he).symm, h2⟩
    obtain ⟨h1, h2, h3, h4⟩ := ih (h.erasePages hal hpages hleft hothers.2).2 hop
    exact ⟨h1, h2, h3, h4⟩

lemma aliasPages_ok {sources next next' : Table Page} {r : GuestAliasMapping} {as : List Nat}
    (hn : as.Nodup) (hop : aliasPages sources r as next = .ok next') :
    (∀ a ∈ as, next.find a = none ∧ ∃ page, sources.find (r.source + (a - r.address)) = some page ∧
      page.io = none) ∧ next' = next.insertAll (as.map fun a => (a,
        { (sources.find (r.source + (a - r.address))).getD {} with
          permissions := r.permissions })) := by
  induction as generalizing next with
  | nil =>
    cases hop
    exact ⟨forall_mem_nil _, rfl⟩
  | cons a as ih =>
    obtain ⟨hna, hn'⟩ := nodup_cons.mp hn
    rw [aliasPages] at hop
    split at hop
    · cases hop
    rename_i page hpage
    split at hop
    · cases hop
    rename_i hc
    rw [not_or, Bool.not_eq_true, Bool.not_eq_true, Option.isSome_eq_false_iff,
      Option.isSome_eq_false_iff, Option.isNone_iff_eq_none, Option.isNone_iff_eq_none] at hc
    obtain ⟨hall, heq⟩ := ih hn' hop
    constructor
    · intro b hb
      rcases mem_cons.mp hb with rfl | hb
      · exact ⟨hc.2, page, hpage, hc.1⟩
      · obtain ⟨hfree, hsource⟩ := hall b hb
        refine ⟨?_, hsource⟩
        have hne : b ≠ a := by
          intro h
          exact hna (h ▸ hb)
        rwa [Table.find_insert, if_neg hne] at hfree
    · rw [heq, map_cons, hpage]
      rfl

lemma SpaceOk.addAliases (h : SpaceOk live space) {sources : Table Page}
    (hsources : ∀ a page, sources.find a = some page → page.io = none → ∃ r, page.Backed r ∧ live r)
    {add : List GuestAliasMapping} (hop : addAliases sources space add = .ok space') :
    SpaceOk live space' ∧ space'.devices = space.devices ∧ space'.limit = space.limit := by
  induction add generalizing space with
  | nil =>
    cases hop
    exact ⟨h, rfl, rfl⟩
  | cons r rest ih =>
    rw [addAliases] at hop
    split at hop
    · cases hop
    rename_i hvalid
    rw [not_or, not_not, not_not] at hvalid
    have hal := aligned_of_valid hvalid.1
    split at hop
    · cases hop
    rename_i hfit
    split at hop
    · cases hop
    rename_i pages hpages
    obtain ⟨hall, heq⟩ := aliasPages_ok (nodup_pageAddresses ..) hpages
    subst heq
    have hins := h.insertPages hal (fun a ha => (hall a ha).1) (not_lt.mp hfit)
      (f := fun a => { (sources.find (r.source + (a - r.address))).getD {} with
          permissions := r.permissions })
      (fun a ha => by
        obtain ⟨page, hpage, hio⟩ := (hall a ha).2
        obtain ⟨q, hb, hl⟩ := hsources _ page hpage hio
        refine ⟨q, ?_, hl⟩
        rw [hpage]
        exact hb)
    have hnew : ∀ a ∈ pageAddresses r.address r.size, ∃ page, (space.pages.insertAll
        ((pageAddresses r.address r.size).map fun a =>
          (a, { (sources.find (r.source + (a - r.address))).getD {} with
          permissions := r.permissions }))).find a = some page ∧ page.io = none := by
      intro a ha
      obtain ⟨page, hpage, hio⟩ := (hall a ha).2
      refine ⟨_, Table.find_insertAll_of_mem _ (by
        rw [map_map]
        exact (map_id _).symm ▸ nodup_pageAddresses r.address r.size) (mem_map_of_mem ha), ?_⟩
      rw [hpage]
      exact hio
    have hstep : SpaceOk live { space with
        pages := space.pages.insertAll ((pageAddresses r.address r.size).map fun a => (a,
          { (sources.find (r.source + (a - r.address))).getD {} with
              permissions := r.permissions }))
        used := space.used + r.size
        aliases := emplace space.aliases r.address r.size } := by
      refine ⟨hins.used, hins.limit, hins.pages, hins.memory, hins.device, hins.devices,
        hins.deviceKeys, ?_, ?_⟩
      · intro e he
        rcases mem_emplace he with he | rfl
        · exact hins.aliasPages e he
        · exact ⟨hal, hnew⟩
      · apply pairwise_emplace h.aliases
        intro e he
        obtain ⟨h1, h2⟩ := h.aliasPages e he
        -- The pages of an older alias are there, those of the new one were not.
        apply h1.apart hal
        intro a ha ha'
        obtain ⟨page, hpage, -⟩ := h2 a ha
        rw [(hall a ha').1] at hpage
        cases hpage
    obtain ⟨h1, h2, h3⟩ := ih hstep hop
    exact ⟨h1, h2, h3⟩

lemma SpaceOk.replaceAliases (h : SpaceOk live space) {ram : PhysicalMemory}
    {remove : List AddressSpace.GuestAliasRange} {add : List AddressSpace.GuestAliasMapping}
    (hop : space.replaceAliases ram remove add = .ok space') : SpaceOk live space' := by
  unfold AddressSpace.replaceAliases at hop
  split at hop
  · cases hop
  split at hop
  · cases hop
  rename_i next hremove
  split at hop
  · cases hop
  rename_i next' hadd
  cases hop
  have hnext := (h.removeAliases hremove).1
  exact (hnext.addAliases hnext.memory hadd).1.generation _

structure Fragment (address size : Nat) (e k : Nat × Nat) : Prop where
  aligned : Aligned k.1 k.2
  apart : Apart k (address, size)
  low : e.1 ≤ k.1
  high : k.1 + k.2 ≤ e.1 + e.2

lemma Fragment.apart_of {e k x : Nat × Nat} (h : Fragment address size e k) (hx : Apart x e) :
    Apart x k := hx.part h.low h.high

theorem cutAlias_spec (hal : Aligned address size) {kept : List (Nat × Nat)} {e : Nat × Nat}
    (he : Aligned e.1 e.2) (hpair : kept.Pairwise Apart) (hkept : ∀ k ∈ kept, Apart k e) :
    (cutAlias address size kept e).Pairwise Apart ∧
      ∀ k ∈ cutAlias address size kept e, k ∈ kept ∨ Fragment address size e k := by
  have hpos := hal.positive
  have hstart := hal.start
  have hwhole := hal.whole
  have hepos := he.positive
  have hestart := he.start
  have hewhole := he.whole
  have hbound := he.bounded
  unfold cutAlias
  split
  · -- The alias does not meet the range.
    rename_i hno
    have hfrag : Fragment address size e (e.1, e.2) := by
      refine ⟨he, ?_, le_rfl, le_rfl⟩
      unfold intersects at hno
      unfold Apart
      dsimp only
      split at hno
      · have := of_decide_eq_false (Bool.not_eq_true _ ▸ hno)
        omega
      · have := of_decide_eq_false (Bool.not_eq_true _ ▸ hno)
        omega
    refine ⟨pairwise_emplace hpair hkept, ?_⟩
    intro k hk
    rcases mem_emplace hk with hk | rfl
    · exact .inl hk
    · exact .inr hfrag
  next hyes =>
    have hmeet := (intersects_iff hpos hepos).mp (not_not.mp hyes)
    dsimp only
    -- The part below the range.
    have hleft : e.1 < address → Fragment address size e (e.1, address - e.1) := by
      intro hlt
      refine ⟨⟨?_, hestart, ?_, ?_⟩, ?_, le_rfl, ?_⟩
      all_goals
        unfold Apart pageSize at *
        dsimp only at *
        omega
    have hfirst : (if e.1 < address then emplace kept e.1 (address - e.1)
        else kept).Pairwise Apart ∧
        ∀ k ∈ (if e.1 < address then emplace kept e.1 (address - e.1) else kept),
          k ∈ kept ∨ (k = (e.1, address - e.1) ∧ e.1 < address) := by
      split
      next hlt =>
        refine ⟨pairwise_emplace hpair fun k hk => (hleft hlt).apart_of (hkept k hk), ?_⟩
        intro k hk
        rcases mem_emplace hk with hk | rfl
        · exact .inl hk
        · exact .inr ⟨rfl, hlt⟩
      · exact ⟨hpair, fun k hk => .inl hk⟩
    generalize (if e.1 < address then emplace kept e.1 (address - e.1) else kept) = kept' at hfirst
    have hmem : ∀ k ∈ kept', k ∈ kept ∨ Fragment address size e k := by
      intro k hk
      rcases hfirst.2 k hk with hk | ⟨rfl, hlt⟩
      · exact .inl hk
      · exact .inr (hleft hlt)
    generalize hr : (if address ≤ e.1 then min e.2 (size - (e.1 - address))
      else address - e.1 + min size (e.2 - (address - e.1))) = removed
    split
    next hlt =>
      -- The part above the range starts where the range ends.
      have hend : e.1 + removed = address + size := by
        split at hr
        · omega
        · omega
      have hright : Fragment address size e (e.1 + removed, e.2 - removed) := by
        refine ⟨⟨?_, ?_, ?_, ?_⟩, ?_, ?_, ?_⟩
        all_goals
          unfold Apart pageSize at *
          dsimp only at *
          omega
      refine ⟨pairwise_emplace hfirst.1 ?_, ?_⟩
      · intro k hk
        rcases hfirst.2 k hk with hk | ⟨rfl, hlow⟩
        · exact hright.apart_of (hkept k hk)
        · left
          omega
      · intro k hk
        rcases mem_emplace hk with hk | rfl
        · exact hmem k hk
        · exact .inr hright
    · exact ⟨hfirst.1, hmem⟩

lemma foldl_cutAlias (hal : Aligned address size) {kept : List (Nat × Nat)}
    (haliases : ∀ e ∈ aliases, Aligned e.1 e.2) (hap : aliases.Pairwise Apart)
    (hpair : kept.Pairwise Apart) (hkept : ∀ k ∈ kept, ∀ e ∈ aliases, Apart k e) :
    (aliases.foldl (cutAlias address size) kept).Pairwise Apart ∧
        ∀ k ∈ aliases.foldl (cutAlias address size) kept,
        k ∈ kept ∨ ∃ e ∈ aliases, Fragment address size e k := by
  induction aliases generalizing kept with
  | nil => exact ⟨hpair, fun k hk => .inl hk⟩
  | cons e aliases ih =>
    obtain ⟨hhead, htail⟩ := pairwise_cons.mp hap
    obtain ⟨h1, h2⟩ :=
      cutAlias_spec hal (haliases e mem_cons_self) hpair fun k hk => hkept k hk e mem_cons_self
    have hnext : ∀ k ∈ cutAlias address size kept e, ∀ x ∈ aliases, Apart k x := by
      intro k hk x hx
      rcases h2 k hk with hk | hfrag
      · exact hkept k hk x (mem_cons_of_mem e hx)
      · exact (hfrag.apart_of (hhead x hx).symm).symm
    obtain ⟨h3, h4⟩ := ih (fun x hx => haliases x (mem_cons_of_mem e hx)) htail h1 hnext
    refine ⟨h3, ?_⟩
    intro k hk
    rcases h4 k hk with hk | ⟨x, hx, hfrag⟩
    · rcases h2 k hk with hk | hfrag
      · exact .inl hk
      · exact .inr ⟨e, mem_cons_self, hfrag⟩
    · exact .inr ⟨x, mem_cons_of_mem e hx, hfrag⟩

theorem SpaceOk.memory_of_check (h : SpaceOk live space)
    (hal : Aligned address size) (hcheck : space.accessFails address size permissions = false) :
    ∀ a ∈ pageAddresses address size, ∃ page, space.pages.find a = some page ∧ page.io = none := by
  intro a ha
  obtain ⟨hmod, hlow, hhigh⟩ := hal.mem_pageAddresses.mp ha
  rcases h.accessFails_iff.mp hcheck with hz | ⟨-, hacc⟩
  · exact absurd hz (ne_of_gt hal.positive)
  · obtain ⟨page, hf, hio, -⟩ := hacc (a - address) (by omega)
    rw [Nat.add_sub_cancel' hlow] at hf
    have hself : pageOf a = a := by
      unfold pageOf
      omega
    rw [hself] at hf
    exact ⟨page, hf, hio⟩

lemma SpaceOk.unmap (h : SpaceOk live space) {ram : PhysicalMemory}
    (hop : space.unmap ram address size = .ok space') : SpaceOk live space' := by
  unfold AddressSpace.unmap at hop
  split at hop
  · cases hop
  split at hop
  · cases hop
  rename_i hc
  rw [not_or, not_not, not_or] at hc
  cases hop
  have hal := aligned_of_valid hc.1
  have hcheck : space.accessFails address size 0 = false := by
    unfold AddressSpace.accessFails
    rw [Bool.or_eq_false_iff]
    exact ⟨Bool.not_eq_true _ ▸ hc.2.1, Bool.not_eq_true _ ▸ hc.2.2⟩
  obtain ⟨hpair, hfrag⟩ :=
    foldl_cutAlias hal (fun e he => (h.aliasPages e he).1) h.aliases List.Pairwise.nil
    (forall_mem_nil _)
  have hleft : ∀ k ∈ AddressSpace.withoutRange address size space.aliases, Aligned k.1 k.2 ∧
      Apart k (address, size) ∧ ∀ a ∈ pageAddresses k.1 k.2, ∃ page,
      space.pages.find a = some page ∧ page.io = none := by
    intro k hk
    rcases hfrag k hk with hk | ⟨e, he, hf⟩
    · cases hk
    · refine ⟨hf.aligned, hf.apart, fun a ha => ?_⟩
      obtain ⟨h1, h2⟩ := h.aliasPages e he
      obtain ⟨hmod, hlow, hhigh⟩ := hf.aligned.mem_pageAddresses.mp ha
      have hl := hf.low
      have hh := hf.high
      exact h2 a (h1.mem_pageAddresses.mpr ⟨hmod, by omega, by omega⟩)
  exact (h.erasePages hal (h.memory_of_check hal hcheck) hleft hpair).2.generation _

end NeverD.Emulation
