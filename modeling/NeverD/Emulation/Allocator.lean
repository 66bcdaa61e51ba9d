import NeverD.Emulation.Transfer

namespace NeverD.Emulation
open Lib List

def Apart (a b : Nat × Nat) : Prop := a.1 + a.2 ≤ b.1 ∨ b.1 + b.2 ≤ a.1

lemma Apart.symm {a b : Nat × Nat} (h : Apart a b) : Apart b a := Or.symm h

def MemoryRegion.range (r : MemoryRegion) : Nat × Nat := (r.offset, r.size)

theorem Apart.join {x : Nat × Nat} {base first second : Nat} (hx : 0 < x.2)
    (h : Apart x (base, first))
    (h' : Apart x (base + first, second)) : Apart x (base, first + second) := by
  unfold Apart at *
  dsimp only at *
  omega

lemma Apart.part {x : Nat × Nat} {base length offset size : Nat} (h : Apart x (base, length))
    (hlow : base ≤ offset) (hhigh : offset + size ≤ base + length) : Apart x (offset, size) := by
  unfold Apart at *
  dsimp only at *
  omega

namespace PhysicalMemory

structure Ok (ram : PhysicalMemory) : Prop where
  free : ram.free.Pairwise Apart
  freeSize : ∀ f ∈ ram.free, 0 < f.2 ∧ f.1 + f.2 ≤ ram.limit
  regions : ram.regions.Pairwise fun a b => Apart a.range b.range
  regionSize : ∀ r ∈ ram.regions, 0 < r.size ∧ r.offset + r.size ≤ ram.limit ∧
    r.owner = ram.identity
  apart : ∀ r ∈ ram.regions, ∀ f ∈ ram.free, Apart r.range f

variable {ram : PhysicalMemory}

lemma create_ok {identity limit : Nat} (h : create identity limit = .ok ram) : ram.Ok := by
  unfold create at h
  split at h
  · cases h
  next hc =>
    cases h
    refine ⟨pairwise_singleton .., ?_, .nil, forall_mem_nil _, forall_mem_nil _⟩
    intro f hf
    rw [mem_singleton.mp hf]
    dsimp only
    omega

lemma mem_emplaceFree {free : List (Nat × Nat)} {range f : Nat × Nat} :
    f ∈ emplaceFree free range ↔ f = range ∨ f ∈ free := by
  unfold emplaceFree
  conv_rhs =>
    rw [← takeWhile_append_dropWhile (p := fun x : Nat × Nat => decide (x.1 < range.1)) (l := free)]
  simp only [mem_append, mem_cons]
  tauto

lemma pairwise_emplaceFree {free : List (Nat × Nat)} {range : Nat × Nat} (h : free.Pairwise Apart)
    (hr : ∀ f ∈ free, Apart f range) : (emplaceFree free range).Pairwise Apart := by
  have hperm : (emplaceFree free range).Perm (range :: free) := by
    refine perm_middle.trans ?_
    rw [takeWhile_append_dropWhile]
  rw [hperm.pairwise_iff fun hab => hab.symm]
  exact pairwise_cons.mpr ⟨fun f hf => (hr f hf).symm, h⟩

lemma Ok.erase_free (h : ram.Ok) {f g : Nat × Nat} (hf : f ∈ ram.free)
    (hg : g ∈ ram.free.erase f) : g ∈ ram.free ∧ Apart f g := by
  refine ⟨mem_of_mem_erase hg, ?_⟩
  have hperm := perm_cons_erase hf
  have hpair := (hperm.pairwise_iff fun hab => hab.symm).mp h.free
  exact (pairwise_cons.mp hpair).1 g hg

structure Allocated (ram : PhysicalMemory) (size : Nat) (region : MemoryRegion)
    (ram' : PhysicalMemory) : Prop where
  ok : ram'.Ok
  owned : region.owner = ram.identity ∧ region.size = size
  positive : 0 < size ∧ size % pageSize = 0
  regions : ram'.regions = region :: ram.regions
  fresh : ∀ r ∈ ram.regions, Apart r.range region.range
  bytes : ram'.bytes = zeroFill ram.bytes region.offset size
  rest : ram'.identity = ram.identity ∧ ram'.limit = ram.limit ∧ ram'.running = false ∧
    ram.running = false

lemma Ok.allocate {ram' : PhysicalMemory} {size : Nat} {region : MemoryRegion} (h : ram.Ok)
    (ha : ram.allocate size = .ok (region, ram')) : Allocated ram size region ram' := by
  unfold PhysicalMemory.allocate at ha
  split at ha
  · cases ha
  split at ha
  · cases ha
  rename_i hrun hsize
  split at ha
  · cases ha
  rename_i offset available hfind
  cases ha
  have hmem : (offset, available) ∈ ram.free := mem_of_find?_eq_some hfind
  have hfit : size ≤ available := by simpa using find?_some hfind
  obtain ⟨hpos, hlimit⟩ := h.freeSize _ hmem
  have hs : 0 < size ∧ size % pageSize = 0 := by omega
  have hrest : ∀ f ∈ ram.free.erase (offset, available), f ∈ ram.free ∧
      Apart (offset, available) f :=
    fun f hf => h.erase_free hmem hf
  -- Every free range afterwards is an old one, or what is left of the one that was taken.
  have hfree : ∀ f ∈ (if size < available then emplaceFree (ram.free.erase (offset, available))
      (offset + size, available - size) else ram.free.erase (offset, available)),
      (f ∈ ram.free ∧ Apart (offset, available) f) ∨
        (f = (offset + size, available - size) ∧ size < available) := by
    intro f hf
    split at hf
    next hlt =>
      rcases mem_emplaceFree.mp hf with rfl | hf
      · exact .inr ⟨rfl, hlt⟩
      · exact .inl (hrest f hf)
    · exact .inl (hrest f hf)
  have hfresh : ∀ r ∈ ram.regions, Apart r.range (offset, size) := fun r hr =>
    (h.apart r hr _ hmem).part le_rfl (by omega)
  refine ⟨⟨?_, ?_, ?_, ?_, ?_⟩, ⟨rfl, rfl⟩, hs, rfl, hfresh, rfl, ⟨rfl, rfl, ?_, ?_⟩⟩
  · have hpair : (ram.free.erase (offset, available)).Pairwise Apart := h.free.sublist erase_sublist
    split
    · apply pairwise_emplaceFree hpair
      intro f hf
      exact (hrest f hf).2.symm.part (Nat.le_add_right ..) (by omega)
    · exact hpair
  · intro f hf
    rcases hfree f hf with ⟨hold, -⟩ | ⟨rfl, hlt⟩
    · exact h.freeSize f hold
    · dsimp only
      omega
  · refine pairwise_cons.mpr ⟨fun r hr => (hfresh r hr).symm, h.regions⟩
  · intro r hr
    rcases mem_cons.mp hr with rfl | hr
    · dsimp only
      omega
    · exact h.regionSize r hr
  · intro r hr f hf
    rcases mem_cons.mp hr with rfl | hr
    · rcases hfree f hf with ⟨-, hap⟩ | ⟨rfl, -⟩
      · exact (hap.symm.part (Nat.le_refl offset) (Nat.add_le_add_left hfit offset)).symm
      · exact .inl le_rfl
    · rcases hfree f hf with ⟨hold, -⟩ | ⟨rfl, -⟩
      · exact h.apart r hr f hold
      · exact (h.apart r hr _ hmem).part (Nat.le_add_right ..) (by omega)
  · simpa using hrun
  · simpa using hrun

/-- A released range is joined to ranges next to it: whatever is apart from all of them is apart
from the result. -/
structure Joined (old : Nat × Nat) (joined : List (Nat × Nat)) (m : Nat × Nat) : Prop where
  apart : ∀ x : Nat × Nat, 0 < x.2 → Apart x old → (∀ f ∈ joined, Apart x f) → Apart x m
  size : old.2 ≤ m.2
  limit : ∀ n, old.1 + old.2 ≤ n → (∀ f ∈ joined, f.1 + f.2 ≤ n) → m.1 + m.2 ≤ n

lemma Joined.nothing (m : Nat × Nat) : Joined m [] m :=
  ⟨fun _ _ h _ => h, le_rfl, fun _ h _ => h⟩

lemma joinPrevious_joined (before : List (Nat × Nat)) (offset size : Nat) :
    ∃ joined, before.Perm (joined ++ (joinPrevious before offset size).1) ∧
      Joined (offset, size) joined (joinPrevious before offset size).2 := by
  unfold joinPrevious
  split
  next previous hlast =>
    split
    next heq =>
      refine ⟨[previous], ?_, ?_, ?_, ?_⟩
      · have hsplit := dropLast_append_getLast? previous hlast
        conv_lhs => rw [← hsplit]
        exact perm_append_comm
      · intro x hx hap hjoined
        have hprev : Apart x (previous.1, previous.2) := hjoined previous mem_cons_self
        rw [← heq] at hap
        have := hprev.join hx hap
        rwa [Nat.add_comm] at this
      · exact Nat.le_add_right ..
      · intro n hn hf
        dsimp only at *
        omega
    · exact ⟨[], .refl _, .nothing _⟩
  · exact ⟨[], .refl _, .nothing _⟩

lemma joinNext_joined (base length : Nat) (after : List (Nat × Nat)) :
    ∃ joined, after.Perm (joined ++ (joinNext base length after).1) ∧
      Joined (base, length) joined (base, (joinNext base length after).2) := by
  cases after with
  | nil => exact ⟨[], .refl _, .nothing _⟩
  | cons next rest =>
    rw [joinNext]
    split
    next heq =>
      refine ⟨[next], .refl _, ?_, ?_, ?_⟩
      · intro x hx hap hjoined
        have hnext : Apart x (next.1, next.2) := hjoined next mem_cons_self
        rw [← heq] at hnext
        exact hap.join hx hnext
      · exact Nat.le_add_right ..
      · intro n hn hf
        have := hf next mem_cons_self
        dsimp only at *
        omega
    · exact ⟨[], .refl _, .nothing _⟩

lemma free_split (ram : PhysicalMemory) (offset : Nat) :
    ram.free.Perm (ram.free.filter (·.1 < offset) ++ ram.free.filter (offset ≤ ·.1)) := by
  have hnot : (fun f : Nat × Nat => decide (offset ≤ f.1)) = fun f => !decide (f.1 < offset) := by
    funext f
    rw [← decide_not]
    exact decide_eq_decide.mpr Nat.not_lt.symm
  rw [hnot]
  exact (filter_append_perm _ _).symm

lemma release_free (ram : PhysicalMemory) (region : MemoryRegion) : (ram.release region).free =
    let p := joinPrevious (ram.free.filter (·.1 < region.offset)) region.offset region.size
    let q := joinNext p.2.1 p.2.2 (ram.free.filter (region.offset ≤ ·.1))
    p.1 ++ (p.2.1, q.2) :: q.1 := rfl

/-- The free ranges after a release: one new range, and those it was not joined to. -/
theorem release_joined (ram : PhysicalMemory) (region : MemoryRegion) :
    ∃ joined rest m, ram.free.Perm (joined ++ rest) ∧ (ram.release region).free.Perm (m :: rest) ∧
      Joined region.range joined m := by
  have hsplit := ram.free_split region.offset
  obtain ⟨j₁, hp₁, h₁⟩ :=
    joinPrevious_joined (ram.free.filter (·.1 < region.offset)) region.offset region.size
  have hrel := ram.release_free region
  dsimp only at hrel
  generalize joinPrevious (ram.free.filter (·.1 < region.offset)) region.offset region.size =
    p at hp₁ h₁ hrel
  obtain ⟨j₂, hp₂, h₂⟩ := joinNext_joined p.2.1 p.2.2 (ram.free.filter (region.offset ≤ ·.1))
  generalize joinNext p.2.1 p.2.2 (ram.free.filter (region.offset ≤ ·.1)) = q at hp₂ h₂ hrel
  refine ⟨j₁ ++ j₂, p.1 ++ q.1, (p.2.1, q.2), ?_, ?_, ?_, ?_, ?_⟩
  · refine hsplit.trans ((hp₁.append hp₂).trans ?_)
    rw [append_assoc, append_assoc]
    apply List.Perm.append_left
    rw [← append_assoc, ← append_assoc]
    exact .append_right _ perm_append_comm
  · rw [hrel]
    exact perm_middle
  · intro x hx hap hjoined
    apply h₂.apart x hx
    · exact h₁.apart x hx hap fun f hf => hjoined f (mem_append_left _ hf)
    · exact fun f hf => hjoined f (mem_append_right _ hf)
  · exact h₁.size.trans h₂.size
  · intro n hn hf
    apply h₂.limit n
    · exact h₁.limit n hn fun f hm => hf f (mem_append_left _ hm)
    · exact fun f hm => hf f (mem_append_right _ hm)

lemma Ok.release (h : ram.Ok) {region : MemoryRegion} (hr : region ∈ ram.regions) :
    (ram.release region).Ok := by
  obtain ⟨joined, rest, m, hsplit, hresult, hj⟩ := release_joined ram region
  obtain ⟨hsize, hlimit, -⟩ := h.regionSize region hr
  have hmem : ∀ f ∈ (ram.release region).free, f = m ∨ f ∈ rest := fun f hf =>
    mem_cons.mp (hresult.mem_iff.mp hf)
  have hrest : ∀ f ∈ rest, f ∈ ram.free := fun f hf => hsplit.mem_iff.mpr (mem_append_right _ hf)
  have hjoined : ∀ f ∈ joined, f ∈ ram.free := fun f hf => hsplit.mem_iff.mpr (mem_append_left _ hf)
  have hpair := pairwise_append.mp ((hsplit.pairwise_iff fun hab => hab.symm).mp h.free)
  have hothers :=
    pairwise_cons.mp (((perm_cons_erase hr).pairwise_iff fun hab => hab.symm).mp h.regions)
  refine ⟨?_, ?_, hothers.2, ?_, ?_⟩
  · rw [hresult.pairwise_iff fun hab => hab.symm]
    refine pairwise_cons.mpr ⟨fun f hf => .symm ?_, hpair.2.1⟩
    apply hj.apart f (h.freeSize f (hrest f hf)).1 (h.apart region hr f (hrest f hf)).symm
    exact fun g hg => (hpair.2.2 g hg f hf).symm
  · intro f hf
    rcases hmem f hf with rfl | hf
    · refine ⟨hsize.trans_le hj.size, ?_⟩
      exact hj.limit ram.limit hlimit fun g hg => (h.freeSize g (hjoined g hg)).2
    · exact h.freeSize f (hrest f hf)
  · exact fun r hm => h.regionSize r (mem_of_mem_erase hm)
  · intro r hm f hf
    have hold := mem_of_mem_erase hm
    rcases hmem f hf with rfl | hf
    · apply hj.apart r.range (h.regionSize r hold).1 (hothers.1 r hm).symm
      exact fun g hg => h.apart r hold g (hjoined g hg)
    · exact h.apart r hold f (hrest f hf)

lemma Ok.same {ram' : PhysicalMemory} (h : ram.Ok) (hf : ram'.free = ram.free)
    (hr : ram'.regions = ram.regions) (hl : ram'.limit = ram.limit)
    (hi : ram'.identity = ram.identity) : ram'.Ok := by
  refine ⟨hf ▸ h.free, ?_, hr ▸ h.regions, ?_, ?_⟩
  · rw [hf, hl]
    exact h.freeSize
  · rw [hr, hl, hi]
    exact h.regionSize
  · rw [hr, hf]
    exact h.apart

end PhysicalMemory

end NeverD.Emulation
