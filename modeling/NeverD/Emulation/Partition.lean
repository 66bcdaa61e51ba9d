import NeverD.Emulation.Allocator
import NeverD.Lib.Intervals

namespace NeverD.Emulation.PhysicalMemory
open Lib.Intervals List PhysicalMemory

variable {size : Nat} {range : Nat × Nat} {ram' : PhysicalMemory}

def tiles (ram : PhysicalMemory) : List (Nat × Nat) :=
  ram.regions.map MemoryRegion.range ++ ram.free

/-- Every byte of the block lies in exactly one range, and no range reaches beyond it. -/
structure Tiled (ram : PhysicalMemory) : Prop where
  ok : ram.Ok
  spaced : ram.free.Pairwise Spaced
  once : ∀ p, ram.tiles.countP (covers p) = if p < ram.limit then 1 else 0
  used : ram.used = (ram.regions.map MemoryRegion.size).sum

theorem covers_split (p base first second : Nat) (l : List (Nat × Nat)) :
    ((base, first) :: (base + first, second) :: l).countP (covers p) =
      ((base, first + second) :: l).countP (covers p) := by
  simp only [countP_cons, covers, decide_eq_true_eq]
  split <;> split <;> split <;> omega

lemma covers_empty (p base : Nat) (l : List (Nat × Nat)) :
    ((base, 0) :: l).countP (covers p) = l.countP (covers p) := by
  apply countP_cons_of_neg
  simp only [covers, decide_eq_true_eq]
  omega

variable {ram : PhysicalMemory} {region : MemoryRegion} {before after : List (Nat × Nat)}

lemma emplaceFree_append (hbefore : ∀ f ∈ before, f.1 < range.1)
    (hafter : ∀ f ∈ after, range.1 ≤ f.1) :
    emplaceFree (before ++ after) range = before ++ range :: after := by
  have htake : after.takeWhile (fun f => decide (f.1 < range.1)) = [] := by
    cases after with
    | nil => rfl
    | cons f rest => exact takeWhile_cons_of_neg (by simpa using hafter f mem_cons_self)
  have hdrop : after.dropWhile (fun f => decide (f.1 < range.1)) = after := by
    cases after with
    | nil => rfl
    | cons f rest => exact dropWhile_cons_of_neg (by simpa using hafter f mem_cons_self)
  have hall : ∀ f ∈ before, decide (f.1 < range.1) = true :=
    fun f hf => decide_eq_true (hbefore f hf)
  unfold emplaceFree
  rw [takeWhile_append_of_pos hall, dropWhile_append_of_pos hall, htake, hdrop, append_nil]

def leave (size : Nat) (range : Nat × Nat) (rest : List (Nat × Nat)) : List (Nat × Nat) :=
  if size < range.2 then (range.1 + size, range.2 - size) :: rest else rest

lemma countP_leave {p : Nat} (hfit : size ≤ range.2) (rest : List (Nat × Nat)) :
    ((range.1, size) :: leave size range rest).countP (covers p) =
    (range :: rest).countP (covers p) := by
  have hsum : size + (range.2 - size) = range.2 := Nat.add_sub_cancel' hfit
  have hsplit := covers_split p range.1 size (range.2 - size) rest
  rw [hsum] at hsplit
  unfold leave
  split
  · exact hsplit
  · have hzero : range.2 - size = 0 := by omega
    rw [hzero] at hsplit
    rw [← hsplit, countP_cons, countP_cons, covers_empty]

lemma allocate_cases (hspaced : ram.free.Pairwise Spaced)
    (ha : ram.allocate size = .ok (region, ram')) :
    ∃ before range after, ram.free = before ++ range :: after ∧ size ≤ range.2 ∧
      region = ⟨ram.identity, range.1, size⟩ ∧ ram'.free = before ++ leave size range after ∧
      ram'.regions = region :: ram.regions ∧ ram'.used = ram.used + size ∧
      ram'.limit = ram.limit := by
  unfold allocate at ha
  split at ha
  · cases ha
  split at ha
  · cases ha
  split at ha
  · cases ha
  rename_i offset available hfind
  cases ha
  obtain ⟨hfit, before, after, hfree, hnone⟩ := find?_eq_some_iff_append.mp hfind
  have hfit : size ≤ available := by simpa using hfit
  rw [hfree] at hspaced
  obtain ⟨-, htail, hcross⟩ := pairwise_append.mp hspaced
  have hhead := (pairwise_cons.mp htail).1
  -- The first range that is large enough does not stand among those before it.
  have hfresh : (offset, available) ∉ before := by
    intro hmem
    have := hnone _ hmem
    simp only [Bool.not_eq_true', decide_eq_false_iff_not] at this
    exact this hfit
  have herase : ram.free.erase (offset, available) = before ++ after := by
    rw [hfree, erase_append_right _ hfresh, erase_cons_head]
  refine ⟨before, (offset, available), after, hfree, hfit, rfl, ?_, rfl, rfl, rfl⟩
  unfold leave
  rw [herase]
  split
  · apply emplaceFree_append
    · intro f hf
      have := hcross f hf (offset, available) mem_cons_self
      unfold Spaced at this
      dsimp only at *
      omega
    · intro f hf
      have := hhead f hf
      unfold Spaced at this
      dsimp only at *
      omega
  · rfl

lemma leave_spaced
    (h : (before ++ range :: after).Pairwise Spaced) :
    (before ++ leave size range after).Pairwise Spaced := by
  obtain ⟨hbefore, htail, hcross⟩ := pairwise_append.mp h
  obtain ⟨hhead, hafter⟩ := pairwise_cons.mp htail
  unfold leave
  split
  next hlt =>
    refine pairwise_append.mpr ⟨hbefore, pairwise_cons.mpr ⟨?_, hafter⟩, ?_⟩
    · intro f hf
      have := hhead f hf
      unfold Spaced at *
      omega
    · intro f hf g hg
      rcases mem_cons.mp hg with rfl | hg
      · have := hcross f hf range mem_cons_self
        unfold Spaced at *
        omega
      · exact hcross f hf g (mem_cons_of_mem _ hg)
  · exact pairwise_append.mpr ⟨hbefore, hafter,
      fun f hf g hg => hcross f hf g (mem_cons_of_mem _ hg)⟩

lemma Tiled.allocate (h : ram.Tiled) (ha : ram.allocate size = .ok (region, ram')) :
    ram'.Tiled := by
  obtain ⟨before, range, after, hfree, hfit, hregion, hfree', hregions, hused, hlimit⟩ :=
    allocate_cases h.spaced ha
  refine ⟨(h.ok.allocate ha).ok, ?_, ?_, ?_⟩
  · rw [hfree']
    apply leave_spaced
    rw [← hfree]
    exact h.spaced
  · intro p
    have hold :
        ram.tiles.Perm (range :: (ram.regions.map MemoryRegion.range ++ (before ++ after))) := by
      unfold tiles
      rw [hfree, ← append_assoc, ← append_assoc]
      exact perm_middle
    have hnew : ram'.tiles.Perm
        ((range.1, size) :: leave size range (ram.regions.map MemoryRegion.range ++
          (before ++ after))) := by
      unfold tiles
      rw [hfree', hregions, map_cons, hregion, cons_append]
      apply List.Perm.cons
      unfold leave
      split
      · rw [← append_assoc, ← append_assoc]
        exact perm_middle
      · exact .refl _
    rw [hnew.countP_eq, countP_leave hfit, ← hold.countP_eq, h.once p, hlimit]
  · rw [hused, h.used, hregions, map_cons, sum_cons, hregion, Nat.add_comm]

lemma joinPrevious_spec {offset : Nat} (size : Nat) (hs : before.Pairwise Spaced)
    (hend : ∀ f ∈ before, f.1 + f.2 ≤ offset) :
      ((joinPrevious before offset size).1).Pairwise Spaced ∧
      (∀ f ∈ (joinPrevious before offset size).1, Spaced f (joinPrevious before offset size).2) ∧
      (joinPrevious before offset size).2.1 + (joinPrevious before offset size).2.2 =
      offset + size ∧
      ∀ p l, ((joinPrevious before offset size).2 ::
        ((joinPrevious before offset size).1 ++ l)).countP (covers p) =
        ((offset, size) :: (before ++ l)).countP (covers p) := by
  rcases eq_nil_or_concat before with hnil | hlast
  · subst hnil
    exact ⟨.nil, forall_mem_nil _, rfl, fun _ _ => rfl⟩
  obtain ⟨front, last, hlast⟩ := hlast
  rw [concat_eq_append] at hlast
  subst hlast
  obtain ⟨hfront, -, hcross⟩ := pairwise_append.mp hs
  have hcross : ∀ f ∈ front, Spaced f last := fun f hf => hcross f hf last mem_cons_self
  have hat := hend last (mem_append_right _ mem_cons_self)
  unfold joinPrevious
  rw [getLast?_concat]
  dsimp only
  split
  next heq =>
    rw [dropLast_concat]
    refine ⟨hfront, hcross, by dsimp only; omega, ?_⟩
    intro p l
    have hperm : ((offset, size) :: (front ++ [last] ++ l)).Perm
        ((last.1, last.2) :: (offset, size) :: (front ++ l)) := by
      rw [append_assoc]
      apply (List.Perm.cons _ perm_middle).trans
      exact List.Perm.swap ..
    rw [hperm.countP_eq, ← heq, covers_split, Nat.add_comm]
  next hne =>
    refine ⟨hs, ?_, rfl, fun _ _ => rfl⟩
    intro f hf
    unfold Spaced
    dsimp only
    rcases mem_append.mp hf with hf | hf
    · have := hcross f hf
      unfold Spaced at this
      omega
    · rw [mem_singleton.mp hf]
      omega

lemma joinNext_spec {base length : Nat} (hs : after.Pairwise Spaced)
    (hstart : ∀ f ∈ after, base + length ≤ f.1) (hsize : ∀ f ∈ after, 0 < f.2) :
    ((joinNext base length after).1).Pairwise Spaced ∧
      (∀ f ∈ (joinNext base length after).1, Spaced (base, (joinNext base length after).2) f) ∧
      ∀ p l, ((base, (joinNext base length after).2) ::
        (l ++ (joinNext base length after).1)).countP (covers p) =
        ((base, length) :: (l ++ after)).countP (covers p) := by
  cases after with
  | nil => exact ⟨.nil, forall_mem_nil _, fun _ _ => rfl⟩
  | cons next rest =>
    obtain ⟨hhead, hrest⟩ := pairwise_cons.mp hs
    have hat := hstart next mem_cons_self
    rw [joinNext]
    split
    next heq =>
      refine ⟨hrest, ?_, ?_⟩
      · intro f hf
        have := hhead f hf
        unfold Spaced at *
        omega
      · intro p l
        have hperm : ((base, length) :: (l ++ next :: rest)).Perm ((base, length) :: next ::
            (l ++ rest)) :=
          List.Perm.cons _ perm_middle
        have hnext : next = (base + length, next.2) := by rw [heq]
        rw [hperm.countP_eq, hnext, covers_split]
    next hne =>
      refine ⟨hs, ?_, fun _ _ => rfl⟩
      intro f hf
      have hpos := hsize next mem_cons_self
      unfold Spaced
      rcases mem_cons.mp hf with hf | hf
      · rw [hf]
        omega
      · have := hhead f hf
        unfold Spaced at this
        omega

lemma Tiled.release (h : ram.Tiled) (hr : region ∈ ram.regions) : (ram.release region).Tiled := by
  have happ := h.ok.apart region hr
  have hpos := (h.ok.regionSize region hr).1
  have hbefore : ∀ f ∈ ram.free.filter (·.1 < region.offset), f.1 + f.2 ≤ region.offset := by
    intro f hf
    obtain ⟨hf, hlt⟩ := mem_filter.mp hf
    have := happ f hf
    unfold Apart MemoryRegion.range at this
    simp only [decide_eq_true_eq] at *
    omega
  have hafter : ∀ f ∈ ram.free.filter (region.offset ≤ ·.1), region.offset + region.size ≤ f.1 := by
    intro f hf
    obtain ⟨hf, hle⟩ := mem_filter.mp hf
    have := happ f hf
    have hsize := (h.ok.freeSize f hf).1
    unfold Apart MemoryRegion.range at this
    simp only [decide_eq_true_eq] at *
    omega
  have hsplit := ram.free_split region.offset
  have hsizes : ∀ f ∈ ram.free.filter (region.offset ≤ ·.1), 0 < f.2 :=
    fun f hf => (h.ok.freeSize f (mem_of_mem_filter hf)).1
  have hs₁ :=
    h.spaced.sublist (filter_sublist (p := fun f : Nat × Nat => decide (f.1 < region.offset)))
  have hs₂ :=
    h.spaced.sublist (filter_sublist (p := fun f : Nat × Nat => decide (region.offset ≤ f.1)))
  obtain ⟨hp, hpm, hend, hcount⟩ := joinPrevious_spec region.size hs₁ hbefore
  have hrel := ram.release_free region
  dsimp only at hrel
  generalize joinPrevious (ram.free.filter (·.1 < region.offset)) region.offset region.size = p at *
  have hstart : ∀ f ∈ ram.free.filter (region.offset ≤ ·.1), p.2.1 + p.2.2 ≤ f.1 := by
    intro f hf
    rw [hend]
    exact hafter f hf
  obtain ⟨hn, hnm, hcount'⟩ := joinNext_spec hs₂ hstart hsizes
  generalize joinNext p.2.1 p.2.2 (ram.free.filter (region.offset ≤ ·.1)) = q at *
  refine ⟨h.ok.release hr, ?_, ?_, ?_⟩
  · rw [hrel]
    refine pairwise_append.mpr ⟨hp, pairwise_cons.mpr ⟨hnm, hn⟩, ?_⟩
    intro f hf g hg
    have hfm := hpm f hf
    rcases mem_cons.mp hg with rfl | hg
    · exact hfm
    · have := hnm g hg
      unfold Spaced at *
      dsimp only at *
      omega
  · intro x
    have hold : ram.tiles.Perm (region.range :: (ram.free.filter (·.1 < region.offset) ++
        ((ram.regions.erase region).map MemoryRegion.range ++
          ram.free.filter (region.offset ≤ ·.1)))) := by
      have hregions := (perm_cons_erase hr).map MemoryRegion.range
      refine (hregions.append hsplit).trans (.cons _ ?_)
      show ((ram.regions.erase region).map MemoryRegion.range ++
        (ram.free.filter (·.1 < region.offset) ++ ram.free.filter (region.offset ≤ ·.1))).Perm _
      rw [← append_assoc, ← append_assoc]
      exact .append_right _ perm_append_comm
    have hnew : (ram.release region).tiles.Perm
        ((p.2.1, q.2) :: (((ram.regions.erase region).map MemoryRegion.range ++ p.1) ++ q.1)) := by
      unfold tiles
      rw [hrel, ← append_assoc]
      exact perm_middle
    have hmid : (p.2 :: (((ram.regions.erase region).map MemoryRegion.range ++ p.1) ++
          ram.free.filter (region.offset ≤ ·.1))).Perm
        (p.2 :: (p.1 ++ ((ram.regions.erase region).map MemoryRegion.range ++
          ram.free.filter (region.offset ≤ ·.1)))) := by
      apply List.Perm.cons
      rw [← append_assoc]
      exact .append_right _ perm_append_comm
    rw [hnew.countP_eq, hcount' x, hmid.countP_eq, hcount x]
    exact (hold.countP_eq _).symm.trans (h.once x)
  · have hperm := perm_cons_erase hr
    have hsum : ram.used = region.size +
        ((ram.regions.erase region).map MemoryRegion.size).sum := by
      rw [h.used, (hperm.map MemoryRegion.size).sum_nat, map_cons, sum_cons]
    show ram.used - region.size = ((ram.regions.erase region).map MemoryRegion.size).sum
    omega

lemma create_tiled {identity limit : Nat} (h : create identity limit = .ok ram) :
    ram.Tiled ∧ ram.limit = limit := by
  have hok := create_ok h
  unfold create at h
  split at h
  · cases h
  · cases h
    refine ⟨⟨hok, pairwise_singleton .., ?_, rfl⟩, rfl⟩
    intro p
    show [(0, limit)].countP (covers p) = _
    rw [countP_singleton]
    simp only [covers, Nat.zero_le, Nat.zero_add, true_and, decide_eq_true_eq]

/-- Owners ask for regions and give them up, and in between they store bytes and start and stop
transactions. -/
inductive Request
  | allocate (size : Nat)
  | destroy (region : MemoryRegion)
  | store (bytes : Nat → UInt8)
  | run (running : Bool)

/-- A refused allocation changes nothing; a region that is not in use has no destructor to run. -/
def serve (ram : PhysicalMemory) : Request → PhysicalMemory
  | .allocate size => match ram.allocate size with
    | .ok (_, ram') => ram'
    | .error _ => ram
  | .destroy region => if region ∈ ram.regions then ram.release region else ram
  | .store bytes => { ram with bytes := bytes }
  | .run running => { ram with running := running }

lemma Tiled.serve (h : ram.Tiled) (request : Request) : (ram.serve request).Tiled := by
  cases request with
  | allocate size =>
    unfold PhysicalMemory.serve
    dsimp only
    split
    next ha => exact h.allocate ha
    · exact h
  | destroy region =>
    unfold PhysicalMemory.serve
    dsimp only
    split
    next hr => exact h.release hr
    · exact h
  | store bytes => exact ⟨h.ok.same rfl rfl rfl rfl, h.spaced, h.once, h.used⟩
  | run running => exact ⟨h.ok.same rfl rfl rfl rfl, h.spaced, h.once, h.used⟩

lemma limit_serve (ram : PhysicalMemory) (request : Request) :
    (ram.serve request).limit = ram.limit := by
  cases request with
  | allocate size =>
    unfold serve
    dsimp only
    split
    next region ram' ha =>
      unfold allocate at ha
      split at ha
      · cases ha
      split at ha
      · cases ha
      split at ha
      · cases ha
      · cases ha
        rfl
    · rfl
  | destroy region =>
    unfold serve
    dsimp only
    split <;> rfl
  | store bytes => rfl
  | run running => rfl

def serveAll (ram : PhysicalMemory) (requests : List Request) : PhysicalMemory :=
  requests.foldl serve ram

lemma Tiled.serveAll (h : ram.Tiled) (requests : List Request) :
    (ram.serveAll requests).Tiled ∧ (ram.serveAll requests).limit = ram.limit := by
  induction requests generalizing ram with
  | nil => exact ⟨h, rfl⟩
  | cons request rest ih =>
    obtain ⟨htiled, hlimit⟩ := ih (h.serve request)
    exact ⟨htiled, hlimit.trans (limit_serve ram request)⟩

lemma allocate_memoryLimit_iff (ram : PhysicalMemory) (size : Nat) :
      ram.allocate size = .error .memoryLimit ↔
      ram.running = false ∧ 0 < size ∧ size % pageSize = 0 ∧ ∀ f ∈ ram.free, f.2 < size := by
  have hnone : (ram.free.find? fun range => decide (size ≤ range.2)) = none ↔
      ∀ f ∈ ram.free, f.2 < size := by
    rw [find?_eq_none]
    simp only [decide_eq_true_eq, not_le]
  unfold allocate
  rw [← hnone]
  split
  next hrun =>
    simp only [hrun, Bool.true_eq_false, false_and, iff_false]
    intro h
    cases h
  split
  next hsize =>
    constructor
    · intro h
      cases h
    · intro h
      omega
  rename_i hrun hsize
  cases hf : ram.free.find? fun range => decide (size ≤ range.2) with
  | none =>
    simp only [true_iff, and_true]
    exact ⟨by simpa using hrun, by omega, by omega⟩
  | some range =>
    constructor
    · intro h
      cases h
    · intro h
      cases h.2.2.2

theorem Allocated.byte (h : Allocated ram size region ram') :
      (∀ i, i < size → ram'.bytes (region.offset + i) = 0) ∧
      ∀ r ∈ ram.regions, ∀ i, i < r.size →
      ram'.bytes (r.offset + i) = ram.bytes (r.offset + i) := by
  rw [h.bytes]
  constructor
  · intro i hi
    exact if_pos ⟨Nat.le_add_right .., Nat.add_lt_add_left hi _⟩
  · intro r hr i hi
    have hap := h.fresh r hr
    have hsize := h.owned.2
    unfold Apart MemoryRegion.range at hap
    apply if_neg
    omega

/-- After any sequence of requests, in any order: every byte of the block lies in one region in use
or in one free range, free ranges are not empty and do not touch, the count is right, and a further
allocation takes zeroed bytes that are in no region, or fails because no free range is large
enough. -/
theorem allocator_partition {identity limit : Nat} {initial : PhysicalMemory}
    (hcreate : create identity limit = .ok initial) (requests : List Request) :
    (∀ p, (initial.serveAll requests).tiles.countP (covers p) = if p < limit then 1 else 0) ∧
      (∀ f ∈ (initial.serveAll requests).free, 0 < f.2) ∧
      (initial.serveAll requests).free.Pairwise (fun f g => f.1 + f.2 < g.1) ∧
      (initial.serveAll requests).used =
      ((initial.serveAll requests).regions.map MemoryRegion.size).sum ∧
      (∀ size region ram', (initial.serveAll requests).allocate size = .ok (region, ram') →
        region.size = size ∧ ram'.regions = region :: (initial.serveAll requests).regions ∧
        (∀ r ∈ (initial.serveAll requests).regions, Apart r.range region.range) ∧
        (∀ i, i < size → ram'.bytes (region.offset + i) = 0) ∧
        ∀ r ∈ (initial.serveAll requests).regions, ∀ i, i < r.size →
          ram'.bytes (r.offset + i) = (initial.serveAll requests).bytes (r.offset + i)) ∧
      ∀ size, (initial.serveAll requests).allocate size = .error .memoryLimit ↔
        (initial.serveAll requests).running = false ∧ 0 < size ∧ size % pageSize = 0 ∧
          ∀ f ∈ (initial.serveAll requests).free, f.2 < size := by
  obtain ⟨htiled₀, hlimit₀⟩ := create_tiled hcreate
  obtain ⟨htiled, hlimit⟩ := htiled₀.serveAll requests
  generalize initial.serveAll requests = ram at *
  refine ⟨?_, fun f hf => (htiled.ok.freeSize f hf).1, htiled.spaced, htiled.used, ?_,
    allocate_memoryLimit_iff ram⟩
  · intro p
    rw [htiled.once p, hlimit, hlimit₀]
  · intro size region ram' ha
    have hallocated := htiled.ok.allocate ha
    exact ⟨hallocated.owned.2, hallocated.regions, hallocated.fresh, hallocated.byte.1,
      hallocated.byte.2⟩

/-- Three pages and a byte, of which the second is in use and the first was given up: a page is
found before it, and two pages in a row are not. -/
theorem allocator_partition_run : ∃ initial ram, create 7 12289 = .ok initial ∧
    initial.serveAll [.allocate 4096, .allocate 4096, .destroy ⟨7, 0, 4096⟩] = ram ∧
      (∀ p, ram.tiles.countP (covers p) = if p < 12289 then 1 else 0) ∧
      ram.allocate 8192 = .error .memoryLimit ∧
      ∃ region ram', ram.allocate 4096 = .ok (region, ram') ∧
        (∀ r ∈ ram.regions, Apart r.range region.range) ∧
        ∀ i, i < 4096 → ram'.bytes (region.offset + i) = 0 := by
  obtain ⟨htiles, -, -, -, hallocate, hlimit⟩ :=
    allocator_partition (show create 7 12289 = .ok _ from rfl)
    [.allocate 4096, .allocate 4096, .destroy ⟨7, 0, 4096⟩]
  obtain ⟨-, -, hapart, hbytes, -⟩ := hallocate 4096 _ _ rfl
  exact ⟨_, _, rfl, rfl, htiles, (hlimit 8192).mpr (by decide), _, _, rfl, hapart, hbytes⟩

end NeverD.Emulation.PhysicalMemory
