import NeverD.Emulation.Machine

namespace NeverD.Emulation
open Lib List Function MemoryView AddressSpace

variable {n offset : Nat} {P : MemoryRegion → Prop}

inductive Event
  | allocated (offset size : Nat)
  | wrote (offset : Nat) (value : UInt8)

/-- The last value that was written to a byte since its allocation, from the newest event on. -/
def lastWritten : List Event → Nat → UInt8
  | [], _ => 0
  | .allocated offset size :: older, p => if offset ≤ p ∧ p < offset + size then 0
      else lastWritten older p
  | .wrote q b :: older, p => if p = q then b else lastWritten older p

def applyWrites (writes : List (Nat × UInt8)) (bytes : Nat → UInt8) : Nat → UInt8 :=
  writes.foldl (fun bytes w => Function.update bytes w.1 w.2) bytes

def wroteAll (writes : List (Nat × UInt8)) : List Event :=
  (writes.map fun w => Event.wrote w.1 w.2).reverse

lemma applyWrites_append (xs ys : List (Nat × UInt8)) (bytes : Nat → UInt8) :
    applyWrites (xs ++ ys) bytes = applyWrites ys (applyWrites xs bytes) := foldl_append

lemma lastWritten_wroteAll (writes : List (Nat × UInt8)) (h : List Event) :
    lastWritten (wroteAll writes ++ h) = applyWrites writes (lastWritten h) := by
  induction writes generalizing h with
  | nil => rfl
  | cons w writes ih =>
    have hcons : wroteAll (w :: writes) ++ h = wroteAll writes ++ (Event.wrote w.1 w.2 :: h) := by
      simp [wroteAll]
    rw [hcons, ih]
    show _ = applyWrites writes (Function.update (lastWritten h) w.1 w.2)
    congr 1
    funext p
    rw [lastWritten]
    by_cases hp : p = w.1
    · rw [if_pos hp, hp, update_self]
    · rw [if_neg hp, update_of_ne hp]

lemma lastWritten_allocated (offset size : Nat) (h : List Event) :
    lastWritten (Event.allocated offset size :: h) = zeroFill (lastWritten h) offset size := rfl

lemma applyWrites_of_notMem {writes : List (Nat × UInt8)} {p : Nat} (h : p ∉ writes.map Prod.fst)
    (bytes : Nat → UInt8) : applyWrites writes bytes p = bytes p := by
  induction writes generalizing bytes with
  | nil => rfl
  | cons w writes ih =>
    rw [map_cons, mem_cons, not_or] at h
    show applyWrites writes (Function.update bytes w.1 w.2) p = _
    rw [ih h.2, update_of_ne h.1]

theorem applyWrites_congr (writes : List (Nat × UInt8)) {f g : Nat → UInt8} {p : Nat}
    (h : f p = g p) : applyWrites writes f p = applyWrites writes g p := by
  induction writes generalizing f g with
  | nil => exact h
  | cons w writes ih =>
    show applyWrites writes (Function.update f w.1 w.2) p =
      applyWrites writes (Function.update g w.1 w.2) p
    apply ih
    by_cases hp : p = w.1
    · rw [hp, update_self, update_self]
    · rw [update_of_ne hp, update_of_ne hp, h]

lemma applyWrites_of_mem {writes : List (Nat × UInt8)} (hn : (writes.map Prod.fst).Nodup)
    {w : Nat × UInt8}
    (h : w ∈ writes) (bytes : Nat → UInt8) : applyWrites writes bytes w.1 = w.2 := by
  induction writes generalizing bytes with
  | nil => cases h
  | cons d writes ih =>
    obtain ⟨hd, hn'⟩ := nodup_cons.mp hn
    show applyWrites writes (Function.update bytes d.1 d.2) w.1 = w.2
    rcases mem_cons.mp h with rfl | h
    · rw [applyWrites_of_notMem hd, update_self]
    · exact ih hn' h _

lemma applyWrites_perm {xs ys : List (Nat × UInt8)} (hp : xs.Perm ys) (hn : (xs.map Prod.fst).Nodup)
    (bytes : Nat → UInt8) : applyWrites xs bytes = applyWrites ys bytes := by
  have hn' : (ys.map Prod.fst).Nodup := (hp.map _).nodup_iff.mp hn
  funext p
  by_cases h : p ∈ xs.map Prod.fst
  · obtain ⟨w, hw, rfl⟩ := mem_map.mp h
    rw [applyWrites_of_mem hn hw, applyWrites_of_mem hn' (hp.mem_iff.mp hw)]
  · have h' : p ∉ ys.map Prod.fst := fun hm => h ((hp.map _).mem_iff.mpr hm)
    rw [applyWrites_of_notMem h, applyWrites_of_notMem h']

lemma bytesAt_eq (bytes : Nat → UInt8) (base n : Nat) :
    bytesAt bytes base n = (List.range' base n).map bytes := by
  rw [bytesAt, range'_eq_map_range, map_map]
  rfl

lemma memcpy_eq (bytes : Nat → UInt8) (base : Nat) (data : List UInt8) :
    memcpy bytes base data = applyWrites ((List.range' base data.length).zip data) bytes := by
  induction data generalizing bytes base with
  | nil => rfl
  | cons b data ih =>
    rw [memcpy, ih, length_cons, range'_succ, zip_cons_cons]
    rfl

def targets (pages : Table Page) (address n : Nat) : List Nat :=
  (List.range n).map fun i => AddressSpace.target pages (address + i)

lemma length_targets (pages : Table Page) (address n : Nat) :
    (targets pages address n).length = n := by
  simp [targets]

lemma targets_add (pages : Table Page) (address n k : Nat) :
    targets pages address (n + k) = targets pages address n ++ targets pages (address + n) k := by
  rw [targets, targets, targets, range_add, map_append, map_map]
  congr 1
  apply map_congr_left
  intro i _
  simp [Nat.add_assoc]

lemma targets_page {pages : Table Page} {page : Page} {address : Nat}
    (h : pages.find (address - address % pageSize) = some page)
    (hn : n ≤ pageSize - address % pageSize) :
    targets pages address n = List.range' (page.physical - projectionReserve + address % pageSize)
      n := by
  rw [range'_eq_map_range, targets]
  apply map_congr_left
  intro i hi
  have hlt := mem_range.mp hi
  have hmod : (address + i) % pageSize = address % pageSize + i := by
    unfold pageSize at *
    omega
  have hpage : address + i - (address + i) % pageSize = address - address % pageSize := by
    rw [hmod]
    have := Nat.mod_le address pageSize
    omega
  unfold target
  rw [hpage, h, hmod]
  show page.physical - projectionReserve + (address % pageSize + i) = _
  omega

section

variable {pages : Table Page} {address : Nat}

def Present (pages : Table Page) (address n : Nat) : Prop :=
  ∀ i < n, (pages.find (address + i - (address + i) % pageSize)).isSome

lemma Present.rest (h : Present pages address n) (c : Nat) :
    Present pages (address + c) (n - c) := by
  intro i hi
  have := h (c + i) (by omega)
  rwa [← Nat.add_assoc] at this

lemma Present.first (h : Present pages address (n + 1)) :
    ∃ page, pages.find (address - address % pageSize) = some page := by
  have := h 0 (Nat.succ_pos n)
  rw [Nat.add_zero] at this
  exact Option.isSome_iff_exists.mp this

lemma chunk_pos (n : Nat) (address : Nat) : 0 < min (n + 1) (pageSize - address % pageSize) := by
  have : address % pageSize < pageSize := Nat.mod_lt _ (by decide)
  omega

lemma readPages_eq (bytes : Nat → UInt8) {fuel : Nat} (hf : n ≤ fuel)
    (h : Present pages address n) :
    readPages pages bytes fuel address n = some ((targets pages address n).map bytes) := by
  induction fuel generalizing address n with
  | zero =>
    obtain rfl : n = 0 := Nat.le_zero.mp hf
    rfl
  | succ fuel ih =>
    cases n with
    | zero => rfl
    | succ n =>
      obtain ⟨page, hpage⟩ := h.first
      have hpos := chunk_pos n address
      have hrest :=
        ih (n := n + 1 - min (n + 1) (pageSize - address % pageSize)) (by omega) (h.rest _)
      rw [readPages]
      rw [hpage]
      dsimp only
      rw [hrest, Option.map_some, bytesAt_eq, ← targets_page hpage (min_le_right ..), ← map_append,
        ← targets_add, Nat.add_sub_cancel' (min_le_left ..)]

lemma writePages_eq {fuel : Nat} {data : List UInt8} (bytes : Nat → UInt8) (hf : data.length ≤ fuel)
    (h : Present pages address data.length) : writePages pages fuel address data bytes =
      some (applyWrites ((targets pages address data.length).zip data) bytes) := by
  induction fuel generalizing address data bytes with
  | zero =>
    obtain rfl : data = [] := length_eq_zero_iff.mp (Nat.le_zero.mp hf)
    rfl
  | succ fuel ih =>
    cases data with
    | nil => rfl
    | cons b rest =>
      rw [length_cons] at hf h
      obtain ⟨page, hpage⟩ := h.first
      have hpos := chunk_pos rest.length address
      rw [writePages]
      rw [hpage]
      dsimp only
      generalize hc : min (rest.length + 1) (pageSize - address % pageSize) = count at hpos
      have hle : count ≤ rest.length + 1 := by omega
      have hdrop : ((b :: rest).drop count).length = rest.length + 1 - count := by simp
      have htake : ((b :: rest).take count).length = count := by
        rw [length_take, length_cons]
        omega
      rw [ih _ (by rw [hdrop]; omega) (by rw [hdrop]; exact h.rest count), hdrop]
      congr 1
      rw [memcpy_eq, htake, ← targets_page hpage (by omega), ← applyWrites_append]
      congr 1
      rw [← zip_append (by rw [length_targets, htake]), take_append_drop, ← targets_add,
        Nat.add_sub_cancel' hle, length_cons]

end

def MemorySlice.targets (s : MemorySlice) : List Nat :=
  List.range' (s.region.offset + s.offset) s.size

def slicesTargets (slices : List MemorySlice) : List Nat := slices.flatMap MemorySlice.targets

def MemoryView.targets (v : MemoryView) : List Nat := slicesTargets v.slices

lemma slicesTargets_cons (s : MemorySlice) (rest : List MemorySlice) :
    slicesTargets (s :: rest) = s.targets ++ slicesTargets rest := flatMap_cons

lemma MemorySlice.length_targets (s : MemorySlice) : s.targets.length = s.size := length_range'

lemma drop_behind {s : MemorySlice} {rest : List MemorySlice} (h : s.size ≤ offset) :
    (slicesTargets (s :: rest)).drop offset = (slicesTargets rest).drop (offset - s.size) := by
  rw [slicesTargets_cons, drop_append, s.length_targets,
    drop_eq_nil_of_le (by rw [s.length_targets]; exact h), nil_append]

lemma drop_inside {s : MemorySlice} {rest : List MemorySlice} (h : offset < s.size) :
    (slicesTargets (s :: rest)).drop offset =
      List.range' (s.region.offset + s.offset + offset)
        (s.size - offset) ++ slicesTargets rest := by
  rw [slicesTargets_cons, drop_append_of_le_length (by rw [s.length_targets]; exact h.le)]
  congr 1
  rw [MemorySlice.targets, drop_range', Nat.mul_one]

lemma take_range' (base n k : Nat) : (List.range' base n).take k = List.range' base (min k n) := by
  rw [range'_eq_map_range, ← map_take, take_range, range'_eq_map_range]

theorem zip_window {base : Nat} {rest : List Nat} {data : List UInt8} (h : data.length ≤ n) :
    (List.range' base data.length).zip data = (List.range' base n ++ rest).zip data := by
  have htake : (List.range' base n ++ rest).take data.length = List.range' base data.length := by
    rw [take_append_of_le_length (by rw [length_range']; exact h), take_range', min_eq_left h]
  rw [← htake]
  apply ext_getElem?
  intro i
  simp only [List.zip, getElem?_zipWith, getElem?_take]
  by_cases hi : i < data.length
  · rw [if_pos hi]
  · rw [if_neg hi, getElem?_eq_none (not_lt.mp hi)]
    cases (List.range' base n ++ rest)[i]? with
    | none => rfl
    | some v => rfl

lemma readSlices_eq (bytes : Nat → UInt8) (slices : List MemorySlice) (offset n : Nat) :
    readSlices bytes slices offset n = (((slicesTargets slices).drop offset).take n).map bytes := by
  induction slices generalizing offset n with
  | nil => simp [readSlices, slicesTargets]
  | cons s rest ih =>
    rw [readSlices]
    split
    next hn =>
      rw [hn]
      rfl
    · split
      next hs => rw [ih, drop_behind hs]
      next hs =>
        dsimp only
        rw [ih, drop_inside (not_le.mp hs), bytesAt_eq, drop_zero, take_append, take_range',
          map_append, length_range']
        congr 2
        congr 1
        omega

lemma writeSlices_eq (bytes : Nat → UInt8) (slices : List MemorySlice) (offset : Nat)
    (data : List UInt8) : writeSlices bytes slices offset data =
      applyWrites (((slicesTargets slices).drop offset).zip data) bytes := by
  induction slices generalizing offset data bytes with
  | nil => simp [writeSlices, slicesTargets, applyWrites]
  | cons s rest ih =>
    rw [writeSlices]
    split
    next hn =>
      rw [List.isEmpty_iff.mp hn, zip_nil_right]
      rfl
    · split
      next hs => rw [ih, drop_behind hs]
      next hs =>
        rw [ih, drop_inside (not_le.mp hs), drop_zero, memcpy_eq, ← applyWrites_append]
        congr 1
        have hlen : (data.take (min data.length (s.size - offset))).length =
            min data.length (s.size - offset) := by
          rw [length_take]
          omega
        rw [hlen]
        -- Either the data end in this slice, or the slice is filled.
        by_cases hle : data.length ≤ s.size - offset
        · rw [min_eq_left hle, take_length, drop_length, zip_nil_right, append_nil]
          exact zip_window hle
        · rw [min_eq_right (Nat.le_of_not_le hle), ← zip_append (by
            rw [length_range', length_take]
            omega), take_append_drop]

lemma cut_targets (slices : List MemorySlice) (offset length : Nat) :
    slicesTargets (cut slices offset length) =
      ((slicesTargets slices).drop offset).take length := by
  induction slices generalizing offset length with
  | nil => simp [cut, slicesTargets]
  | cons s rest ih =>
    rw [cut]
    split
    next hn =>
      rw [hn]
      rfl
    · split
      next hs => rw [ih, drop_behind hs]
      next hs =>
        rw [slicesTargets_cons, ih, drop_inside (not_le.mp hs), drop_zero, take_append, take_range',
          length_range']
        rw [Nat.add_assoc]
        congr 2
        omega

def MemorySlice.Inside (s : MemorySlice) : Prop := s.offset + s.size ≤ s.region.size

variable {slices : List MemorySlice}

lemma cut_inside (h : ∀ s ∈ slices, s.Inside ∧ P s.region) (offset length : Nat) :
    ∀ s ∈ cut slices offset length, s.Inside ∧ P s.region := by
  induction slices generalizing offset length with
  | nil => exact forall_mem_nil _
  | cons s rest ih =>
    have hrest := ih fun q hq => h q (mem_cons_of_mem s hq)
    rw [cut]
    split
    · exact forall_mem_nil _
    · split
      · exact hrest _ _
      · intro q hq
        rcases mem_cons.mp hq with rfl | hq
        · obtain ⟨hin, hp⟩ := h s mem_cons_self
          refine ⟨?_, hp⟩
          unfold MemorySlice.Inside at *
          dsimp only
          omega
        · exact hrest _ _ q hq

def Page.Backed (p : Page) (r : MemoryRegion) : Prop :=
  p.io = none ∧ p.region = some r ∧ projectionReserve + r.offset ≤ p.physical ∧
    p.physical + pageSize ≤ projectionReserve + r.offset + r.size

theorem pin_append {region : MemoryRegion} {count : Nat}
    (h : ∀ s ∈ slices, s.Inside ∧ P s.region) (hin : offset + count ≤ region.size)
    (hP : P region) {out : List MemorySlice} (hout : out = match slices.getLast? with
      | some last =>
        if last.region = region ∧ last.offset + last.size = offset then
          slices.dropLast ++ [{ last with size := last.size + count }]
        else slices ++ [⟨region, offset, count⟩]
      | none => [⟨region, offset, count⟩]) :
    slicesTargets out = slicesTargets slices ++ List.range' (region.offset + offset) count ∧
      ∀ s ∈ out, s.Inside ∧ P s.region := by
  have hnew : slicesTargets (slices ++ [⟨region, offset, count⟩]) =
      slicesTargets slices ++ List.range' (region.offset + offset) count := by
    simp [slicesTargets, MemorySlice.targets]
  have hall : ∀ s ∈ slices ++ [(⟨region, offset, count⟩ : MemorySlice)], s.Inside ∧ P s.region := by
    intro s hs
    rcases mem_append.mp hs with hs | hs
    · exact h s hs
    · rw [mem_singleton.mp hs]
      exact ⟨hin, hP⟩
  cases hl : slices.getLast? with
  | none =>
    rw [hl] at hout
    have hnil := getLast?_eq_none_iff.mp hl
    rw [hnil] at hnew hall
    rw [hout, hnil]
    exact ⟨hnew, hall⟩
  | some last =>
    rw [hl] at hout
    dsimp only at hout
    split at hout
    next hc =>
      have hsplit : slices = slices.dropLast ++ [last] := (dropLast_append_getLast? last hl).symm
      have hlast : last ∈ slices := mem_of_getLast? hl
      constructor
      · rw [hout]
        conv_rhs => rw [hsplit]
        simp only [slicesTargets, flatMap_append, flatMap_cons, flatMap_nil, append_nil,
          MemorySlice.targets, append_assoc]
        rw [← hc.2, ← hc.1, ← Nat.add_assoc, range'_append_1]
      · intro s hs
        rw [hout] at hs
        rcases mem_append.mp hs with hs | hs
        · exact h s (mem_of_mem_dropLast hs)
        · rw [mem_singleton.mp hs]
          refine ⟨?_, (h last hlast).2⟩
          unfold MemorySlice.Inside
          dsimp only
          rw [hc.1]
          omega
    · rw [hout]
      exact ⟨hnew, hall⟩

lemma pinSlices_spec {pages : Table Page} {fuel address : Nat} (hf : n ≤ fuel)
    (hpages : ∀ i < n, ∃ page r, pages.find (address + i - (address + i) % pageSize) = some page ∧
      page.Backed r ∧ P r) (h : ∀ s ∈ slices, s.Inside ∧ P s.region) :
    ∃ out, pinSlices pages fuel address n slices = some out ∧
      slicesTargets out = slicesTargets slices ++ targets pages address n ∧ ∀ s ∈ out, s.Inside ∧
        P s.region := by
  induction fuel generalizing address n slices with
  | zero =>
    obtain rfl : n = 0 := Nat.le_zero.mp hf
    exact ⟨slices, rfl, by simp [targets], h⟩
  | succ fuel ih =>
    cases n with
    | zero => exact ⟨slices, rfl, by simp [targets], h⟩
    | succ n =>
      obtain ⟨page, region, hpage, ⟨-, hregion, hlow, hhigh⟩, hP⟩ := hpages 0 (Nat.succ_pos n)
      rw [Nat.add_zero] at hpage
      have hpos := chunk_pos n address
      have hmod : address % pageSize < pageSize := Nat.mod_lt _ (by decide)
      rw [pinSlices]
      rw [hpage]
      dsimp only
      rw [hregion]
      generalize hc : min (n + 1) (pageSize - address % pageSize) = count at hpos
      have hfit : page.physical - projectionReserve - region.offset + address % pageSize + count ≤
          region.size := by
        omega
      obtain ⟨ht, hin⟩ := pin_append h hfit hP rfl
      have hnext : ∀ i < n + 1 - count, ∃ page r,
          pages.find (address + count + i - (address + count + i) % pageSize) =
          some page ∧ page.Backed r ∧ P r := by
        intro i hi
        have := hpages (count + i) (by omega)
        rwa [← Nat.add_assoc] at this
      obtain ⟨out, hout, htargets, hins⟩ := ih (by omega) hnext hin
      refine ⟨out, hout, ?_, hins⟩
      rw [htargets, ht, append_assoc]
      congr 1
      have hbase : region.offset + (page.physical - projectionReserve - region.offset +
          address % pageSize) = page.physical - projectionReserve + address % pageSize := by omega
      rw [hbase, ← targets_page hpage (by omega), ← targets_add, Nat.add_sub_cancel' (by omega)]

end NeverD.Emulation
