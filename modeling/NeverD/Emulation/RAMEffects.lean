import NeverD.Emulation.RAMTransaction
import NeverD.Emulation.Ranges

namespace NeverD.Emulation
open Lib Lib.Intervals TransactionSession RAMSlice

variable {pages : Table Page} {permissions : Permissions} {buffer : List UInt8}

def physicalOf (pages : Table Page) (a : Nat) : Option Nat :=
  match pages.find (pageOf a) with
  | none => none
  | some page => if page.io.isSome then none else some (page.physical + a % pageSize)

/-- A physical byte that some write range reaches. -/
def Declared (pages : Table Page) (writes : List RAMWriteRange) (p : Nat) : Prop :=
  ∃ w ∈ writes, ∃ a, w.address ≤ a ∧ a < w.address + w.size ∧ physicalOf pages a = some p

lemma physicalOf_page {address i : Nat} {page : Page} (hi : i < pageSize - address % pageSize)
    (hpage : pages.find (address - address % pageSize) = some page) (hio : page.io.isSome = false) :
    physicalOf pages (address + i) = some (page.physical + address % pageSize + i) := by
  have hsame : pageOf (address + i) = address - address % pageSize := by
    unfold pageOf pageSize at *
    omega
  have hoffset : (address + i) % pageSize = address % pageSize + i := by
    unfold pageSize at *
    omega
  unfold physicalOf
  rw [hsame, hpage]
  dsimp only
  rw [hio, hoffset, if_neg Bool.false_ne_true, add_assoc]

namespace RAMTransaction

lemma splitWrite_spec {fuel address remaining : Nat} {parts : List Interval}
    (hfuel : remaining ≤ fuel)
    (h : splitWrite pages permissions fuel address remaining = .ok parts) : (∀ r ∈ parts, 0 < r.2) ∧
      ∀ p, Covered parts p ↔ ∃ a, address ≤ a ∧ a < address + remaining ∧
        physicalOf pages a = some p := by
  induction fuel generalizing address remaining parts with
  | zero =>
    obtain rfl : remaining = 0 := Nat.le_zero.mp hfuel
    cases h
    refine ⟨List.forall_mem_nil _, ?_⟩
    intro p
    rw [covered_nil, false_iff]
    rintro ⟨a, hlow, hhigh, -⟩
    omega
  | succ fuel ih =>
    cases remaining with
    | zero =>
      cases h
      refine ⟨List.forall_mem_nil _, ?_⟩
      intro p
      rw [covered_nil, false_iff]
      rintro ⟨a, hlow, hhigh, -⟩
      omega
    | succ remaining =>
      rw [splitWrite] at h
      dsimp only at h
      split at h
      · cases h
      rename_i page hpage
      split at h
      · cases h
      rename_i hallowed
      have hio : page.io.isSome = false := by
        rw [← Bool.not_eq_true]
        exact fun hs => hallowed (.inl hs)
      have hoffset : address % pageSize < pageSize := Nat.mod_lt _ (by decide)
      generalize hsize : min (remaining + 1) (pageSize - address % pageSize) = size at h
      have hpos : 0 < size := by omega
      have hle : size ≤ remaining + 1 := by omega
      cases hrest : splitWrite pages permissions fuel (address + size) (remaining + 1 - size) with
      | error e =>
        rw [hrest] at h
        cases h
      | ok rest =>
        rw [hrest] at h
        cases h
        obtain ⟨hsizes, hcovered⟩ := ih (by omega) hrest
        refine ⟨List.forall_mem_cons.mpr ⟨hpos, hsizes⟩, ?_⟩
        intro p
        rw [covered_cons, hcovered]
        constructor
        · rintro (⟨hlow, hhigh⟩ | ⟨a, hlow, hhigh, ha⟩)
          · refine ⟨address + (p - (page.physical + address % pageSize)), by omega, by omega, ?_⟩
            rw [physicalOf_page (by omega) hpage hio]
            congr 1
            omega
          · exact ⟨a, by omega, by omega, ha⟩
        · rintro ⟨a, hlow, hhigh, ha⟩
          rcases lt_or_ge a (address + size) with hlt | hge
          · apply Or.inl
            have hhere := physicalOf_page (i := a - address) (by omega) hpage hio
            rw [Nat.add_sub_cancel' hlow, ha] at hhere
            cases hhere
            omega
          · exact .inr ⟨a, hge, by omega, ha⟩

lemma splitWrites_spec {byteBudget : Nat} {writes : List RAMWriteRange} {ranges : List Interval}
    (h : splitWrites pages permissions byteBudget writes = .ok ranges) :
    (∀ r ∈ ranges, 0 < r.2) ∧ ∀ p, Covered ranges p ↔ Declared pages writes p := by
  induction writes generalizing ranges with
  | nil =>
    cases h
    refine ⟨List.forall_mem_nil _, ?_⟩
    intro p
    unfold Declared
    simp only [covered_nil, List.not_mem_nil, false_and, exists_false]
  | cons w rest ih =>
    rw [splitWrites] at h
    split at h
    · cases h
    split at h
    · cases h
    rename_i parts hparts
    cases hrest : splitWrites pages permissions byteBudget rest with
    | error e =>
      rw [hrest] at h
      cases h
    | ok others =>
      rw [hrest] at h
      cases h
      obtain ⟨hsizes, hcovered⟩ := splitWrite_spec le_rfl hparts
      obtain ⟨hsizes', hcovered'⟩ := ih hrest
      refine ⟨List.forall_mem_append.mpr ⟨hsizes, hsizes'⟩, ?_⟩
      intro p
      rw [covered_append, hcovered, hcovered']
      unfold Declared
      simp only [List.mem_cons, exists_eq_or_imp]

end RAMTransaction

def RAMSlice.extent (s : RAMSlice) : Interval := (s.physical, s.after.length)

structure Footprint (declared : Nat → Prop) (slices : List RAMSlice) : Prop where
  spaced : (slices.map RAMSlice.extent).Pairwise Spaced
  covered : ∀ p, Covered (slices.map RAMSlice.extent) p ↔ declared p

namespace RAMTransaction

lemma create_spec {running : Bool} {memory : Nat → UInt8} {writes : List RAMWriteRange}
    {byteBudget : Nat} {t : RAMTransaction}
    (h : create pages running memory writes byteBudget permissions = .ok t) :
    t.phase = .executing ∧ Footprint (Declared pages writes) t.slices ∧
      ∀ s ∈ t.slices, s.before = bytesAt memory s.physical s.after.length := by
  unfold create at h
  split at h
  · cases h
  split at h
  · cases h
  split at h
  · cases h
  rename_i ranges hranges
  split at h
  · cases h
    obtain ⟨hsizes, hcovered⟩ := splitWrites_spec hranges
    have hextents : ((merge (sort ranges)).map fun r =>
        (⟨r.1, bytesAt memory r.1 r.2, List.replicate r.2 0⟩ : RAMSlice)).map extent =
          merge (sort ranges) := by
      rw [List.map_map]
      conv_rhs => rw [← List.map_id (merge (sort ranges))]
      apply List.map_congr_left
      intro r hr
      show (r.1, (List.replicate r.2 (0 : UInt8)).length) = r
      rw [List.length_replicate]
    refine ⟨rfl, ⟨?_, ?_⟩, ?_⟩
    · rw [hextents]
      exact spaced_merge (sort_ordered ranges)
    · intro p
      rw [hextents, covered_merge (sort_ordered ranges), Covered.perm (sort_perm ranges), hcovered]
    · intro s hs
      obtain ⟨r, hr, rfl⟩ := List.mem_map.mp hs
      rw [List.length_replicate]
  · cases h

variable (image : Nat → UInt8)
include image

lemma length_bytesAt (base n : Nat) : (bytesAt image base n).length = n := by
  unfold bytesAt
  rw [List.length_map, List.length_range]

lemma getElem?_bytesAt {base n i : Nat} (hi : i < n) :
    (bytesAt image base n)[i]? = some (image (base + i)) := by
  unfold bytesAt
  rw [List.getElem?_map, List.getElem?_range hi]
  rfl

lemma bytesAt_succ (base n : Nat) :
    bytesAt image base (n + 1) = image base :: bytesAt image (base + 1) n := by
  unfold bytesAt
  rw [List.range_succ_eq_map, List.map_cons, List.map_map]
  congr 1
  apply List.map_congr_left
  intro i hi
  show image (base + (i + 1)) = image (base + 1 + i)
  congr 1
  omega

omit image

lemma memcpy_bytesAt (memory image : Nat → UInt8) (base n p : Nat) :
    memcpy memory base (bytesAt image base n) p = if base ≤ p ∧ p < base + n then image p
      else memory p := by
  induction n generalizing base memory with
  | zero =>
    rw [if_neg (by omega)]
    rfl
  | succ n ih =>
    rw [bytesAt_succ, memcpy, ih]
    by_cases hp : p = base
    · rw [if_neg (by omega), if_pos (by omega), hp, Function.update_self]
    · rw [Function.update_of_ne hp]
      by_cases hin : base + 1 ≤ p ∧ p < base + 1 + n
      · rw [if_pos hin, if_pos (by omega)]
      · rw [if_neg hin, if_neg (by omega)]

variable {slices : List RAMSlice}

lemma foldl_memcpy {data : RAMSlice → List UInt8} {image : Nat → UInt8}
    (h : ∀ s ∈ slices, data s = bytesAt image s.physical s.after.length) (memory : Nat → UInt8)
    (p : Nat) : (Covered (slices.map extent) p →
      slices.foldl (fun memory s => memcpy memory s.physical (data s)) memory p = image p) ∧
    (¬ Covered (slices.map extent) p →
      slices.foldl (fun memory s => memcpy memory s.physical (data s)) memory p = memory p) := by
  induction slices generalizing memory with
  | nil =>
    rw [List.map_nil, covered_nil]
    exact ⟨False.elim, fun _ => rfl⟩
  | cons s rest ih =>
    have hs := h s List.mem_cons_self
    obtain ⟨hin, hout⟩ :=
      ih (fun t ht => h t (List.mem_cons_of_mem _ ht)) (memcpy memory s.physical (data s))
    rw [List.map_cons, covered_cons, List.foldl_cons]
    have hcopy := memcpy_bytesAt memory image s.physical s.after.length p
    rw [← hs] at hcopy
    have hextent : (s.extent.1 ≤ p ∧ p < s.extent.1 + s.extent.2) ↔
        (s.physical ≤ p ∧ p < s.physical + s.after.length) := .rfl
    constructor
    · intro hcov
      by_cases hrest : Covered (rest.map extent) p
      · exact hin hrest
      · rw [hout hrest, hcopy, if_pos (hextent.mp (hcov.resolve_right hrest))]
    · intro hcov
      rw [hout fun hrest => hcov (Or.inr hrest), hcopy,
        if_neg fun hhere => hcov (Or.inl (hextent.mpr hhere))]

def lastSlice (slices : List RAMSlice) (p : Nat) : Option RAMSlice :=
  (slices.takeWhile (·.physical ≤ p)).getLast?

lemma lastSlice_split {p : Nat} {s : RAMSlice} (h : lastSlice slices p = some s) :
    ∃ front back, slices = front ++ s :: back ∧ (∀ t ∈ front, t.physical ≤ p) ∧ s.physical ≤ p := by
  have hall : ∀ t ∈ slices.takeWhile (·.physical ≤ p), t.physical ≤ p :=
    fun t ht => by simpa using List.mem_takeWhile_imp ht
  refine ⟨(slices.takeWhile (·.physical ≤ p)).dropLast, slices.dropWhile (·.physical ≤ p),
    ?_, ?_, ?_⟩
  · rw [← List.singleton_append, ← List.append_assoc, List.dropLast_append_getLast? s h,
      List.takeWhile_append_dropWhile]
  · exact fun t ht => hall t (List.dropLast_subset _ ht)
  · exact hall s (List.mem_of_getLast? h)

lemma lastSlice_append {front back : List RAMSlice} {s : RAMSlice} {q : Nat}
    (hspaced : ((front ++ s :: back).map extent).Pairwise Spaced)
    (hfront : ∀ t ∈ front, t.physical ≤ q)
    (hlow : s.physical ≤ q) (hhigh : q < s.physical + s.after.length) :
    lastSlice (front ++ s :: back) q = some s := by
  have hback : back.takeWhile (·.physical ≤ q) = [] := by
    cases back with
    | nil => rfl
    | cons t rest =>
      rw [List.map_append, List.map_cons, List.map_cons] at hspaced
      have hst : Spaced s.extent t.extent :=
        (List.pairwise_cons.mp (List.pairwise_append.mp hspaced).2.1).1 _ List.mem_cons_self
      unfold Spaced extent at hst
      apply List.takeWhile_cons_of_neg
      simp only [decide_eq_true_eq]
      omega
  have hall : ∀ t ∈ front, decide (t.physical ≤ q) = true :=
    fun t ht => decide_eq_true (hfront t ht)
  have hcons : (s :: back).takeWhile (·.physical ≤ q) = s :: back.takeWhile (·.physical ≤ q) :=
    List.takeWhile_cons_of_pos (decide_eq_true (show s.physical ≤ q from hlow))
  unfold lastSlice
  rw [List.takeWhile_append_of_pos hall, hcons, hback, List.getLast?_concat]

def byteAt (slices : List RAMSlice) (p : Nat) : Option UInt8 :=
  (lastSlice slices p).bind fun s => s.after[p - s.physical]?

def served (pages : Table Page) (slices : List RAMSlice) (a : Nat) : Option UInt8 :=
  (physicalOf pages a).bind (byteAt slices)

lemma byteAt_chunk (hspaced : (slices.map extent).Pairwise Spaced) {p j : Nat}
    {s : RAMSlice} (hs : lastSlice slices p = some s) (hj : p - s.physical + j < s.after.length) :
    byteAt slices (p + j) = s.after[p - s.physical + j]? := by
  obtain ⟨front, back, rfl, hfront, hlow⟩ := lastSlice_split hs
  have hsame : lastSlice (front ++ s :: back) (p + j) = some s := by
    apply lastSlice_append hspaced
    · exact fun t ht => (hfront t ht).trans (Nat.le_add_right ..)
    · omega
    · omega
  unfold byteAt
  rw [hsame, Option.bind_some]
  congr 1
  omega

theorem byteAt_of_footprint {declared : Nat → Prop} (h : Footprint declared slices)
    {image : Nat → UInt8} (himage : ∀ s ∈ slices, s.after = bytesAt image s.physical s.after.length)
    (p : Nat) :
    (declared p → byteAt slices p = some (image p)) ∧ (¬ declared p → byteAt slices p = none) := by
  constructor
  · intro hp
    obtain ⟨r, hr, hlow, hhigh⟩ := (h.covered p).mpr hp
    obtain ⟨s, hs, rfl⟩ := List.mem_map.mp hr
    unfold extent at hlow hhigh
    have hbyte : s.after[p - s.physical]? = some (image p) := by
      rw [himage s hs, getElem?_bytesAt image (by omega)]
      congr 2
      omega
    obtain ⟨front, back, rfl⟩ := List.append_of_mem hs
    have hfront : ∀ t ∈ front, t.physical ≤ p := by
      intro t ht
      have hspaced := h.spaced
      rw [List.map_append, List.map_cons] at hspaced
      have hts :=
        (List.pairwise_append.mp hspaced).2.2 _ (List.mem_map_of_mem ht) s.extent List.mem_cons_self
      unfold Spaced extent at hts
      omega
    unfold byteAt
    rw [lastSlice_append h.spaced hfront hlow hhigh, Option.bind_some]
    exact hbyte
  · intro hp
    cases hs : lastSlice slices p with
    | none =>
      unfold byteAt
      rw [hs]
      rfl
    | some s =>
      obtain ⟨front, back, hsplit, -, hlow⟩ := lastSlice_split hs
      have hmem : s ∈ slices := by
        rw [hsplit]
        exact List.mem_append_right _ List.mem_cons_self
      unfold byteAt
      rw [hs, Option.bind_some]
      apply List.getElem?_eq_none
      rw [← not_lt]
      intro hlt
      exact hp ((h.covered p).mp ⟨s.extent, List.mem_map_of_mem hmem,
        hlow, by unfold extent; dsimp only; omega⟩)

lemma getElem?_overlay {data : List UInt8} {position : Nat}
    (h : position + data.length ≤ buffer.length) (i : Nat) : (overlay buffer position data)[i]? =
      if i < position then buffer[i]? else if i < position + data.length then data[i - position]?
        else buffer[i]? := by
  unfold overlay
  rw [List.append_assoc]
  have htake : (buffer.take position).length = position := List.length_take_of_le (by omega)
  split
  next hi => rw [List.getElem?_append_left (by omega), List.getElem?_take_of_lt hi]
  next hi =>
    rw [List.getElem?_append_right (by omega), htake]
    split
    · rw [List.getElem?_append_left (by omega)]
    · rw [List.getElem?_append_right (by omega), List.getElem?_drop]
      congr 1
      omega

lemma length_overlay {data : List UInt8} {position : Nat}
    (h : position + data.length ≤ buffer.length) :
    (overlay buffer position data).length = buffer.length := by
  unfold overlay
  rw [List.length_append, List.length_append, List.length_take_of_le (by omega), List.length_drop]
  omega

lemma transfer_false (pages : Table Page) (slices : List RAMSlice) (fuel current copied : Nat)
    (buffer : List UInt8) : (transfer pages slices false fuel current copied buffer).2 =
    buffer := by
  induction fuel generalizing current copied with
  | zero => rfl
  | succ fuel ih =>
    rw [transfer]
    split
    · rfl
    dsimp only
    split
    · rfl
    split
    · rfl
    split
    · rfl
    split
    · rfl
    · exact ih _ _

theorem transfer_served (hspaced : (slices.map extent).Pairwise Spaced) (copy : Bool)
    (start fuel copied : Nat) (buffer : List UInt8) (hfuel : buffer.length ≤ copied + fuel)
    (hserved : ∀ i, copied ≤ i → i < buffer.length →
    (served pages slices (start + i)).isSome = true) :
    (transfer pages slices copy fuel (start + copied) copied buffer).1 = .ok () ∧
      (transfer pages slices copy fuel (start + copied) copied buffer).2.length = buffer.length ∧
      (copy = true → ∀ i, i < buffer.length →
          (transfer pages slices copy fuel (start + copied) copied buffer).2[i]? =
          if i < copied then buffer[i]? else served pages slices (start + i)) := by
  induction fuel generalizing copied buffer with
  | zero =>
    refine ⟨rfl, rfl, ?_⟩
    intro hcopy i hi
    rw [if_pos (by omega)]
    rfl
  | succ fuel ih =>
    rw [transfer]
    split
    next hdone =>
      refine ⟨rfl, rfl, ?_⟩
      intro hcopy i hi
      rw [if_pos (by omega)]
    rename_i hmore
    have hhere := hserved copied le_rfl (by omega)
    dsimp only
    split
    next hpage =>
      unfold served physicalOf pageOf at hhere
      rw [hpage] at hhere
      cases hhere
    rename_i page hpage
    split
    next hio =>
      unfold served physicalOf pageOf at hhere
      rw [hpage] at hhere
      simp only [hio, if_true, Option.bind_none, Option.isSome_none, Bool.false_eq_true] at hhere
    rename_i hio
    rw [Bool.not_eq_true] at hio
    have hserve : ∀ j, j < pageSize - (start + copied) % pageSize →
          served pages slices (start + copied + j) =
          byteAt slices (page.physical + (start + copied) % pageSize + j) := by
      intro j hj
      unfold served
      rw [physicalOf_page hj hpage hio, Option.bind_some]
    have hoffset : (start + copied) % pageSize < pageSize := Nat.mod_lt _ (by decide)
    have hfirst := hserve 0 (by omega)
    rw [add_zero, add_zero] at hfirst
    split
    next hnone =>
      rw [hfirst] at hhere
      unfold byteAt lastSlice at hhere
      rw [hnone] at hhere
      cases hhere
    rename_i s hs
    split
    next hbehind =>
      rw [hfirst] at hhere
      unfold byteAt lastSlice at hhere
      rw [hs, Option.bind_some, List.getElem?_eq_none hbehind] at hhere
      cases hhere
    rename_i hinside
    generalize hphysical : page.physical + (start + copied) % pageSize = physical at *
    generalize hsize : min (buffer.length - copied) (min (pageSize - (start + copied) % pageSize)
      (s.after.length - (physical - s.physical))) = size
    have hdata : ((s.after.drop (physical - s.physical)).take size).length = size := by
      rw [List.length_take_of_le]
      rw [List.length_drop]
      omega
    have hchunk : ∀ j, j < size →
        served pages slices (start + (copied + j)) =
        ((s.after.drop (physical - s.physical)).take size)[j]? := by
      intro j hj
      rw [← add_assoc, hserve j (by omega), byteAt_chunk hspaced hs (by omega),
        List.getElem?_take_of_lt hj, List.getElem?_drop]
    have hlength :
      (if copy then overlay buffer copied ((s.after.drop (physical - s.physical)).take size)
        else buffer).length = buffer.length := by
      split
      · exact length_overlay (by omega)
      · rfl
    rw [add_assoc]
    obtain ⟨hok, hlen, hout⟩ := ih (copied + size)
      (if copy then overlay buffer copied ((s.after.drop (physical - s.physical)).take size)
        else buffer) (by omega) (fun i hlow hhigh => hserved i (by omega) (by omega))
    refine ⟨hok, hlen.trans hlength, ?_⟩
    intro hcopy i hi
    rw [hout hcopy i (by omega)]
    by_cases hlow : i < copied
    · rw [if_pos (by omega), if_pos hlow, if_pos hcopy, getElem?_overlay (by omega), if_pos hlow]
    · rw [if_neg hlow]
      by_cases hhigh : i < copied + size
      · have hi : copied + (i - copied) = i := by omega
        have hbyte := hchunk (i - copied) (by omega)
        rw [hi] at hbyte
        rw [if_pos hhigh, if_pos hcopy, getElem?_overlay (by omega), if_neg hlow, if_pos (by omega),
          hbyte]
      · rw [if_neg hhigh]

theorem transfer_refused (hspaced : (slices.map extent).Pairwise Spaced) (start fuel copied : Nat)
    {i : Nat}
    (hfuel : buffer.length ≤ copied + fuel) (hlow : copied ≤ i) (hhigh : i < buffer.length)
    (hnone : served pages slices (start + i) = none) :
    (transfer pages slices false fuel (start + copied) copied buffer).1 = .error .range := by
  induction fuel generalizing copied with
  | zero => omega
  | succ fuel ih =>
    rw [transfer, if_neg (by omega)]
    dsimp only
    split
    · rfl
    rename_i page hpage
    split
    · rfl
    rename_i hio
    rw [Bool.not_eq_true] at hio
    split
    · rfl
    rename_i s hs
    split
    · rfl
    rename_i hinside
    generalize hsize : min (buffer.length - copied) (min (pageSize - (start + copied) % pageSize)
      (s.after.length - (page.physical + (start + copied) % pageSize - s.physical))) = size
    have hoffset : (start + copied) % pageSize < pageSize := Nat.mod_lt _ (by decide)
    simp only [Bool.false_eq_true, if_false]
    rw [add_assoc]
    apply ih (copied + size) (by omega)
    -- The bytes of this part are served, so that the refused one lies behind it.
    rw [← not_lt]
    intro hpart
    have hi : start + i = start + copied + (i - copied) := by omega
    unfold served at hnone
    rw [hi, physicalOf_page (by omega) hpage hio, Option.bind_some,
      byteAt_chunk hspaced hs (by omega), List.getElem?_eq_none_iff] at hnone
    omega

theorem read_spec {t : RAMTransaction} (hstaged : t.phase = .staged)
    (hspaced : (t.slices.map extent).Pairwise Spaced) (pages : Table Page) (address : Nat)
    (buffer : List UInt8) :
    ((t.read pages address buffer).1 = .ok () ↔ buffer ≠ [] ∧
        buffer.length - 1 ≤ uint64Max - address ∧
        ∀ i, i < buffer.length → (served pages t.slices (address + i)).isSome = true) ∧
      ((t.read pages address buffer).1 = .ok () →
        (t.read pages address buffer).2.length = buffer.length ∧
        ∀ i, i < buffer.length →
        (t.read pages address buffer).2[i]? = served pages t.slices (address + i)) ∧
      ((t.read pages address buffer).1 ≠ .ok () → (t.read pages address buffer).2 = buffer) := by
  have hrange : (Except.error .range : Except TransactionDiagnostic Unit) ≠ .ok () := by
    intro h
    cases h
  unfold read
  rw [if_neg (not_not_intro hstaged)]
  split
  next hbad =>
    refine ⟨⟨fun h => absurd h hrange, fun h => ?_⟩, fun h => absurd h hrange, fun _ => rfl⟩
    rcases hbad with hempty | hlong
    · exact absurd (List.isEmpty_iff.mp hempty) h.1
    · omega
  rename_i hgood
  rw [not_or, List.isEmpty_iff, not_lt] at hgood
  by_cases hall : ∀ i, i < buffer.length → (served pages t.slices (address + i)).isSome = true
  · obtain ⟨hok, -, -⟩ := transfer_served hspaced false address buffer.length 0 buffer
      (by omega) (fun i _ hi => hall i hi)
    obtain ⟨hok', hlen, hout⟩ := transfer_served hspaced true address buffer.length 0 buffer
      (by omega) (fun i _ hi => hall i hi)
    have hkeep := transfer_false pages t.slices buffer.length address 0 buffer
    rw [add_zero] at hok hok' hlen hout
    generalize transfer pages t.slices false buffer.length address 0 buffer = validated at hok hkeep
    obtain ⟨answer, kept⟩ := validated
    subst hok hkeep
    refine ⟨⟨fun _ => ⟨hgood.1, hgood.2, hall⟩, fun _ => hok'⟩, fun _ => ⟨hlen, ?_⟩, fun h =>
      absurd hok' h⟩
    intro i hi
    rw [hout rfl i hi, if_neg (Nat.not_lt_zero i)]
  · have hbad : ∃ i, i < buffer.length ∧ served pages t.slices (address + i) = none := by
      by_contra hno
      apply hall
      intro i hi
      rw [Option.isSome_iff_ne_none]
      exact fun hnone => hno ⟨i, hi, hnone⟩
    obtain ⟨i, hi, hnone⟩ := hbad
    have herror :=
      transfer_refused hspaced address buffer.length 0 (le_of_eq (zero_add buffer.length).symm)
      (Nat.zero_le i) hi hnone
    have hkeep := transfer_false pages t.slices buffer.length address 0 buffer
    rw [add_zero] at herror
    generalize transfer pages t.slices false buffer.length address 0 buffer =
      validated at herror hkeep
    obtain ⟨answer, kept⟩ := validated
    subst herror hkeep
    exact ⟨⟨fun h => absurd h hrange, fun h => absurd h.2.2 hall⟩, fun h =>
      absurd h hrange, fun _ => rfl⟩

end RAMTransaction

def privateImage : List TransactionStep → (Nat → UInt8) → Nat → UInt8
  | [], memory => memory
  | .execute function :: rest, memory => privateImage rest (function memory).2
  | .stage :: _, memory => memory
  | .read _ _ _ :: rest, memory => privateImage rest memory
  | .commit :: rest, memory => privateImage rest memory

def WritesDeclared (declared : Nat → Prop) (steps : List TransactionStep) : Prop :=
  ∀ function, TransactionStep.execute function ∈ steps → ∀ memory p, ¬ declared p →
    (function memory).2 p = memory p

/-- What a transaction keeps: the memory at its creation, and the memory that was left by what ran
in it. -/
structure Keeps (declared : Nat → Prop) (memory left : Nat → UInt8) (s : TransactionSession) :
    Prop where
  footprint : Footprint declared s.transaction.slices
  before : ∀ slice ∈ s.transaction.slices,
    slice.before = bytesAt memory slice.physical slice.after.length
  apart : ∀ p, ¬ declared p → left p = memory p
  executing : s.transaction.phase = .executing → s.memory = left
  staged : s.transaction.phase = .staged →
    s.memory = memory ∧ ∀ slice ∈ s.transaction.slices,
    slice.after = bytesAt left slice.physical slice.after.length
  committed : s.transaction.phase = .committed → s.memory = left

namespace Keeps

variable {declared : Nat → Prop} {memory left : Nat → UInt8} {s : TransactionSession}

variable (h : Keeps declared memory left s)
include h

lemma restore (hmemory : ∀ p, ¬ declared p → s.memory p = memory p) :
    s.transaction.restore s.memory = memory := by
  funext p
  obtain ⟨hin, hout⟩ := RAMTransaction.foldl_memcpy h.before s.memory p
  by_cases hp : declared p
  · exact hin ((h.footprint.covered p).mpr hp)
  · exact (hout fun hcov => hp ((h.footprint.covered p).mp hcov)).trans (hmemory p hp)

lemma publish (hstaged : s.transaction.phase = .staged) :
    s.transaction.publish s.memory = left := by
  obtain ⟨hmemory, hafter⟩ := h.staged hstaged
  funext p
  obtain ⟨hin, hout⟩ := RAMTransaction.foldl_memcpy hafter s.memory p
  by_cases hp : declared p
  · exact hin ((h.footprint.covered p).mpr hp)
  · rw [hmemory] at hout
    exact (congrFun (congrArg s.transaction.publish hmemory) p).trans
      ((hout fun hcov => hp ((h.footprint.covered p).mp hcov)).trans (h.apart p hp).symm)

lemma execute (hphase : s.transaction.phase = .executing) {function : Executed}
    (hdeclared : ∀ memory p, ¬ declared p → (function memory).2 p = memory p) :
    Keeps declared memory (function left).2 (s.step (.execute function)).2 := by
  have hmemory := h.executing hphase
  unfold step
  dsimp only
  rw [if_neg (not_not_intro hphase), hmemory]
  refine ⟨h.footprint, h.before, ?_, fun _ => rfl, ?_, ?_⟩
  · exact fun p hp => (hdeclared left p hp).trans (h.apart p hp)
  · intro hstaged
    rw [hphase] at hstaged
    cases hstaged
  · exact fun _ => rfl

lemma stage (hphase : s.transaction.phase = .executing) :
    Keeps declared memory left (s.step .stage).2 := by
  have hmemory := h.executing hphase
  have hrestore := h.restore fun p hp => (congrFun hmemory p).trans (h.apart p hp)
  have hextents : (s.transaction.slices.map fun slice =>
      { slice with after := bytesAt s.memory slice.physical slice.after.length }).map extent =
        s.transaction.slices.map extent := by
    rw [List.map_map]
    apply List.map_congr_left
    intro slice hs
    show (slice.physical, (bytesAt s.memory slice.physical slice.after.length).length) =
      (slice.physical, slice.after.length)
    rw [RAMTransaction.length_bytesAt]
  unfold step
  rw [if_neg (not_not_intro hphase), hrestore]
  refine ⟨⟨?_, ?_⟩, ?_, h.apart, (fun hexecuting => by cases hexecuting), ?_,
    (fun hcommitted => by cases hcommitted)⟩
  · rw [hextents]
    exact h.footprint.spaced
  · intro p
    rw [hextents]
    exact h.footprint.covered p
  · intro slice hs
    obtain ⟨old, hold, rfl⟩ := List.mem_map.mp hs
    rw [RAMTransaction.length_bytesAt]
    exact h.before old hold
  · refine fun _ => ⟨rfl, ?_⟩
    intro slice hs
    obtain ⟨old, hold, rfl⟩ := List.mem_map.mp hs
    rw [RAMTransaction.length_bytesAt, hmemory]

lemma commit (hphase : s.transaction.phase = .staged) :
    Keeps declared memory left (s.step .commit).2 := by
  have hpublish := h.publish hphase
  unfold step
  rw [if_neg (not_not_intro hphase), hpublish]
  exact ⟨h.footprint, h.before, h.apart, (fun hexecuting => by cases hexecuting),
    (fun hstaged => by cases hstaged), fun _ => rfl⟩

omit h

end Keeps

theorem TransactionSession.step_idle (s : TransactionSession) (step : TransactionStep)
    (h : match step with
      | .execute _ => s.transaction.phase ≠ .executing
      | .stage => s.transaction.phase ≠ .executing
      | .read _ _ _ => True
      | .commit => s.transaction.phase ≠ .staged) : (s.step step).2 = s := by
  cases step with
  | execute function =>
    unfold step
    dsimp only at h ⊢
    rw [if_pos h]
  | stage =>
    unfold step
    dsimp only at h ⊢
    rw [if_pos h]
  | read pages address buffer => rfl
  | commit =>
    unfold step
    dsimp only at h ⊢
    rw [if_pos h]

namespace Keeps

variable {declared : Nat → Prop} {memory left : Nat → UInt8} {s : TransactionSession}

lemma run_committed (hphase : s.transaction.phase = .committed) (steps : List TransactionStep) :
    s.run steps = s := by
  induction steps with
  | nil => rfl
  | cons step rest ih =>
    have hidle : (s.step step).2 = s := by
      apply s.step_idle
      cases step <;> simp [hphase]
    show (s.step step).2.run rest = s
    rw [hidle, ih]

variable (h : Keeps declared memory left s)
include h

theorem run_staged (hphase : s.transaction.phase = .staged)
    (steps : List TransactionStep) : Keeps declared memory left (s.run steps) ∧
      (s.run steps).transaction.phase ≠ .executing ∧
      ((s.run steps).transaction.phase = .committed ↔ TransactionStep.commit ∈ steps) := by
  induction steps with
  | nil =>
    show Keeps declared memory left s ∧ s.transaction.phase ≠ .executing ∧
      (s.transaction.phase = .committed ↔ _)
    refine ⟨h, by simp [hphase], ?_⟩
    simp [hphase]
  | cons step rest ih =>
    have hrun : s.run (step :: rest) = (s.step step).2.run rest := rfl
    by_cases hcommit : step = .commit
    · have hcommitted : (s.step .commit).2.transaction.phase = .committed := by
        unfold TransactionSession.step
        rw [if_neg (not_not_intro hphase)]
      rw [hrun, hcommit, run_committed hcommitted]
      refine ⟨h.commit hphase, ?_, ?_⟩
      · rw [hcommitted]
        decide
      · exact ⟨fun _ => List.mem_cons_self, fun _ => hcommitted⟩
    · have hidle : (s.step step).2 = s := by
        apply s.step_idle
        cases step with
        | commit => exact absurd rfl hcommit
        | _ => simp [hphase]
      obtain ⟨hkeeps, hexecuting, hcommitted⟩ := ih
      rw [hrun, hidle]
      refine ⟨hkeeps, hexecuting, hcommitted.trans ?_⟩
      rw [List.mem_cons, or_iff_right fun heq => hcommit heq.symm]

theorem run (hphase : s.transaction.phase = .executing)
    {steps : List TransactionStep} (hdeclared : WritesDeclared declared steps) :
    Keeps declared memory (privateImage steps left) (s.run steps) ∧
      ((s.run steps).transaction.phase = .executing ↔ TransactionStep.stage ∉ steps) ∧
      ((s.run steps).transaction.phase = .committed ↔
        [TransactionStep.stage, .commit].Sublist steps) := by
  induction steps generalizing s left with
  | nil =>
    refine ⟨h, ?_, ?_⟩
    · exact ⟨fun _ => List.not_mem_nil, fun _ => hphase⟩
    · constructor
      · intro hcommitted
        have : s.transaction.phase = .committed := hcommitted
        rw [hphase] at this
        cases this
      · intro hsub
        cases hsub
  | cons step rest ih =>
    have hrest : WritesDeclared declared rest :=
      fun function hf => hdeclared function (List.mem_cons_of_mem _ hf)
    have hrun : s.run (step :: rest) = (s.step step).2.run rest := rfl
    -- The other steps are none of the two that count.
    have hskip : step ≠ .stage → (.stage ∉ step :: rest ↔ TransactionStep.stage ∉ rest) ∧
          ([TransactionStep.stage, .commit].Sublist (step :: rest) ↔
            [TransactionStep.stage, .commit].Sublist rest) := by
      intro hne
      refine ⟨?_, ?_⟩
      · rw [List.mem_cons, or_iff_right fun heq => hne heq.symm]
      · constructor
        · intro hsub
          rcases List.sublist_cons_iff.mp hsub with hsub | ⟨r, heq, -⟩
          · exact hsub
          · exact absurd (List.cons.inj heq).1.symm hne
        · exact fun hsub => hsub.cons step
    cases step with
    | execute function =>
      have hstep := h.execute hphase (hdeclared function List.mem_cons_self)
      have hphase' : (s.step (.execute function)).2.transaction.phase = .executing := by
        unfold step
        dsimp only
        rw [if_neg (not_not_intro hphase)]
        exact hphase
      obtain ⟨hkeeps, hexecuting, hcommitted⟩ := ih hstep hphase' hrest
      obtain ⟨hstage, hsub⟩ := hskip (by simp)
      rw [hrun, hstage, hsub]
      exact ⟨hkeeps, hexecuting, hcommitted⟩
    | stage =>
      have hphase' : (s.step .stage).2.transaction.phase = .staged := by
        unfold step
        rw [if_neg (not_not_intro hphase)]
      obtain ⟨hkeeps, hexecuting, hcommitted⟩ := (h.stage hphase).run_staged hphase' rest
      rw [hrun]
      refine ⟨hkeeps, ?_, ?_⟩
      · exact ⟨fun hex => absurd hex hexecuting, fun hno => absurd List.mem_cons_self hno⟩
      · rw [hcommitted, List.cons_sublist_cons, List.singleton_sublist]
    | read pages address buffer =>
      have hidle : (s.step (.read pages address buffer)).2 = s := rfl
      obtain ⟨hkeeps, hexecuting, hcommitted⟩ := ih h hphase hrest
      obtain ⟨hstage, hsub⟩ := hskip (by simp)
      rw [hrun, hidle, hstage, hsub]
      exact ⟨hkeeps, hexecuting, hcommitted⟩
    | commit =>
      have hidle : (s.step .commit).2 = s := s.step_idle .commit (by simp [hphase])
      obtain ⟨hkeeps, hexecuting, hcommitted⟩ := ih h hphase hrest
      obtain ⟨hstage, hsub⟩ := hskip (by simp)
      rw [hrun, hidle, hstage, hsub]
      exact ⟨hkeeps, hexecuting, hcommitted⟩

lemma destroy :
    (s.transaction.phase ≠ .committed → s.destroy = memory) ∧
    (s.transaction.phase = .committed → s.destroy = left) := by
  unfold TransactionSession.destroy
  cases hphase : s.transaction.phase with
  | executing =>
    rw [if_pos rfl]
    refine ⟨fun _ => h.restore fun p hp => ?_, fun hcommitted => by cases hcommitted⟩
    rw [h.executing hphase]
    exact h.apart p hp
  | staged =>
    rw [if_neg (by decide)]
    exact ⟨fun _ => (h.staged hphase).1, fun hcommitted => by cases hcommitted⟩
  | committed =>
    rw [if_neg (by decide)]
    exact ⟨fun hne => absurd rfl hne, fun _ => h.committed hphase⟩

omit h

end Keeps

/-- Declared effects commit or vanish. While functions write declared bytes only, memory is as it
was at the creation if the transaction goes before it is committed; after the commit, declared bytes
have the values that were left, and other bytes their old ones. -/
theorem declared_effects_commit_or_vanish {pages : Table Page} {running : Bool}
    {memory : Nat → UInt8}
    {writes : List RAMWriteRange} {byteBudget : Nat} {permissions : Permissions}
    {t : RAMTransaction}
    (hcreate : RAMTransaction.create pages running memory writes byteBudget permissions = .ok t)
    {steps : List TransactionStep} (hdeclared : WritesDeclared (Declared pages writes) steps) :
    ((TransactionSession.run ⟨memory, t⟩ steps).transaction.slices.map RAMSlice.extent).Pairwise
        (fun r s => r.1 + r.2 < s.1) ∧
      (¬ [TransactionStep.stage, .commit].Sublist steps →
      (TransactionSession.run ⟨memory, t⟩ steps).destroy = memory) ∧
      ([TransactionStep.stage, .commit].Sublist steps → ∀ p,
        (Declared pages writes p → (TransactionSession.run ⟨memory, t⟩ steps).destroy p =
        privateImage steps memory p) ∧
        (¬ Declared pages writes p → (TransactionSession.run ⟨memory, t⟩ steps).destroy p =
        memory p)) ∧
      (TransactionStep.stage ∈ steps → ¬ [TransactionStep.stage, .commit].Sublist steps →
          ∀ current address buffer,
          (((TransactionSession.run ⟨memory, t⟩ steps).transaction.read current address buffer).1 =
            .ok () ↔ buffer ≠ [] ∧ buffer.length - 1 ≤ uint64Max - address ∧
              ∀ i, i < buffer.length → ∃ p, physicalOf current (address + i) = some p ∧
                Declared pages writes p) ∧
          (((TransactionSession.run ⟨memory, t⟩ steps).transaction.read current address buffer).1 =
            .ok () →
            ((TransactionSession.run ⟨memory, t⟩ steps).transaction.read current address
                buffer).2.length = buffer.length ∧
              ∀ i, i < buffer.length →
                ((TransactionSession.run ⟨memory, t⟩ steps).transaction.read current address
                  buffer).2[i]? =
                  (physicalOf current (address + i)).map (privateImage steps memory)) ∧
          (((TransactionSession.run ⟨memory, t⟩ steps).transaction.read current address buffer).1 ≠
            .ok () →
            ((TransactionSession.run ⟨memory, t⟩ steps).transaction.read current address buffer).2 =
            buffer)) := by
  obtain ⟨hphase, hfootprint, hbefore⟩ := RAMTransaction.create_spec hcreate
  have hstart : Keeps (Declared pages writes) memory memory ⟨memory, t⟩ := by
    refine ⟨hfootprint, hbefore, fun _ _ => rfl, fun _ => rfl, ?_, fun _ => rfl⟩
    intro hstaged
    rw [hphase] at hstaged
    cases hstaged
  obtain ⟨hkeeps, hexecuting, hcommitted⟩ := hstart.run hphase hdeclared
  generalize TransactionSession.run ⟨memory, t⟩ steps = s at *
  generalize privateImage steps memory = left at *
  refine ⟨hkeeps.footprint.spaced, ?_, ?_, ?_⟩
  · exact fun hno => hkeeps.destroy.1 fun hphase => hno (hcommitted.mp hphase)
  · intro hsub p
    rw [hkeeps.destroy.2 (hcommitted.mpr hsub)]
    exact ⟨fun _ => rfl, hkeeps.apart p⟩
  · intro hstage hno current address buffer
    have hstaged : s.transaction.phase = .staged := by
      cases hs : s.transaction.phase with
      | executing => exact absurd hstage (hexecuting.mp hs)
      | staged => rfl
      | committed => exact absurd (hcommitted.mp hs) hno
    have hafter := (hkeeps.staged hstaged).2
    have hserved : ∀ a, (∀ p, physicalOf current a = some p → Declared pages writes p →
        RAMTransaction.served current s.transaction.slices a = some (left p)) ∧
        ((RAMTransaction.served current s.transaction.slices a).isSome = true ↔
          ∃ p, physicalOf current a = some p ∧ Declared pages writes p) := by
      intro a
      unfold RAMTransaction.served
      cases hp : physicalOf current a with
      | none => simp
      | some p =>
        obtain ⟨hin, hout⟩ := RAMTransaction.byteAt_of_footprint hkeeps.footprint hafter p
        rw [Option.bind_some]
        refine ⟨fun q hq hdecl => ?_, ?_⟩
        · cases hq
          exact hin hdecl
        · constructor
          · intro hsome
            refine ⟨p, rfl, ?_⟩
            by_contra hdecl
            rw [hout hdecl] at hsome
            cases hsome
          · rintro ⟨q, hq, hdecl⟩
            cases hq
            rw [hin hdecl]
            rfl
    obtain ⟨hok, hvalue, hkeep⟩ :=
      RAMTransaction.read_spec hstaged hkeeps.footprint.spaced current address buffer
    have hall : (∀ i, i < buffer.length →
        (RAMTransaction.served current s.transaction.slices (address + i)).isSome = true) ↔
        ∀ i, i < buffer.length → ∃ p, physicalOf current (address + i) = some p ∧
          Declared pages writes p :=
      forall₂_congr fun i _ => (hserved (address + i)).2
    rw [hall] at hok
    refine ⟨hok, ?_, hkeep⟩
    intro hans
    obtain ⟨hlength, hbytes⟩ := hvalue hans
    refine ⟨hlength, ?_⟩
    intro i hi
    obtain ⟨p, hp, hdecl⟩ := (hok.mp hans).2.2 i hi
    rw [hbytes i hi, (hserved (address + i)).1 p hp hdecl, hp]
    rfl

def sharedPages : Table Page :=
  (Table.empty.insert 0 { physical := projectionReserve, permissions := permissionWrite }).insert
    4096 { physical := projectionReserve, permissions := permissionWrite }

/-- Two aliases are written, and committed. -/
theorem declared_effects_commit_or_vanish_aliases :
    ∃ t, RAMTransaction.create sharedPages true (fun _ => 7)
      [⟨16, 4⟩, ⟨4096 + 18, 4⟩] 64 permissionWrite = .ok t ∧
      (TransactionSession.run ⟨fun _ => 7, t⟩ [.execute fun memory =>
        (.ok (), Function.update memory (projectionReserve + 17) 9), .stage, .commit]).destroy
          (projectionReserve + 17) = 9 := by
  have hdecl : Declared sharedPages [⟨16, 4⟩, ⟨4096 + 18, 4⟩] (projectionReserve + 17) :=
    ⟨⟨16, 4⟩, List.mem_cons_self, 17, by decide, by decide, rfl⟩
  obtain ⟨t, hcreate⟩ : ∃ t, RAMTransaction.create sharedPages true (fun _ => 7) [⟨16, 4⟩,
      ⟨4096 + 18, 4⟩] 64 permissionWrite = .ok t := ⟨_, rfl⟩
  refine ⟨t, hcreate, ?_⟩
  refine ((declared_effects_commit_or_vanish hcreate ?_).2.2.1 (List.sublist_cons_self _ _) _).1
    hdecl
  intro function hfunction memory p hp
  simp only [List.mem_cons, TransactionStep.execute.injEq, reduceCtorEq, List.not_mem_nil,
    or_false] at hfunction
  rw [hfunction]
  apply Function.update_of_ne
  intro heq
  rw [heq] at hp
  exact hp hdecl

/-- An empty read asks for no byte, and is refused. -/
theorem read_empty_refused :
    ∃ t, RAMTransaction.create sharedPages true (fun _ => 7) [⟨16, 4⟩] 64 permissionWrite = .ok t ∧
      (TransactionSession.run ⟨fun _ => 7, t⟩ [.stage]).transaction.phase = .staged ∧
      (∀ i, i < ([] : List UInt8).length →
        ∃ p, physicalOf sharedPages (16 + i) = some p ∧ Declared sharedPages [⟨16, 4⟩] p) ∧
      ((TransactionSession.run ⟨fun _ => 7, t⟩ [.stage]).transaction.read sharedPages 16 []).1 =
        .error .range :=
  ⟨_, rfl, rfl, fun i hi => absurd hi (Nat.not_lt_zero i), rfl⟩

end NeverD.Emulation
