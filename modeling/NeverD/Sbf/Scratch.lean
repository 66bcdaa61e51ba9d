import NeverD.Lib.Runs
import NeverD.Sbf.Semantics

namespace NeverD.Sbf
open List

open NeverD.Lib
open Runs (value stop total total_append get_append get_cons get_nil value_none total_cons)
open Option (or_none none_or)

abbrev Byte := BitVec 8

def addressCount : Nat := 2 ^ 64

def memoryRegionSize : Word := 1 <<< 32

def maxModeledScratchBytes : Nat := 1024

structure MemoryModel where
  runs : List (Runs.Run Byte)
  trackedBytes : Nat

namespace MemoryModel

def clear : MemoryModel := ⟨[], 0⟩

def wrappedStop (r : Runs.Run Byte) : Nat := Runs.stop r % addressCount

def cutRun (address stop : Nat) (r : Runs.Run Byte) : List (Runs.Run Byte) :=
  (if r.1 < address then [(r.1, r.2.take (address - r.1))] else []) ++
    if stop < wrappedStop r then [(stop, r.2.drop (stop - r.1))] else []

def cutRuns (address stop : Nat) : List (Runs.Run Byte) → Nat → List (Runs.Run Byte) × Nat
  | [], tracked => ([], tracked)
  | r :: rest, tracked =>
    if r.1 < stop then
      if wrappedStop r ≤ address then
        let (cut, tracked) := cutRuns address stop rest tracked
        (r :: cut, tracked)
      else
        let pieces := cutRun address stop r
        let (cut, tracked) := cutRuns address stop rest (tracked - r.2.length + Runs.total pieces)
        (pieces ++ cut, tracked)
    else (r :: rest, tracked)

def upperBound (m : MemoryModel) (address : Nat) : Nat :=
  (m.runs.takeWhile fun r => r.1 ≤ address).length

/-- Forget an interval. All is forgotten where its end is not an address. -/
def invalidate (m : MemoryModel) (address size : Word) : MemoryModel :=
  if size = 0 ∨ m.runs = [] then m
  else if addressCount - 1 - address.toNat < size.toNat then clear
  else
    let first := m.upperBound address.toNat - 1
    let (cut, tracked) :=
      cutRuns address.toNat (address.toNat + size.toNat) (m.runs.drop first) m.trackedBytes
    ⟨m.runs.take first ++ cut, tracked⟩

/-- Forget an address and all above it in its region. -/
def invalidateFrom (m : MemoryModel) (address : Word) : MemoryModel :=
  let regionEnd := (address / memoryRegionSize + 1) * memoryRegionSize
  m.invalidate address (regionEnd - address)

/-- Record bytes at an address where none are recorded, as one run with its neighbours. -/
def insert (runs : List (Runs.Run Byte)) (address : Nat) (bytes : List Byte) :
    List (Runs.Run Byte) :=
  let before := runs.takeWhile fun r => r.1 ≤ address
  let after := runs.dropWhile fun r => r.1 ≤ address
  let next := (address + bytes.length) % addressCount
  let joined : List (Runs.Run Byte) × Runs.Run Byte :=
    match before.getLast? with
    | some r => if wrappedStop r = address then (before.dropLast, r.1, r.2 ++ bytes)
        else (before, address, bytes)
    | none => (before, address, bytes)
  match (joined.1 ++ after).find? fun r => r.1 = next with
  | some r =>
    joined.1.filter (fun r => r.1 ≠ next) ++ (joined.2.1, joined.2.2 ++ r.2) ::
      after.filter fun r => r.1 ≠ next
  | none => joined.1 ++ joined.2 :: after

def write (m : MemoryModel) (address : Word) (bytes : List Byte) : MemoryModel :=
  if bytes = [] then m
  else
    let m := m.invalidate address (BitVec.ofNat 64 bytes.length)
    if maxModeledScratchBytes < m.trackedBytes + bytes.length then m
    else ⟨insert m.runs address.toNat bytes, m.trackedBytes + bytes.length⟩

def read (m : MemoryModel) (address size : Word) : List Byte :=
  if size = 0 ∨ m.runs = [] then []
  else match (m.runs.takeWhile fun r => r.1 ≤ address.toNat).getLast? with
    | none => []
    | some r =>
      let offset := address.toNat - r.1
      if r.2.length < offset ∨ r.2.length - offset < size.toNat then []
        else (r.2.drop offset).take size.toNat

/-- The bytes of a run on which another model agrees, written span by span. -/
def meetRun (other : MemoryModel) (start : Nat) : List Byte → Nat → MemoryModel → List Byte → Nat →
    MemoryModel
  | [], _, agreed, span, spanStart =>
    if span = [] then agreed else agreed.write (BitVec.ofNat 64 spanStart) span
  | b :: bytes, index, agreed, span, spanStart =>
    if (other.read (BitVec.ofNat 64 (start + index)) 1).head? = some b then
      meetRun other start bytes (index + 1) agreed (span ++ [b]) (if span = [] then start + index
        else spanStart)
    else if span = [] then meetRun other start bytes (index + 1) agreed [] spanStart
    else meetRun other start bytes (index + 1) (agreed.write (BitVec.ofNat 64 spanStart) span)
      [] spanStart

def meet (m other : MemoryModel) : MemoryModel :=
  m.runs.foldl (fun agreed r => meetRun other r.1 r.2 0 agreed [] r.1) clear

def beq (m other : MemoryModel) : Bool := m.runs = other.runs

def recorded (m : MemoryModel) (x : Nat) : Option Byte := Runs.get m.runs x

/-- The runs are canonical, end below the top of the address space, and are counted. -/
structure Valid (m : MemoryModel) : Prop where
  canonical : Runs.Canonical m.runs
  below : ∀ r ∈ m.runs, Runs.stop r < addressCount
  tracked : m.trackedBytes = Runs.total m.runs
  bounded : m.trackedBytes ≤ maxModeledScratchBytes

lemma clear_valid : clear.Valid := ⟨.nil, fun _ h => (not_mem_nil h).elim, rfl, Nat.zero_le _⟩

section

variable {address stop : Nat} {r : Runs.Run Byte}

lemma value_take {n : Nat} (x : Nat) :
    value (r.1, r.2.take n) x = if x < r.1 + n then value r x else none := by
  unfold value
  by_cases hle : r.1 ≤ x
  · rw [if_pos hle, if_pos hle]
    split
    · rw [getElem?_take_of_lt (by omega)]
    · rw [getElem?_eq_none]
      rw [length_take]
      omega
  · rw [if_neg hle, if_neg hle]
    split <;> rfl

lemma value_drop {n : Nat} (x : Nat) :
    value (r.1 + n, r.2.drop n) x = if r.1 + n ≤ x then value r x else none := by
  unfold value
  split
  next hle =>
    rw [if_pos (by omega), getElem?_drop]
    congr 1
    omega
  · rfl

lemma cutRun_within (hstop : Runs.stop r < addressCount) (hstart : r.1 < stop) {s : Runs.Run Byte}
    (hs : s ∈ cutRun address stop r) : r.1 ≤ s.1 ∧ Runs.stop s ≤ Runs.stop r := by
  unfold cutRun at hs
  rw [show wrappedStop r = Runs.stop r from Nat.mod_eq_of_lt hstop] at hs
  rcases mem_append.mp hs with hs | hs
  · split at hs
    · rw [mem_singleton.mp hs]
      unfold Runs.stop
      rw [length_take]
      omega
    · cases hs
  · split at hs
    · rw [mem_singleton.mp hs]
      unfold Runs.stop at *
      rw [length_drop]
      omega
    · cases hs

lemma total_cutRun_le (hstop : Runs.stop r < addressCount) (hlt : address < stop) :
    Runs.total (cutRun address stop r) ≤ r.2.length := by
  unfold cutRun
  rw [show wrappedStop r = Runs.stop r from Nat.mod_eq_of_lt hstop, Runs.total_append]
  unfold Runs.stop at *
  split <;> split <;> simp
  all_goals omega

variable (hstop : Runs.stop r < addressCount) (hne : r.2 ≠ []) (hlt : address < stop)
    (hstart : r.1 < stop)

include hstop hlt hstart

lemma get_cutRun (x : Nat) :
    Runs.get (cutRun address stop r) x = if address ≤ x ∧
      x < stop then none else Runs.value r x := by
  unfold cutRun
  rw [show wrappedStop r = Runs.stop r from Nat.mod_eq_of_lt hstop, Runs.get_append]
  have hhead : Runs.get (if r.1 < address then [(r.1, r.2.take (address - r.1))] else []) x =
      if x < address then Runs.value r x else none := by
    split
    · rw [Runs.get_cons, Runs.get_nil, Option.or_none, value_take]
      congr 1
      exact propext ⟨fun h => by omega, fun h => by omega⟩
    · rw [Runs.get_nil]
      split
      · exact (Runs.value_none (.inl (by omega))).symm
      · rfl
  have htail : Runs.get (if stop < Runs.stop r then [(stop, r.2.drop (stop - r.1))] else []) x =
      if stop ≤ x then Runs.value r x else none := by
    split
    · have hdrop := value_drop (r := r) (n := stop - r.1) x
      rw [show r.1 + (stop - r.1) = stop by omega] at hdrop
      rw [Runs.get_cons, Runs.get_nil, Option.or_none, hdrop]
    · rw [Runs.get_nil]
      split
      · exact (Runs.value_none (.inr (by omega))).symm
      · rfl
  rw [hhead, htail]
  by_cases h1 : x < address
  · rw [if_pos h1, if_neg (show ¬stop ≤ x by omega),
      if_neg (show ¬(address ≤ x ∧ x < stop) by omega), Option.or_none]
  · rw [if_neg h1, Option.none_or]
    by_cases h2 : stop ≤ x
    · rw [if_pos h2, if_neg (by omega)]
    · rw [if_neg h2, if_pos (by omega)]

include hne

lemma cutRun_canonical : Runs.Canonical (cutRun address stop r) := by
  unfold cutRun
  rw [show wrappedStop r = Runs.stop r from Nat.mod_eq_of_lt hstop]
  have hlen : 0 < r.2.length := length_pos_iff.mpr hne
  apply Runs.Canonical.append_iff.mpr
  refine ⟨?_, ?_, ?_⟩
  · split
    · apply Runs.Canonical.cons_iff.mpr
      refine ⟨?_, fun s hs => (not_mem_nil hs).elim, .nil⟩
      apply length_pos_iff.mp
      rw [length_take]
      omega
    · exact .nil
  · split
    · apply Runs.Canonical.cons_iff.mpr
      refine ⟨?_, fun s hs => (not_mem_nil hs).elim, .nil⟩
      apply length_pos_iff.mp
      rw [length_drop]
      unfold Runs.stop at *
      omega
    · exact .nil
  · intro s hs t ht
    split at hs
    · rw [mem_singleton.mp hs]
      split at ht
      · rw [mem_singleton.mp ht]
        unfold Runs.stop
        rw [length_take]
        omega
      · cases ht
    · cases hs

end

section

variable {address stop : Nat} {runs : List (Runs.Run Byte)}

lemma cutRuns_within (hbelow : ∀ r ∈ runs, Runs.stop r < addressCount) {tracked : Nat}
    {s : Runs.Run Byte} (hs : s ∈ (cutRuns address stop runs tracked).1) :
    ∃ r ∈ runs, r.1 ≤ s.1 ∧ Runs.stop s ≤ Runs.stop r := by
  induction runs generalizing tracked with
  | nil => cases hs
  | cons r runs ih =>
    have hrest : ∀ r ∈ runs, Runs.stop r < addressCount :=
      fun r hr => hbelow r (mem_cons_of_mem _ hr)
    have hlater : ∀ {t : Nat}, s ∈ (cutRuns address stop runs t).1 →
        ∃ q ∈ r :: runs, q.1 ≤ s.1 ∧ Runs.stop s ≤ Runs.stop q := by
      intro t ht
      obtain ⟨q, hq, hin⟩ := ih hrest ht
      exact ⟨q, mem_cons_of_mem _ hq, hin⟩
    unfold cutRuns at hs
    split at hs
    next hstart =>
      split at hs
      · rcases mem_cons.mp hs with hs | hs
        · exact ⟨r, mem_cons_self, by rw [hs]; exact ⟨Nat.le_refl _, Nat.le_refl _⟩⟩
        · exact hlater hs
      · rcases mem_append.mp hs with hs | hs
        · exact ⟨r, mem_cons_self, cutRun_within (hbelow r mem_cons_self) hstart hs⟩
        · exact hlater hs
    · exact ⟨s, hs, Nat.le_refl _, Nat.le_refl _⟩

variable (hcanonical : Runs.Canonical runs) (hbelow : ∀ r ∈ runs, Runs.stop r < addressCount)
    (hlt : address < stop)

include hcanonical hbelow hlt

lemma get_cutRuns (tracked x : Nat) : Runs.get (cutRuns address stop runs tracked).1 x =
    if address ≤ x ∧ x < stop then none else Runs.get runs x := by
  induction runs generalizing tracked with
  | nil => split <;> rfl
  | cons r runs ih =>
    obtain ⟨hne, hgap, htail⟩ := Runs.Canonical.cons_iff.mp hcanonical
    have hr : Runs.stop r < addressCount := hbelow r mem_cons_self
    have ih := fun t => ih htail (fun s hs => hbelow s (mem_cons_of_mem _ hs)) t
    unfold cutRuns
    split
    next hstart =>
      split
      next hout =>
        rw [show wrappedStop r = Runs.stop r from Nat.mod_eq_of_lt hr] at hout
        rw [Runs.get_cons, ih, Runs.get_cons]
        split
        · rw [Runs.value_none (.inr (by omega))]
          rfl
        · rfl
      · dsimp only
        rw [Runs.get_append, ih, get_cutRun hr hlt hstart, Runs.get_cons]
        split <;> rfl
    · -- All runs from here on start at the end of the interval or behind it.
      rename_i hstart
      split
      next hin =>
        apply Runs.get_none
        intro s hs
        rcases mem_cons.mp hs with hs | hs
        · rw [hs]
          omega
        · have := hgap s hs
          unfold Runs.stop at this
          omega
      · rfl

lemma cutRuns_canonical (tracked : Nat) : Runs.Canonical (cutRuns address stop runs tracked).1 := by
  induction runs generalizing tracked with
  | nil => exact .nil
  | cons r runs ih =>
    obtain ⟨hne, hgap, htail⟩ := Runs.Canonical.cons_iff.mp hcanonical
    have hr : Runs.stop r < addressCount := hbelow r mem_cons_self
    have hrest : ∀ s ∈ runs, Runs.stop s < addressCount :=
      fun s hs => hbelow s (mem_cons_of_mem _ hs)
    have hbehind : ∀ t, ∀ s ∈ (cutRuns address stop runs t).1, Runs.stop r < s.1 := by
      intro t s hs
      obtain ⟨q, hq, hle, -⟩ := cutRuns_within hrest hs
      have := hgap q hq
      omega
    unfold cutRuns
    split
    next hstart =>
      split
      · exact Runs.Canonical.cons_iff.mpr ⟨hne, hbehind _, ih htail hrest _⟩
      · apply Runs.Canonical.append_iff.mpr
        refine ⟨cutRun_canonical hr hne hlt hstart, ih htail hrest _, ?_⟩
        intro s hs t ht
        have h1 := (cutRun_within hr hstart hs).2
        have h2 := hbehind _ t ht
        omega
    · exact hcanonical

theorem cutRuns_tracked {tracked : Nat} (htracked : Runs.total runs ≤ tracked) :
    (cutRuns address stop runs tracked).2 + Runs.total runs =
      tracked + Runs.total (cutRuns address stop runs tracked).1 ∧
    Runs.total (cutRuns address stop runs tracked).1 ≤ Runs.total runs := by
  induction runs generalizing tracked with
  | nil => exact ⟨rfl, Nat.le_refl _⟩
  | cons r runs ih =>
    obtain ⟨hne, hgap, htail⟩ := Runs.Canonical.cons_iff.mp hcanonical
    have hr : Runs.stop r < addressCount := hbelow r mem_cons_self
    have ih := fun (t : Nat) => @ih htail (fun s hs => hbelow s (mem_cons_of_mem _ hs)) t
    rw [Runs.total_cons] at htracked ⊢
    unfold cutRuns
    split
    next hstart =>
      split
      · have := ih tracked (by omega)
        dsimp only
        rw [Runs.total_cons]
        omega
      · have hpieces := total_cutRun_le (r := r) hr hlt
        have := ih (tracked - r.2.length + Runs.total (cutRun address stop r)) (by omega)
        dsimp only
        rw [Runs.total_append]
        omega
    · exact ⟨rfl, Nat.le_refl _⟩

end

lemma cutRuns_append {address stop : Nat} {runs rest : List (Runs.Run Byte)} (hlt : address < stop)
    (hbefore : ∀ r ∈ runs, Runs.stop r ≤ address) (hbelow : ∀ r ∈ runs, Runs.stop r < addressCount)
    (tracked : Nat) : cutRuns address stop (runs ++ rest) tracked =
      (runs ++ (cutRuns address stop rest tracked).1, (cutRuns address stop rest tracked).2) := by
  induction runs with
  | nil => rfl
  | cons r runs ih =>
    have hr := hbefore r mem_cons_self
    have ih :=
      ih (fun s hs => hbefore s (mem_cons_of_mem _ hs)) fun s hs => hbelow s (mem_cons_of_mem _ hs)
    have hstop : wrappedStop r = Runs.stop r := Nat.mod_eq_of_lt (hbelow r mem_cons_self)
    rw [cons_append, cutRuns]
    rw [if_pos (by unfold Runs.stop at hr; omega), if_pos (by omega), ih]
    rfl

section

variable {runs : List (Runs.Run Byte)} {address : Nat}

lemma mem_before (r : Runs.Run Byte) (hr : r ∈ runs.takeWhile fun r => r.1 ≤ address) :
    r ∈ runs ∧ r.1 ≤ address := by
  refine ⟨( takeWhile_prefix _).subset hr, ?_⟩
  have hall := all_takeWhile (p := fun r : Runs.Run Byte => r.1 ≤ address) (l := runs)
  simpa using all_eq_true.mp hall r hr

lemma lt_of_mem_after (hcanonical : Runs.Canonical runs) {r : Runs.Run Byte}
    (hr : r ∈ runs.dropWhile fun r => r.1 ≤ address) : address < r.1 := by
  induction runs with
  | nil => cases hr
  | cons s runs ih =>
    obtain ⟨-, hgap, htail⟩ := Runs.Canonical.cons_iff.mp hcanonical
    rw [dropWhile_cons] at hr
    split at hr
    · exact ih htail hr
    next hs =>
      have hs : address < s.1 := by simpa using hs
      rcases mem_cons.mp hr with hr | hr
      · rw [hr]
        exact hs
      · have := hgap r hr
        unfold stop at this
        omega

theorem getLast_before (hcanonical : Runs.Canonical runs) {r : Runs.Run Byte} (hr : r ∈ runs)
    (hle : r.1 ≤ address)
    (hlt : address < stop r) : (runs.takeWhile fun r => r.1 ≤ address).getLast? = some r := by
  have hin : r ∈ runs.takeWhile fun r => r.1 ≤ address := by
    have hsplit :=
      takeWhile_append_dropWhile (p := fun r : Runs.Run Byte => r.1 ≤ address) (l := runs)
    rw [← hsplit] at hr
    rcases mem_append.mp hr with hr | hr
    · exact hr
    · have := lt_of_mem_after hcanonical hr
      omega
  cases hlast : (runs.takeWhile fun r => r.1 ≤ address).getLast? with
  | none =>
    rw [getLast?_eq_none_iff.mp hlast] at hin
    cases hin
  | some s =>
    have hs := mem_before s (mem_of_getLast? hlast)
    rcases hcanonical.apart hr hs.1 with heq | hgap | hgap
    · rw [heq]
    · omega
    · -- The last one of a list in order does not lie before another.
      obtain ⟨front, hfront⟩ := getLast?_eq_some_iff.mp hlast
      have hsorted :=
        hcanonical.gaps.sublist ( takeWhile_prefix fun r => decide (r.1 ≤ address)).sublist
      rw [hfront] at hin hsorted
      rcases mem_append.mp hin with hin | hin
      · have := (pairwise_append.mp hsorted).2.2 r hin s mem_cons_self
        omega
      · rw [mem_singleton.mp hin]

theorem stop_le_of_mem_take (hcanonical : Runs.Canonical runs) {r : Runs.Run Byte}
    (hr : r ∈ runs.take ((runs.takeWhile fun r => r.1 ≤ address).length - 1)) :
    stop r ≤ address := by
  generalize hbefore : (runs.takeWhile fun r => r.1 ≤ address) = before at hr
  have hprefix : before <+: runs := hbefore ▸ takeWhile_prefix _
  rcases eq_nil_or_concat before with hnil | ⟨front, s, hconcat⟩
  · rw [hnil] at hr
    cases hr
  · obtain ⟨rest, hrest⟩ := hprefix
    rw [hconcat] at hr hbefore hrest
    have htake : runs.take ((front.concat s).length - 1) = front := by
      rw [← hrest]
      simp
    rw [htake] at hr
    have hs := @mem_before runs address s (by rw [hbefore]; simp)
    have hgaps := hcanonical.gaps
    rw [← hrest, concat_eq_append, append_assoc] at hgaps
    have := (pairwise_append.mp hgaps).2.2 r hr s (by simp)
    omega

end

/-- Forgetting takes the interval out, and all else only where its end is not an address. -/
theorem invalidate_spec {m : MemoryModel} (hm : m.Valid) (address size : Word) :
    (m.invalidate address size).Valid ∧ (m.invalidate address size).trackedBytes ≤ m.trackedBytes ∧
    (address.toNat + size.toNat < addressCount → ∀ x, (m.invalidate address size).recorded x =
      if address.toNat ≤ x ∧ x < address.toNat + size.toNat then none else m.recorded x) ∧
    (addressCount ≤ address.toNat + size.toNat → size ≠ 0 →
      ∀ x, (m.invalidate address size).recorded x = none) := by
  have haddress : address.toNat < addressCount := address.isLt
  unfold invalidate
  split
  next hnone =>
    refine ⟨hm, Nat.le_refl _, ?_, ?_⟩
    · intro _ x
      rcases hnone with hzero | hempty
      · rw [hzero, if_neg (by simp)]
      · unfold recorded
        rw [hempty]
        split <;> rfl
    · intro _ hne x
      rcases hnone with hzero | hempty
      · exact (hne hzero).elim
      · unfold recorded
        rw [hempty]
        rfl
  next hsome =>
    have hpos : 0 < size.toNat := by
      rcases Nat.eq_zero_or_pos size.toNat with h | h
      · exact (hsome (.inl (BitVec.eq_of_toNat_eq h))).elim
      · exact h
    split
    next hwide => exact ⟨clear_valid, Nat.zero_le _, fun h => by omega, fun _ _ x => rfl⟩
    next hnarrow =>
      have hlt : address.toNat < address.toNat + size.toNat := by omega
      -- The search only skips runs that the loop would step over.
      generalize hfirst : m.upperBound address.toNat - 1 = first
      have hbefore : ∀ r ∈ m.runs.take first, Runs.stop r ≤ address.toNat := by
        intro r hr
        rw [← hfirst] at hr
        exact stop_le_of_mem_take hm.canonical hr
      have hall := @cutRuns_append _ _ _ (m.runs.drop first) hlt hbefore
        (fun r hr => hm.below r (mem_of_mem_take hr)) m.trackedBytes
      rw [take_append_drop] at hall
      generalize hcut : cutRuns address.toNat (address.toNat + size.toNat) m.runs m.trackedBytes =
        cut at hall
      have hruns : m.runs.take first ++ (cutRuns address.toNat (address.toNat + size.toNat)
          (m.runs.drop first) m.trackedBytes).1 = cut.1 := by
        rw [hall]
      have htracked : (cutRuns address.toNat (address.toNat + size.toNat)
          (m.runs.drop first) m.trackedBytes).2 = cut.2 := by
        rw [hall]
      dsimp only
      rw [hruns, htracked]
      have hget := get_cutRuns hm.canonical hm.below hlt m.trackedBytes
      have hcanonical := cutRuns_canonical hm.canonical hm.below hlt m.trackedBytes
      have hcount := cutRuns_tracked hm.canonical hm.below hlt (Nat.le_of_eq hm.tracked.symm)
      rw [hcut] at hget hcanonical hcount
      have hbound := hm.bounded
      have htotal := hm.tracked
      refine ⟨⟨hcanonical, ?_, by dsimp only; omega, by dsimp only; omega⟩, by
        omega, fun _ => hget, fun h => by omega⟩
      intro r hr
      rw [← hcut] at hr
      obtain ⟨s, hs, -, hle⟩ := cutRuns_within hm.below hr
      have := hm.below s hs
      omega

def piece (start : Nat) (bytes : List Byte) : List (Runs.Run Byte) :=
  if bytes = [] then [] else [(start, bytes)]

lemma get_piece (start x : Nat) (bytes : List Byte) :
    Runs.get (piece start bytes) x = value (start, bytes) x := by
  unfold piece
  split
  next hnil =>
    rw [hnil, value_none (by unfold stop; simp; omega)]
    rfl
  · rw [get_cons, get_nil, or_none]

@[simp] lemma total_piece (start : Nat) (bytes : List Byte) :
    total (piece start bytes) = bytes.length := by
  unfold piece
  split
  next hnil =>
    rw [hnil]
    rfl
  · rfl

lemma mem_piece {start : Nat} {bytes : List Byte} (hne : bytes ≠ []) :
    (start, bytes) ∈ piece start bytes := by
  unfold piece
  rw [if_neg hne]
  exact mem_cons_self

section

variable {runs : List (Runs.Run Byte)} {address : Nat} {bytes : List Byte}

theorem join_before {before : List (Runs.Run Byte)} (hcanonical : Runs.Canonical before)
    (hbefore : ∀ r ∈ before, stop r ≤ address) (htop : address < addressCount) :
    ∃ front head, head.length ≤ address ∧ before = front ++ piece (address - head.length) head ∧
      (∀ r ∈ front, stop r < address - head.length) ∧
      (match before.getLast? with
        | some r => if wrappedStop r = address then (before.dropLast, r.1, r.2 ++ bytes)
          else (before, address, bytes)
        | none => (before, address, bytes)) = (front, address - head.length, head ++ bytes) := by
  rcases eq_nil_or_concat before with hnil | ⟨front, s, hconcat⟩
  · exact ⟨[], [], Nat.zero_le _, hnil, fun r hr => (not_mem_nil hr).elim, by rw [hnil]; rfl⟩
  · rw [concat_eq_append] at hconcat
    have hs : s ∈ before := by rw [hconcat]; simp
    have hle := hbefore s hs
    have hstop : wrappedStop s = stop s := Nat.mod_eq_of_lt (by omega)
    have hordered : ∀ r ∈ front, stop r < s.1 := by
      intro r hr
      rw [hconcat] at hcanonical
      exact (Runs.Canonical.append_iff.mp hcanonical).2.2 r hr s mem_cons_self
    have hlast : before.getLast? = some s := by rw [hconcat]; simp
    rw [hlast]
    dsimp only
    split
    next hends =>
      rw [hstop] at hends
      have hstart : address - s.2.length = s.1 := by unfold stop at hends; omega
      refine ⟨front, s.2, by unfold stop at hends; omega, ?_, ?_, ?_⟩
      · unfold piece
        rw [if_neg (hcanonical.nonempty s hs), hstart]
        exact hconcat
      · rw [hstart]
        exact hordered
      · rw [hstart, hconcat, dropLast_concat]
    next hends =>
      rw [hstop] at hends
      refine ⟨before, [], Nat.zero_le _, by simp [piece], ?_, rfl⟩
      intro r hr
      rw [length_nil, Nat.sub_zero]
      rw [hconcat] at hr
      rcases mem_append.mp hr with hr | hr
      · have h1 := hordered r hr
        have h2 := hcanonical.stop_pos hs
        omega
      · rw [mem_singleton.mp hr]
        omega

theorem join_after {after : List (Runs.Run Byte)} (hcanonical : Runs.Canonical after) {next : Nat}
    (hafter : ∀ r ∈ after, next ≤ r.1) (front : List (Runs.Run Byte)) (start : Nat)
    (run : List Byte) :
    ∃ tail rest, after = piece next tail ++ rest ∧ (∀ r ∈ rest, next + tail.length < r.1) ∧
      (match after.find? fun r => r.1 = next with
        | some r => front ++ (start, run ++ r.2) :: after.filter fun r => r.1 ≠ next
        | none => front ++ (start, run) :: after) = front ++ (start, run ++ tail) :: rest := by
  cases after with
  | nil => exact ⟨[], [], rfl, fun r hr => (not_mem_nil hr).elim, by simp⟩
  | cons s rest =>
    obtain ⟨hne, hgaps, -⟩ := Runs.Canonical.cons_iff.mp hcanonical
    have hfirst := hafter s mem_cons_self
    have hbehind : ∀ r ∈ rest, s.1 + s.2.length < r.1 := hgaps
    by_cases hs : s.1 = next
    · refine ⟨s.2, rest, ?_, ?_, ?_⟩
      · unfold piece
        rw [if_neg hne, ← hs]
        rfl
      · rw [← hs]
        exact hbehind
      · have hkeep : (rest.filter fun r => r.1 ≠ next) = rest := by
          apply filter_eq_self.mpr
          intro r hr
          have := hbehind r hr
          simp only [ne_eq, decide_not, Bool.not_eq_eq_eq_not, Bool.not_true,
            decide_eq_false_iff_not]
          omega
        rw [find?_cons_of_pos (by simpa using hs), filter_cons_of_neg (by simpa using hs), hkeep]
    · have hlater : ∀ r ∈ s :: rest, next < r.1 := by
        intro r hr
        rcases mem_cons.mp hr with hr | hr
        · rw [hr]
          omega
        · have := hbehind r hr
          omega
      have hnone : ((s :: rest).find? fun r => r.1 = next) = none := by
        rw [find?_eq_none]
        intro r hr
        have := hlater r hr
        simp only [decide_eq_true_eq]
        omega
      refine ⟨[], s :: rest, rfl, hlater, ?_⟩
      rw [hnone, append_nil]

/-- The recorded bytes are joined to the run that ends where they start and to the one that starts
where they end. -/
theorem insert_shape (hcanonical : Runs.Canonical runs) (hne : bytes ≠ [])
    (htop : address + bytes.length < addressCount)
    (hfree : ∀ x, address ≤ x → x < address + bytes.length → Runs.get runs x = none) :
    ∃ before head tail after, head.length ≤ address ∧
      insert runs address bytes = before ++ (address - head.length, head ++ bytes ++ tail) ::
      after ∧
      runs = before ++ piece (address - head.length) head ++
      (piece (address + bytes.length) tail ++ after) ∧
      (∀ r ∈ before, stop r < address - head.length) ∧
      (∀ r ∈ after, address + bytes.length + tail.length < r.1) := by
  have hlen : 0 < bytes.length := length_pos_iff.mpr hne
  -- The bytes lie in a gap.
  have hgap : ∀ r ∈ runs, stop r ≤ address ∨ address + bytes.length ≤ r.1 := by
    intro r hr
    have hpos := hcanonical.stop_pos hr
    by_contra hmeets
    obtain ⟨b, hb⟩ :=
      Runs.value_some_iff.mpr (show r.1 ≤ max r.1 address ∧ max r.1 address < stop r by omega)
    have hsome := hcanonical.get_of_value hr hb
    rw [hfree _ (by omega) (by omega)] at hsome
    cases hsome
  have hsplit :=
    takeWhile_append_dropWhile (p := fun r : Runs.Run Byte => r.1 ≤ address) (l := runs)
  have hbeforeMem := @mem_before runs address
  have hafterMem := fun r => @lt_of_mem_after runs address hcanonical r
  unfold insert
  dsimp only
  generalize (runs.takeWhile fun r => r.1 ≤ address) = before at *
  generalize (runs.dropWhile fun r => r.1 ≤ address) = after at *
  rw [← hsplit] at hcanonical
  obtain ⟨hcb, hca, -⟩ := Runs.Canonical.append_iff.mp hcanonical
  have hbefore : ∀ r ∈ before, stop r ≤ address := by
    intro r hr
    have h1 := hgap r (hbeforeMem r hr).1
    have h2 := (hbeforeMem r hr).2
    omega
  have hafter : ∀ r ∈ after, address + bytes.length ≤ r.1 := by
    intro r hr
    have h1 := hgap r (by rw [← hsplit]; exact mem_append_right _ hr)
    have h2 := hafterMem r hr
    have h3 := hca.stop_pos hr
    omega
  obtain ⟨front, head, hhead, hfront, hfrontGap, hjoined⟩ :=
    @join_before _ bytes _ hcb hbefore (by omega)
  have hother : ∀ r ∈ front, r.1 ≠ address + bytes.length := by
    intro r hr
    have h := (hbeforeMem r (hfront ▸ mem_append_left _ hr)).2
    omega
  rw [hjoined, Nat.mod_eq_of_lt htop, find?_append,
    find?_eq_none.mpr fun r hr hcon => hother r hr (of_decide_eq_true hcon),
    Option.none_or, filter_eq_self.mpr fun r hr => decide_eq_true (hother r hr)]
  obtain ⟨tail, rest, hrest, hrestGap, hresult⟩ :=
    join_after hca hafter front (address - head.length) (head ++ bytes)
  refine ⟨front, head, tail, rest, hhead, hresult, ?_, hfrontGap, hrestGap⟩
  rw [← hsplit, hfront, hrest]

/-- Recording bytes in a gap adds them to the map, and the runs stay canonical. -/
theorem insert_spec (hcanonical : Runs.Canonical runs) (hbelow : ∀ r ∈ runs, stop r < addressCount)
    (hne : bytes ≠ []) (htop : address + bytes.length < addressCount)
    (hfree : ∀ x, address ≤ x → x < address + bytes.length → Runs.get runs x = none) :
    Runs.Canonical (insert runs address bytes) ∧
    (∀ r ∈ insert runs address bytes, stop r < addressCount) ∧
    total (insert runs address bytes) = total runs + bytes.length ∧
    ∀ x, Runs.get (insert runs address bytes) x = if address ≤ x ∧ x < address + bytes.length then
      bytes[x - address]? else Runs.get runs x := by
  obtain ⟨before, head, tail, after, hhead, hinsert, hruns, hbefore, hafter⟩ :=
    insert_shape hcanonical hne htop hfree
  have hcanonical' := hcanonical
  rw [hruns] at hcanonical'
  obtain ⟨hl, hr, -⟩ := Runs.Canonical.append_iff.mp hcanonical'
  have hcb := (Runs.Canonical.append_iff.mp hl).1
  have hca := (Runs.Canonical.append_iff.mp hr).2.1
  have hstop : stop (address - head.length, head ++ bytes ++ tail) = address + bytes.length +
      tail.length := by
    unfold stop
    simp only [length_append]
    omega
  rw [hinsert]
  refine ⟨?_, ?_, ?_, ?_⟩
  · apply Runs.Canonical.append_iff.mpr
    refine ⟨hcb, Runs.Canonical.cons_iff.mpr ⟨by simp [hne], by rw [hstop]; exact hafter, hca⟩, ?_⟩
    intro r hr s hs
    have h1 := hbefore r hr
    rcases mem_cons.mp hs with hs | hs
    · rw [hs]
      exact h1
    · have := hafter s hs
      omega
  · intro r hr
    rcases mem_append.mp hr with hr | hr
    · exact hbelow r (by rw [hruns]; simp [hr])
    · rcases mem_cons.mp hr with hr | hr
      · rw [hr, hstop]
        by_cases htail : tail = []
        · rw [htail]
          exact htop
        · have := hbelow (address + bytes.length, tail) (by
            rw [hruns]
            exact mem_append_right _ (mem_append_left _ (mem_piece htail)))
          exact this
      · exact hbelow r (by rw [hruns]; simp [hr])
  · rw [hruns]
    simp only [total_append, total_cons, total_piece, length_append]
    omega
  · intro x
    have hget : Runs.get runs x =
        ((Runs.get before x).or (value (address - head.length, head) x)).or
        ((value (address + bytes.length, tail) x).or (Runs.get after x)) := by
      rw [hruns]
      simp only [get_append, get_piece]
    have hjoined : Runs.get (before ++ (address - head.length, head ++ bytes ++ tail) :: after) x =
        ((Runs.get before x).or (value (address - head.length, head) x)).or
            ((value (address, bytes) x).or
            ((value (address + bytes.length, tail) x).or (Runs.get after x))) := by
      rw [get_append, get_cons, Runs.value_append, Runs.value_append,
        show address - head.length + head.length = address by omega,
        show address - head.length + (head ++ bytes).length = address + bytes.length by
          rw [length_append]; omega]
      simp only [Option.or_assoc]
    rw [hjoined]
    split
    next hin =>
      have hnone := hfree x hin.1 hin.2
      rw [hget, Option.or_eq_none_iff] at hnone
      rw [hnone.1, hnone.2, or_none, none_or]
      unfold value
      rw [if_pos hin.1]
    next hout =>
      rw [hget, value_none (r := (address, bytes)) (by unfold stop; dsimp only; omega), none_or]

end

/-- A write replaces the bytes of its interval, or only forgets them once the budget is spent. -/
theorem write_spec {m : MemoryModel} (hm : m.Valid) {address : Word} {bytes : List Byte}
    (htop : address.toNat + bytes.length < addressCount) :
    (m.write address bytes).Valid ∧ (m.write address bytes).trackedBytes ≤ m.trackedBytes +
    bytes.length ∧ ∀ x, (m.write address bytes).recorded x =
      if address.toNat ≤ x ∧ x < address.toNat + bytes.length then
        if (m.invalidate address (BitVec.ofNat 64 bytes.length)).trackedBytes + bytes.length ≤
          maxModeledScratchBytes
        then bytes[x - address.toNat]? else none
      else m.recorded x := by
  have hsize : (BitVec.ofNat 64 bytes.length).toNat = bytes.length := by
    rw [BitVec.toNat_ofNat]
    exact Nat.mod_eq_of_lt (by unfold addressCount at htop; omega)
  obtain ⟨hvalid, hle, hrecorded, -⟩ := invalidate_spec hm address (BitVec.ofNat 64 bytes.length)
  rw [hsize] at hrecorded
  have hrecorded := hrecorded htop
  unfold write
  split
  next hnil =>
    refine ⟨hm, Nat.le_add_right _ _, ?_⟩
    intro x
    rw [hnil, if_neg (by simp)]
  next hne =>
    dsimp only
    split
    next hover =>
      refine ⟨hvalid, by omega, ?_⟩
      intro x
      rw [hrecorded, if_neg (show ¬_ ≤ maxModeledScratchBytes by omega)]
    next hroom =>
      have hfree : ∀ x, address.toNat ≤ x → x < address.toNat + bytes.length →
          Runs.get (m.invalidate address (BitVec.ofNat 64 bytes.length)).runs x = none := by
        intro x h1 h2
        have hx := hrecorded x
        rw [if_pos ⟨h1, h2⟩] at hx
        exact hx
      obtain ⟨hcanonical, hbelow, htotal, hget⟩ :=
        insert_spec hvalid.canonical hvalid.below hne htop hfree
      have htracked := hvalid.tracked
      refine ⟨⟨hcanonical, hbelow, by dsimp only; omega, by dsimp only; omega⟩, by
        dsimp only; omega, ?_⟩
      intro x
      rw [if_pos (show _ ≤ maxModeledScratchBytes by omega)]
      unfold recorded
      rw [hget]
      split
      · rfl
      next hout =>
        have hx := hrecorded x
        rw [if_neg hout] at hx
        exact hx

lemma read_spec {m : MemoryModel} (hm : m.Valid) (address size : Word) :
    (m.read address size ≠ [] ↔ size ≠ 0 ∧ ∀ i < size.toNat, ∃ b, m.recorded (address.toNat + i) =
    some b) ∧ (m.read address size ≠ [] → (m.read address size).length = size.toNat ∧
      ∀ i < size.toNat, (m.read address size)[i]? = m.recorded (address.toNat + i)) := by
  by_cases hzero : size = 0
  · have hread : m.read address size = [] := by
      unfold read
      rw [if_pos (.inl hzero)]
    rw [hread]
    exact ⟨⟨fun h => (h rfl).elim, fun h => (h.1 hzero).elim⟩, fun h => (h rfl).elim⟩
  · have hpos : 0 < size.toNat := by
      rcases Nat.eq_zero_or_pos size.toNat with h | h
      · exact (hzero (BitVec.eq_of_toNat_eq h)).elim
      · exact h
    by_cases hall : ∀ i < size.toNat, ∃ b, m.recorded (address.toNat + i) = some b
    · obtain ⟨r, hr, hle, hstop⟩ := (hm.canonical.covered_iff hpos).mp hall
      have hlast := getLast_before hm.canonical hr hle (by omega)
      have hread : m.read address size = (r.2.drop (address.toNat - r.1)).take size.toNat := by
        unfold read
        rw [if_neg, hlast]
        · dsimp only
          rw [if_neg]
          unfold stop at hstop
          omega
        · intro hor
          rcases hor with h | h
          · exact hzero h
          · rw [h] at hr
            cases hr
      have hlength : (m.read address size).length = size.toNat := by
        rw [hread, length_take, length_drop]
        unfold stop at hstop
        omega
      have hne : m.read address size ≠ [] := length_pos_iff.mp (by omega)
      refine ⟨⟨fun _ => ⟨hzero, hall⟩, fun _ => hne⟩, fun _ => ⟨hlength, ?_⟩⟩
      intro i hi
      obtain ⟨b, hb⟩ := Runs.value_some_iff.mpr
        (show r.1 ≤ address.toNat + i ∧ address.toNat + i < stop r by omega)
      rw [recorded, hm.canonical.get_of_value hr hb, ← hb, hread, getElem?_take_of_lt hi,
        getElem?_drop]
      unfold value
      rw [if_pos (by omega)]
      congr 1
      omega
    · have hread : m.read address size = [] := by
        unfold read
        split
        · rfl
        · split
          · rfl
          next r hlast =>
            obtain ⟨hr, hle⟩ := mem_before r (mem_of_getLast? hlast)
            dsimp only
            split
            · rfl
            next hfits =>
              exact (hall ((hm.canonical.covered_iff hpos).mpr ⟨r, hr,
                hle, by unfold stop; omega⟩)).elim
      rw [hread]
      exact ⟨⟨fun h => (h rfl).elim, fun h => (hall h.2).elim⟩, fun h => (h rfl).elim⟩

end MemoryModel

end NeverD.Sbf
