import Mathlib.Data.List.Basic
import Mathlib.Tactic.Common

namespace NeverD.Support
open List

def tail : Nat := 16

/-- The length of the narrowed interval. -/
def narrowed (membership : Bool) : Nat :=
  if membership then tail - 1 else tail

lemma narrowed_pos (membership : Bool) : 0 < narrowed membership := by cases membership <;> decide

section

variable (data : List UInt64) (key : UInt64) {σ : Type}

/-- The start of the interval that the search is narrowed to. -/
def narrow (retained membership : Bool) (base size : Nat) : Option Nat :=
  if narrowed membership < size then
    match data[base + size / 2]? with
    | none => none
    | some pivot =>
      if retained then narrow retained membership (base + if pivot < key then size / 2 else 0)
        (size - size / 2)
      else if pivot < key then narrow retained membership (base + size / 2 + 1)
        (size - (size / 2 + 1))
      else narrow retained membership base (size / 2)
  else some base
termination_by size
decreasing_by all_goals have := narrowed_pos membership; omega

def lowerBound : Nat := data.findIdx fun x => !(x < key)

def binarySearch : Bool := data.contains key

def loadU (lanes first : Nat) : Option (List UInt64) :=
  if first + lanes ≤ data.length then some ((data.drop first).take lanes) else none

def vectors (lanes base : Nat) (f : σ → List UInt64 → σ) (i : Nat) (s : σ) : Option (Nat × σ) :=
  if 0 < lanes ∧ lanes ≤ tail - i then do
    vectors lanes base f (i + lanes) (f s (← loadU data lanes (base + i)))
  else some (i, s)
termination_by tail - i

def scalars (base : Nat) (f : σ → UInt64 → σ) : Nat → σ → Option σ
  | 0, s => some s
  | n + 1, s => do scalars base f n (f s (← data[base + (tail - (n + 1))]?))

def lowerBound64Impl (retained : Bool) (lanes : Nat) : Option Nat := do
  let base := min (← narrow data key retained false 0 data.length) (data.length - tail)
  let (i, below) ← vectors data lanes base (fun below lane => below + lane.countP (· < key)) 0 0
  let below ← scalars data base (fun below x => below + (if x < key then 1 else 0)) (tail - i) below
  pure (base + below)

def contains64Impl (retained : Bool) (lanes : Nat) : Option Bool := do
  let base := min (← narrow data key retained true 0 data.length) (data.length - tail)
  let (i, hits) ← vectors data lanes base (fun hits lane => zipWith or hits (lane.map (· == key))) 0
    (replicate lanes false)
  scalars data base (fun found x => found || x == key) (tail - i) (hits.any id)

end

variable {data : List UInt64} {key : UInt64} {lanes base : Nat} {σ : Type}

/-- Every key before the index is below, and no other. -/
def Splits (data : List UInt64) (key : UInt64) (rank : Nat) : Prop :=
  rank ≤ data.length ∧ ∀ (i : Nat) (h : i < data.length), data[i] < key ↔ i < rank

lemma splits_lowerBound (hsorted : data.Pairwise (· ≤ ·)) :
    Splits data key (lowerBound data key) := by
  unfold lowerBound
  refine ⟨findIdx_le_length,
    fun i hi => ⟨fun hlt => ?_, fun hlt => by simpa using not_of_lt_findIdx hlt⟩⟩
  by_contra hge
  have hrank := Nat.lt_of_le_of_lt (Nat.not_lt.mp hge) hi
  have hkey := findIdx_getElem (w := hrank)
  have hle : data[data.findIdx fun x => !(x < key)] ≤ data[i] := by
    rcases Nat.eq_or_lt_of_le (Nat.not_lt.mp hge) with heq | h
    · simp [heq]
    · exact pairwise_iff_getElem.mp hsorted _ _ _ _ h
  simp only [Bool.not_eq_eq_eq_not, Bool.not_true, decide_eq_false_iff_not] at hkey
  exact hkey (UInt64.lt_of_le_of_lt hle hlt)

variable {rank : Nat} (h : Splits data key rank)
include h

theorem narrow_spec (retained membership : Bool) {size : Nat} (hlow : base ≤ rank)
    (hhigh : rank ≤ base + size)
    (hend : base + size ≤ data.length) :
      ∃ b, narrow data key retained membership base size = some b ∧ b ≤ rank ∧
      rank ≤ b + narrowed membership := by
  induction size using Nat.strongRecOn generalizing base with
  | ind size ih =>
    rw [narrow]
    split
    next hbig =>
      have hpos := narrowed_pos membership
      have hload : base + size / 2 < data.length := by omega
      rw [getElem?_eq_getElem hload]
      simp only [h.2 _ hload]
      split
      · split
        · exact ih _ (by omega) (by omega) (by omega) (by omega)
        · exact ih _ (by omega) (by omega) (by omega) (by omega)
      · split
        · exact ih _ (by omega) (by omega) (by omega) (by omega)
        · exact ih _ (by omega) hlow (by omega) (by omega)
    next hsmall => exact ⟨base, rfl, hlow, by omega⟩

omit h

variable (hbase : base + tail ≤ data.length)
include hbase

lemma vectors_spec (lanes : Nat) {f : σ → List UInt64 → σ} {p : σ → Nat → Prop}
    (hstep : ∀ s i, i + lanes ≤ tail → p s i →
      p (f s ((data.drop (base + i)).take lanes)) (i + lanes)) {i : Nat} {s : σ} (hs : p s i)
    (hi : i ≤ tail) :
    ∃ j t, vectors data lanes base f i s = some (j, t) ∧ j ≤ tail ∧ p t j := by
  induction hn : tail - i using Nat.strongRecOn generalizing i s with
  | ind n ih =>
    rw [vectors]
    split
    next hlanes =>
      have hload : loadU data lanes (base + i) = some ((data.drop (base + i)).take lanes) :=
        if_pos (by omega)
      rw [hload]
      exact ih _ (by omega) (hstep s i (by omega) hs) (by omega) rfl
    · exact ⟨i, s, rfl, hi, hs⟩

lemma scalars_spec {f : σ → UInt64 → σ} {p : σ → Nat → Prop}
    (hstep : ∀ s i (hi : base + i < data.length), p s i → p (f s data[base + i]) (i + 1))
    (n : Nat) {s : σ} (hn : n ≤ tail) (hs : p s (tail - n)) :
    ∃ t, scalars data base f n s = some t ∧ p t tail := by
  induction n generalizing s with
  | zero => exact ⟨s, rfl, hs⟩
  | succ n ih =>
    have hload : base + (tail - (n + 1)) < data.length := by omega
    rw [scalars, getElem?_eq_getElem hload]
    have hnext := hstep s _ hload hs
    rw [show tail - (n + 1) + 1 = tail - n by omega] at hnext
    exact ih (by omega) hnext

omit hbase

lemma Splits.countP (h : Splits data key rank) (b n : Nat) :
    ((data.drop b).take n).countP (· < key) = min n (rank - b) := by
  induction n with
  | zero => simp
  | succ n ih =>
    rw [take_add_one, countP_append, ih, getElem?_drop]
    by_cases hlt : b + n < data.length
    · simp only [getElem?_eq_getElem hlt, Option.toList_some, countP_singleton, decide_eq_true_eq,
        h.2 _ hlt]
      split <;> omega
    · rw [getElem?_eq_none (Nat.not_lt.mp hlt)]
      have := h.1
      simp only [Option.toList_none, countP_nil]
      omega

lemma any_zipWith_or {a b : List Bool} (h : a.length = b.length) :
    (zipWith or a b).any id = (a.any id || b.any id) := by
  induction a generalizing b with
  | nil =>
    obtain rfl := length_eq_zero_iff.mp h.symm
    rfl
  | cons x a ih =>
    obtain ⟨y, b, rfl⟩ := exists_cons_of_length_eq_add_one h.symm
    simp [ih (Nat.succ.inj h), Bool.or_assoc, Bool.or_left_comm]

lemma Splits.mem_window (hsorted : data.Pairwise (· ≤ ·)) (h : Splits data key rank) {b n : Nat}
    (hb : b ≤ rank)
    (hn : rank < data.length → rank < b + n) : key ∈ (data.drop b).take n ↔ key ∈ data := by
  refine ⟨fun hmem => mem_of_mem_drop (mem_of_mem_take hmem), fun hmem => ?_⟩
  obtain ⟨j, hj, rfl⟩ := getElem_of_mem hmem
  have hle : rank ≤ j := Nat.not_lt.mp fun hlt => UInt64.lt_irrefl _ ((h.2 j hj).mpr hlt)
  have hrank := Nat.lt_of_le_of_lt hle hj
  have heq : data[rank] = data[j] := by
    apply UInt64.le_antisymm
    · rcases Nat.eq_or_lt_of_le hle with rfl | hlt
      · exact UInt64.le_refl _
      · exact pairwise_iff_getElem.mp hsorted _ _ _ _ hlt
    · exact UInt64.not_lt.mp fun hlt => Nat.lt_irrefl _ ((h.2 rank hrank).mp hlt)
  rw [← heq, mem_iff_getElem?]
  refine ⟨rank - b, ?_⟩
  rw [getElem?_take, if_pos (by have := hn hrank; omega), getElem?_drop, Nat.add_sub_cancel' hb,
    getElem?_eq_getElem hrank]

/-- The vector search finds the rank of the key and whether it is there, and loads nothing outside
the array. -/
theorem search64_exact (retained : Bool) (lanes : Nat) (key : UInt64)
    (hsorted : data.Pairwise (· ≤ ·)) (hsize : tail ≤ data.length) :
    lowerBound64Impl data key retained lanes = some (lowerBound data key) ∧
      contains64Impl data key retained lanes = some (binarySearch data key) := by
  have h : Splits data key (lowerBound data key) := splits_lowerBound hsorted
  generalize hrank : lowerBound data key = rank at h ⊢
  have hend := h.1
  have hwindow : ∀ {b : Nat}, b ≤ rank → rank ≤ b + tail → min b (data.length - tail) ≤ rank ∧
      rank ≤ min b (data.length - tail) + tail ∧
      min b (data.length - tail) + tail ≤ data.length := by omega
  constructor
  · obtain ⟨b, hnarrow, hlow, hhigh⟩ :=
      narrow_spec h retained false (Nat.zero_le _) (show rank ≤ 0 + data.length by omega) (by omega)
    obtain ⟨hlow, hhigh, hbase⟩ := hwindow hlow hhigh
    unfold lowerBound64Impl
    rw [hnarrow, Option.bind_eq_bind, Option.bind_some]
    generalize min b (data.length - tail) = base at hlow hhigh hbase
    obtain ⟨i, below, hvectors, hi, hbelow⟩ :=
      vectors_spec hbase lanes (p := fun s i => s = min i (rank - base))
      (f := fun below lane => below + lane.countP (· < key))
      (fun s i _ hs => by rw [hs, h.countP]; omega) (show 0 = min 0 (rank - base) by omega)
        (Nat.zero_le _)
    obtain ⟨total, hscalars, htotal⟩ := scalars_spec hbase (p := fun s i => s = min i (rank - base))
      (f := fun below x => below + (if x < key then 1 else 0))
      (fun s i hi hs => by simp only [hs, h.2 _ hi]; split <;> omega) (tail - i) (by omega)
      (show below = min (tail - (tail - i)) (rank - base) by omega)
    simp only [hvectors, Option.bind_eq_bind, Option.bind_some, hscalars]
    exact congrArg some (by omega)
  · obtain ⟨b, hnarrow, hlow, hhigh⟩ :=
      narrow_spec h retained true (Nat.zero_le _) (show rank ≤ 0 + data.length by omega) (by omega)
    have hinner : rank < b + tail := Nat.lt_succ_of_le hhigh
    obtain ⟨hlow, -, hbase⟩ := hwindow hlow (Nat.le_of_lt hinner)
    have hlast : rank < data.length → rank < min b (data.length - tail) + tail := by omega
    unfold contains64Impl
    rw [hnarrow, Option.bind_eq_bind, Option.bind_some]
    generalize min b (data.length - tail) = base at hlow hlast hbase
    obtain ⟨i, hits, hvectors, hi, -, hhits⟩ :=
      vectors_spec hbase lanes (s := replicate lanes false)
      (p := fun s i => s.length = lanes ∧ (s.any id = true ↔ key ∈ (data.drop base).take i))
      (f := fun hits lane => zipWith or hits (lane.map (· == key))) (fun s i hend hs => by
        have hlane : ((data.drop (base + i)).take lanes).length = lanes := by
          rw [length_take, length_drop]
          omega
        refine ⟨by simp only [length_zipWith, length_map, hlane, hs.1, Nat.min_self], ?_⟩
        rw [any_zipWith_or (by rw [length_map, hlane, hs.1]), Bool.or_eq_true, hs.2, take_add,
          mem_append, drop_drop]
        refine or_congr_right ?_
        rw [any_map, ← contains_iff_mem, ← any_beq']
        rfl) (by simp) (Nat.zero_le _)
    obtain ⟨found, hscalars, hfound⟩ :=
      scalars_spec hbase (p := fun s i => s = true ↔ key ∈ (data.drop base).take i)
      (f := fun found x => found || x == key) (fun s i hi hs => by
        rw [Bool.or_eq_true, hs, take_add_one, getElem?_drop, getElem?_eq_getElem hi, mem_append,
          Option.toList_some, mem_singleton]
        exact or_congr_right (beq_iff_eq.trans eq_comm)) (tail - i) (by omega) (s :=
          hits.any id) (by
        rw [hhits, Nat.sub_sub_self hi])
    simp only [hvectors, Option.bind_eq_bind, Option.bind_some, hscalars, binarySearch]
    rw [Option.some.injEq, Bool.eq_iff_iff, hfound, h.mem_window hsorted hlow hlast,
      contains_iff_mem]

/-- A key among equal keys and others. -/
theorem search64_exact_equal :
    lowerBound64Impl (replicate 30 5 ++ replicate 30 7) 7 true 4 = some 30 ∧
    contains64Impl (replicate 30 5 ++ replicate 30 7) 7 true 4 = some true :=
  search64_exact true 4 7 (by decide) (by decide)

end NeverD.Support
