import Mathlib.Algebra.GroupWithZero.Nat
import Mathlib.Algebra.BigOperators.Group.List.Basic
import Mathlib.Data.List.Nodup

namespace NeverD.Lib.Buckets
open List

def counts (n : Nat) (keys : List (Option Nat)) : List Nat :=
  keys.foldl (fun counts key => key.elim counts fun k => counts.modify k (· + 1))
    (List.replicate n 0)

/-- The start of every stretch, when the first one starts at `total`. -/
def offsets : Nat → List Nat → List Nat
  | _, [] => []
  | total, c :: counts => total :: offsets (total + c) counts

structure Scatter where
  slots : List Nat
  write : List Nat

def place (s : Scatter) (position : Nat) : Option Nat → Scatter
  | none => s
  | some k =>
    match s.write[k]? with
    | none => s
    | some start => { slots := s.slots.set start position, write := s.write.set k (start + 1) }

def scatterTo (keys : List (Option Nat)) (s : Scatter) (m : Nat) : Scatter :=
  (List.range m).foldl (fun s position => place s position keys[position]?.join) s

def scatter (n : Nat) (keys : List (Option Nat)) : List Nat :=
  let counts := counts n keys
  (scatterTo keys { slots := List.replicate counts.sum 0, write := offsets 0 counts }
    keys.length).slots

def bucket (keys : List (Option Nat)) (m k : Nat) : List Nat :=
  (List.range m).filter fun i => keys[i]?.join = some k

variable (keys : List (Option Nat))
include keys

lemma bucket_succ (m k : Nat) :
    bucket keys (m + 1) k = bucket keys m k ++ if keys[m]?.join = some k then [m] else [] := by
  unfold bucket
  rw [range_succ, filter_append, filter_singleton]
  congr 1
  split <;> simp_all

lemma length_bucket (m k : Nat) : (bucket keys m k).length = (keys.take m).count (some k) := by
  induction m with
  | zero => rfl
  | succ m ih =>
    rw [bucket_succ, length_append, ih, take_add_one, count_append]
    congr 1
    cases h : keys[m]? with
    | none => simp
    | some key =>
      by_cases hk : key = some k
      · simp [hk]
      · simp [hk]

lemma length_bucket_le (m k : Nat) : (bucket keys m k).length ≤ keys.count (some k) := by
  rw [length_bucket]
  exact (take_sublist m keys).count_le _

lemma foldl_counts (start : List Nat) (k : Nat) :
    (keys.foldl (fun counts key => key.elim counts fun k => counts.modify k (· + 1)) start)[k]? =
      start[k]?.map (· + keys.count (some k)) := by
  induction keys generalizing start with
  | nil => simp
  | cons key keys ih =>
    rw [foldl_cons, ih]
    cases key with
    | none => simp
    | some j =>
      show ((start.modify j (· + 1))[k]?).map _ = _
      rw [getElem?_modify]
      cases start[k]? with
      | none => rfl
      | some c =>
        by_cases hj : j = k
        · simp [hj]
          omega
        · simp [hj]

lemma getElem?_counts {n k : Nat} (hk : k < n) :
    (counts n keys)[k]? = some (keys.count (some k)) := by
  unfold counts
  rw [foldl_counts, getElem?_replicate, if_pos hk, Option.map_some, zero_add]

omit keys

lemma length_counts (n : Nat) (keys : List (Option Nat)) : (counts n keys).length = n := by
  unfold counts
  have h : ∀ start : List Nat,
      (keys.foldl (fun counts key => key.elim counts fun k => counts.modify k (· + 1))
      start).length = start.length := by
    induction keys with
    | nil => exact fun _ => rfl
    | cons key keys ih =>
      intro start
      rw [foldl_cons, ih]
      cases key with
      | none => rfl
      | some k => exact length_modify ..
  rw [h, length_replicate]

def offset (n : Nat) (keys : List (Option Nat)) (k : Nat) : Nat := ((counts n keys).take k).sum

lemma getElem?_offsets (counts : List Nat) {k : Nat} (hk : k < counts.length) (total : Nat) :
    (offsets total counts)[k]? = some (total + (counts.take k).sum) := by
  induction counts generalizing total k with
  | nil => cases hk
  | cons c counts ih =>
    cases k with
    | zero => rfl
    | succ k =>
      show (offsets (total + c) counts)[k]? = _
      rw [ih (Nat.lt_of_succ_lt_succ hk), take_succ_cons, sum_cons, add_assoc]

lemma length_offsets (counts : List Nat) (total : Nat) :
    (offsets total counts).length = counts.length := by
  induction counts generalizing total with
  | nil => rfl
  | cons c counts ih => exact congrArg (· + 1) (ih _)

variable {n : Nat} {keys : List (Option Nat)}

lemma offset_succ (keys : List (Option Nat)) {k : Nat} (hk : k < n) :
    offset n keys (k + 1) = offset n keys k + keys.count (some k) := by
  unfold offset
  rw [take_add_one, sum_append, getElem?_counts keys hk]
  simp

lemma offset_mono (n : Nat) (keys : List (Option Nat)) {j k : Nat} (h : j ≤ k) :
    offset n keys j ≤ offset n keys k := by
  unfold offset
  obtain ⟨d, rfl⟩ := Nat.exists_eq_add_of_le h
  rw [take_add, sum_append]
  exact Nat.le_add_right ..

lemma offset_le_sum (n : Nat) (keys : List (Option Nat)) (k : Nat) :
    offset n keys k ≤ (counts n keys).sum := by
  have h := offset_mono n keys (Nat.le_max_left k n)
  have hfull : offset n keys (max k n) = (counts n keys).sum := by
    unfold offset
    rw [take_of_length_le]
    rw [length_counts]
    exact Nat.le_max_right ..
  exact hfull ▸ h

theorem offset_apart {j k x y : Nat} (hj : j < n) (hk : k < n) (hne : j ≠ k)
    (hx : x < keys.count (some j))
    (hy : y < keys.count (some k)) : offset n keys j + x ≠ offset n keys k + y := by
  have hjs := offset_succ keys hj
  have hks := offset_succ keys hk
  rcases Nat.lt_or_gt_of_ne hne with h | h
  · have := offset_mono n keys (show j + 1 ≤ k from h)
    omega
  · have := offset_mono n keys (show k + 1 ≤ j from h)
    omega

structure Written (n : Nat) (keys : List (Option Nat)) (m : Nat) (s : Scatter) : Prop where
  slots : s.slots.length = (counts n keys).sum
  length : s.write.length = n
  write : ∀ k < n, s.write[k]? = some (offset n keys k + (bucket keys m k).length)
  stretch : ∀ k < n, ∀ i < (bucket keys m k).length, s.slots[offset n keys k + i]? =
    (bucket keys m k)[i]?

lemma written_zero {slots : List Nat} (hslots : slots.length = (counts n keys).sum) :
    Written n keys 0 { slots := slots, write := offsets 0 (counts n keys) } where
  slots := hslots
  length := by rw [length_offsets, length_counts]
  write k hk := by
    rw [getElem?_offsets _ (by rw [length_counts]; exact hk), zero_add]
    rfl
  stretch k _ i hi := absurd hi (Nat.not_lt_zero i)

lemma Written.place {m : Nat} {s : Scatter} (h : Written n keys m s) :
    Written n keys (m + 1) (place s m keys[m]?.join) := by
  cases hkey : keys[m]?.join with
  | none =>
    have hsame : ∀ k, bucket keys (m + 1) k = bucket keys m k := by
      intro k
      rw [bucket_succ, hkey, if_neg (by simp), append_nil]
    exact ⟨h.slots, h.length, fun k hk => hsame k ▸ h.write k hk,
      fun k hk => hsame k ▸ h.stretch k hk⟩
  | some j =>
    have hother : ∀ k, k ≠ j → bucket keys (m + 1) k = bucket keys m k := by
      intro k hk
      rw [bucket_succ, hkey, if_neg (by simpa using hk.symm), append_nil]
    have hself : bucket keys (m + 1) j = bucket keys m j ++ [m] := by
      rw [bucket_succ, hkey, if_pos rfl]
    have hroom : (bucket keys m j).length < keys.count (some j) := by
      have := length_bucket_le keys (m + 1) j
      rw [hself, length_append, length_singleton] at this
      omega
    unfold Buckets.place
    dsimp only
    by_cases hj : j < n
    · have hwrite := h.write j hj
      rw [hwrite]
      dsimp only
      constructor
      · rw [length_set]
        exact h.slots
      · rw [length_set]
        exact h.length
      · intro k hk
        by_cases hkj : k = j
        · rw [hkj, getElem?_set_self (by rw [h.length]; exact hj), hself, length_append,
            length_singleton, add_assoc]
        · rw [getElem?_set_ne (Ne.symm hkj), hother k hkj]
          exact h.write k hk
      · intro k hk i hi
        by_cases hkj : k = j
        · subst hkj
          rw [hself] at hi ⊢
          by_cases hlast : i = (bucket keys m k).length
          · have hin : offset n keys k + (bucket keys m k).length < s.slots.length := by
              have := offset_succ keys hj
              have := offset_le_sum n keys (k + 1)
              rw [h.slots]
              omega
            rw [hlast, getElem?_set_self hin]
            simp
          · rw [length_append, length_singleton] at hi
            have hlt : i < (bucket keys m k).length := by omega
            rw [getElem?_set_ne (by omega), getElem?_append_left hlt]
            exact h.stretch k hk i hlt
        · rw [hother k hkj] at hi ⊢
          have hapart :=
            offset_apart hj hk (Ne.symm hkj) hroom
              (Nat.lt_of_lt_of_le hi (length_bucket_le keys m k))
          rw [getElem?_set_ne hapart]
          exact h.stretch k hk i hi
    · have hwrite : s.write[j]? = none := by
        rw [List.getElem?_eq_none_iff, h.length]
        omega
      rw [hwrite]
      have hne : ∀ k < n, k ≠ j := fun k hk heq => hj (heq ▸ hk)
      exact ⟨h.slots, h.length, fun k hk => hother k (hne k hk) ▸ h.write k hk,
        fun k hk => hother k (hne k hk) ▸ h.stretch k hk⟩

lemma written_scatterTo (n : Nat) (keys : List (Option Nat)) (m : Nat) {slots : List Nat}
    (hslots : slots.length = (counts n keys).sum) :
    Written n keys m (scatterTo keys { slots := slots, write := offsets 0 (counts n keys) } m) := by
  induction m with
  | zero => exact written_zero hslots
  | succ m ih =>
    unfold scatterTo
    rw [range_succ, foldl_append]
    exact ih.place

lemma written_scatter (n : Nat) (keys : List (Option Nat)) :
    Written n keys keys.length
      (scatterTo keys { slots := List.replicate (counts n keys).sum 0,
                        write := offsets 0 (counts n keys) } keys.length) :=
  written_scatterTo n keys keys.length length_replicate

lemma Written.stretch_eq {s : Scatter} (h : Written n keys keys.length s) {k : Nat} (hk : k < n) :
    (s.slots.drop (offset n keys k)).take (keys.count (some k)) = bucket keys keys.length k := by
  have hlen : (bucket keys keys.length k).length = keys.count (some k) := by
    rw [length_bucket, take_length]
  apply ext_getElem?
  intro i
  rw [getElem?_take]
  split
  next hi =>
    rw [getElem?_drop]
    exact h.stretch k hk i (hlen ▸ hi)
  next hi => exact (getElem?_eq_none (by omega)).symm

theorem stretch_scatter {k : Nat} (hk : k < n) :
    ((scatter n keys).drop (offset n keys k)).take (keys.count (some k)) =
    bucket keys keys.length k :=
  (written_scatter n keys).stretch_eq hk

lemma mem_bucket {m k i : Nat} : i ∈ bucket keys m k ↔ i < m ∧ keys[i]?.join = some k := by
  unfold bucket
  rw [mem_filter, mem_range, decide_eq_true_iff]

theorem nodup_flatMap_bucket (n : Nat) (keys : List (Option Nat)) (m : Nat) :
    ((List.range n).flatMap (bucket keys m)).Nodup := by
  rw [nodup_flatMap]
  constructor
  · intro k _
    exact nodup_range.filter _
  · apply nodup_range.imp
    intro j k hne i hj hk
    exact hne (Option.some.inj ((mem_bucket.mp hj).2.symm.trans (mem_bucket.mp hk).2))

theorem Written.slots_eq {s : Scatter} (h : Written n keys keys.length s) :
    s.slots = (List.range n).flatMap (bucket keys keys.length) := by
  have htake : ∀ k ≤ n, s.slots.take (offset n keys k) =
      (List.range k).flatMap (bucket keys keys.length) := by
    intro k hk
    induction k with
    | zero => rfl
    | succ k ih =>
      rw [offset_succ keys hk, take_add, ih (by omega), h.stretch_eq hk, range_succ, flatMap_append,
        flatMap_singleton]
  have hsum : offset n keys n = s.slots.length := by
    unfold offset
    rw [take_of_length_le (Nat.le_of_eq (length_counts n keys)), h.slots]
  rw [← htake n (Nat.le_refl n), hsum, take_length]

theorem scatter_eq_flatMap (n : Nat) (keys : List (Option Nat)) :
    scatter n keys = (List.range n).flatMap (bucket keys keys.length) :=
  (written_scatter n keys).slots_eq

variable {α : Type} {key : α → Nat} {values scratch : List α}

def keysOf (key : α → Nat) (values : List α) : List (Option Nat) := values.map fun x => some (key x)

def placeValue (key : α → Nat) (s : List α × List Nat) (x : α) : List α × List Nat :=
  let start := s.2.getD (key x) 0
  (s.1.set start x, s.2.set (key x) (start + 1))

def pass (n : Nat) (key : α → Nat) (values scratch : List α) : List α :=
  (values.foldl (placeValue key)
    (scratch, offsets 0 (values.foldl (fun counts x => counts.modify (key x) (· + 1))
      (replicate n 0)))).1

/-- Values are written as their positions are. -/
lemma foldl_placeValue (hkey : ∀ x, key x < n) {slots : List Nat}
    (hslots : slots.length = (counts n (keysOf key values)).sum) (lookup : Nat → α)
    (hlookup : ∀ (m : Nat) (h : m < values.length), lookup m = values[m]) {m : Nat}
    (hm : m ≤ values.length) :
    (values.take m).foldl (placeValue key)
      (slots.map lookup, offsets 0 (counts n (keysOf key values))) =
      let s := scatterTo (keysOf key values)
        { slots := slots, write := offsets 0 (counts n (keysOf key values)) } m
      (s.slots.map lookup, s.write) := by
  induction m with
  | zero => rfl
  | succ m ih =>
    have hlt : m < values.length := hm
    have hat : (keysOf key values)[m]?.join = some (key values[m]) := by simp [keysOf, hlt]
    have hwrite := (written_scatterTo n (keysOf key values) m hslots).write _ (hkey values[m])
    have hsucc : ∀ s, scatterTo (keysOf key values) s (m + 1) =
        place (scatterTo (keysOf key values) s m) m (some (key values[m])) := by
      intro s
      unfold scatterTo
      rw [range_succ, foldl_append, ← hat]
      rfl
    rw [take_add_one, getElem?_eq_getElem hlt, foldl_append, ih (Nat.le_of_lt hlt), hsucc]
    generalize scatterTo (keysOf key values) _ m = s at hwrite
    simp [placeValue, place, hwrite, hlookup m hlt, map_set]

lemma mem_bucket_keysOf {k i : Nat} :
    i ∈ bucket (keysOf key values) values.length k ↔ ∃ h :
      i < values.length, key values[i] = k := by
  rw [mem_bucket, ← exists_prop]
  exact exists_congr fun h => by simp [keysOf, h]

lemma flatMap_bucket_perm (values : List α) (hkey : ∀ x, key x < n) :
    ((List.range n).flatMap (bucket (keysOf key values) values.length)).Perm
    (List.range values.length) := by
  rw [perm_ext_iff_of_nodup (nodup_flatMap_bucket ..) nodup_range]
  intro i
  rw [mem_flatMap, mem_range]
  constructor
  · rintro ⟨k, _, hi⟩
    exact (mem_bucket_keysOf.mp hi).1
  · intro hi
    exact ⟨key values[i], mem_range.mpr (hkey _), mem_bucket_keysOf.mpr ⟨hi, rfl⟩⟩

variable [Inhabited α]

lemma pass_eq (hkey : ∀ x, key x < n) (hscratch : scratch.length = values.length) :
    pass n key values scratch =
    ((List.range n).flatMap (bucket (keysOf key values) values.length)).map fun i =>
    values.getD i default := by
  have hlength : (keysOf key values).length = values.length := length_map ..
  have hperm := flatMap_bucket_perm values hkey
  have hscatter := written_scatter n (keysOf key values)
  have hslots : (List.range' values.length values.length).length =
      (counts n (keysOf key values)).sum := by
    rw [← hscatter.slots, hscatter.slots_eq, hlength, hperm.length_eq, length_range', length_range]
  have hrun := foldl_placeValue hkey hslots (fun i => (values ++ scratch).getD i default)
    (fun m h => by simp [h, getElem?_append_left]) (Nat.le_refl _)
  have hold : (List.range' values.length values.length).map
      (fun i => (values ++ scratch).getD i default) = scratch := by
    apply ext_getElem
    · simp [hscratch]
    · intro i _ hi
      simp [hi]
  have hcounts : values.foldl (fun counts x => counts.modify (key x) (· + 1)) (replicate n 0) =
      counts n (keysOf key values) := by
    rw [counts, keysOf, foldl_map]
    rfl
  rw [take_length, hold] at hrun
  have hdone := (written_scatterTo n (keysOf key values) (keysOf key values).length hslots).slots_eq
  rw [hlength] at hdone
  rw [pass, hcounts, hrun]
  dsimp only
  rw [hdone]
  apply map_congr_left
  intro i hi
  have hi := mem_range.mp (hperm.mem_iff.mp hi)
  simp [hi, getElem?_append_left]

theorem pass_perm (hkey : ∀ x, key x < n) (hscratch : scratch.length = values.length) :
    (pass n key values scratch).Perm values := by
  rw [pass_eq hkey hscratch]
  refine ((flatMap_bucket_perm values hkey).map _).trans
    (.of_eq (ext_getElem (by simp) fun i _ hi => ?_))
  simp [hi]

/-- A pass sorts by the key, and keeps the order among equal keys. -/
theorem pass_pairwise (hkey : ∀ x, key x < n) (hscratch : scratch.length = values.length)
    {r : α → α → Prop} (h : values.Pairwise r) :
    (pass n key values scratch).Pairwise fun x y => key x < key y ∨ key x = key y ∧ r x y := by
  have hget : ∀ {k i : Nat}, i ∈ bucket (keysOf key values) values.length k →
      ∃ hi : i < values.length, values.getD i default = values[i] ∧ key values[i] = k := by
    intro k i hi
    obtain ⟨hi, hk⟩ := mem_bucket_keysOf.mp hi
    exact ⟨hi, by simp [hi], hk⟩
  rw [pass_eq hkey hscratch, pairwise_map, pairwise_flatMap]
  constructor
  · intro k _
    refine (pairwise_lt_range.filter _).imp_of_mem fun {i j} hi hj hij => ?_
    obtain ⟨_, hgeti, hki⟩ := hget hi
    obtain ⟨_, hgetj, hkj⟩ := hget hj
    rw [hgeti, hgetj]
    exact .inr ⟨hki.trans hkj.symm, pairwise_iff_getElem.mp h i j _ _ hij⟩
  · refine pairwise_lt_range.imp fun {k l} hkl i hi j hj => ?_
    obtain ⟨_, hgeti, hki⟩ := hget hi
    obtain ⟨_, hgetj, hkj⟩ := hget hj
    rw [hgeti, hgetj, hki, hkj]
    exact .inl hkl

end NeverD.Lib.Buckets
