import Mathlib.Data.Nat.Bitwise
import NeverD.Cnf.Encoder

namespace NeverD.Cnf
open Lib NeverD.Sat List Nat

variable {slot : Nat}

def occupied (table : List GateBucket) : Nat := table.countP fun b => b.index != 0

/-- A table of a power of two buckets that files `n` gates and has room for more. -/
structure TableOk (table : List GateBucket) (n : Nat) : Prop where
  size : ∃ k, table.length = 2 ^ k ∧ 6 ≤ k
  count : occupied table = n
  room : n < table.length

lemma and_pred_of_pow {m k x : Nat} (h : m = 2 ^ k) : x &&& (m - 1) = x % m := by
  rw [h, and_two_pow_sub_one_eq_mod]

variable {table : List GateBucket}

lemma probe_none {hit : GateBucket → Bool} (hlen : ∃ e, table.length = 2 ^ e) (n : Nat)
    (hs : slot < table.length)
    (h : probe table hit n slot = none) : ∀ j < n, ∃ b, table[(slot + j) % table.length]? = some b ∧
    b.index ≠ 0 := by
  obtain ⟨e, he⟩ := hlen
  induction n generalizing slot with
  | zero => simp
  | succ n ih =>
    unfold probe at h
    rw [getElem?_eq_getElem hs] at h
    dsimp only at h
    split at h
    · cases h
    next hb =>
      simp only [Bool.or_eq_true, decide_eq_true_eq, not_or] at hb
      rw [and_pred_of_pow he] at h
      have hlt : (slot + 1) % table.length < table.length := mod_lt _ (by omega)
      intro j hj
      cases j with
      | zero =>
        rw [add_zero, mod_eq_of_lt hs]
        exact ⟨_, getElem?_eq_getElem hs, hb.1⟩
      | succ j =>
        obtain ⟨b, hb1, hb2⟩ := ih hlt h j (by omega)
        refine ⟨b, ?_, hb2⟩
        rw [← hb1, mod_add_mod, add_assoc, add_comm 1 j]

lemma probe_some {hit : GateBucket → Bool} (n : Nat) {i : Nat}
    (h : probe table hit n slot = some i) :
    ∃ b, table[i]? = some b ∧ (b.index = 0 ∨ hit b = true) := by
  induction n generalizing slot with
  | zero => cases h
  | succ n ih =>
    unfold probe at h
    split at h
    · cases h
    next b hb =>
      split at h
      next hc =>
        simp only [Bool.or_eq_true, decide_eq_true_eq] at hc
        rw [Option.some.injEq] at h
        exact ⟨b, h ▸ hb, hc⟩
      · exact ih h

lemma probeFor_total {n : Nat} (h : TableOk table n) (hit : GateBucket → Bool)
    (fingerprint : UInt32) : ∃ slot, probeFor table hit fingerprint = some slot := by
  obtain ⟨k, hk, -⟩ := h.size
  rw [← Option.isSome_iff_exists, Option.isSome_iff_ne_none]
  intro hnone
  rw [probeFor, and_pred_of_pow hk] at hnone
  have hroom := h.room
  have hpos : 0 < table.length := by omega
  have hall := probe_none ⟨k, hk⟩ _ (mod_lt _ hpos) hnone
  -- Then every bucket is occupied, against the room that is left.
  have hfull : occupied table = table.length := by
    rw [occupied, countP_eq_length]
    intro b hb
    obtain ⟨i, hi, rfl⟩ := mem_iff_getElem.mp hb
    generalize hslot : fingerprint.toNat % table.length = slot at hall
    have hlt : slot < table.length := hslot ▸ mod_lt _ hpos
    obtain ⟨b, hb1, hb2⟩ := hall ((i + table.length - slot) % table.length) (mod_lt _ hpos)
    have hidx : (slot + (i + table.length - slot) % table.length) % table.length = i := by
      rw [add_mod_mod, show slot + (i + table.length - slot) = i + table.length by omega,
        add_mod_right, mod_eq_of_lt hi]
    rw [hidx, getElem?_eq_getElem hi, Option.some.injEq] at hb1
    simpa [hb1] using hb2
  rw [h.count] at hfull
  omega

lemma occupied_set {b x : GateBucket} (hx : table[slot]? = some x) (h0 : x.index = 0)
    (hb : b.index ≠ 0) : occupied (table.set slot b) = occupied table + 1 := by
  obtain ⟨hlt, hget⟩ := List.getElem?_eq_some_iff.mp hx
  rw [occupied, countP_set hlt, hget]
  simp [h0, hb, occupied]

lemma TableOk.file {n : Nat} {b x : GateBucket}
    (h : TableOk table n) (hx : table[slot]? = some x) (h0 : x.index = 0) (hb : b.index ≠ 0)
    (hroom : n + 1 < table.length) : TableOk (table.set slot b) (n + 1) := by
  refine ⟨?_, ?_, ?_⟩
  · simpa using h.size
  · rw [occupied_set hx h0 hb, h.count]
  · simpa using hroom

lemma foldlM_reinsert (bs : List GateBucket) {next : List GateBucket} {n : Nat}
    (h : TableOk next n) (hroom : n + occupied bs < next.length) :
    ∃ t, bs.foldlM reinsert next = some t ∧ t.length = next.length ∧
      TableOk t (n + occupied bs) := by
  induction bs generalizing next n with
  | nil => exact ⟨next, rfl, rfl, h⟩
  | cons b bs ih =>
    have hcons : occupied (b :: bs) = occupied bs + if b.index != 0 then 1 else 0 := by
      rw [occupied, countP_cons]
      rfl
    rw [foldlM_cons]
    by_cases hb : b.index = 0
    · have hcount : occupied (b :: bs) = occupied bs := by simp [hcons, hb]
      rw [reinsert, if_pos hb, hcount]
      exact ih h (by omega)
    · have hcount : occupied (b :: bs) = occupied bs + 1 := by simp [hcons, hb]
      obtain ⟨slot, hs⟩ := probeFor_total h (fun _ => false) b.hash
      obtain ⟨x, hx, hempty⟩ := probe_some _ hs
      have h0 : x.index = 0 := by simpa using hempty
      have hnext := h.file (b := b) hx h0 hb (by omega)
      obtain ⟨t, ht, hlen, hok⟩ := ih hnext (by rw [length_set]; omega)
      refine ⟨t, ?_, by rw [hlen, length_set], ?_⟩
      · rw [reinsert, if_neg hb, hs]
        exact ht
      · rw [hcount]
        rwa [add_assoc, add_comm 1] at hok

lemma growGateTable_total {n : Nat} (h : TableOk table n ∨ (table = [] ∧ n = 0)) :
    ∃ t, growGateTable table = some t ∧ 2 * n + 2 ≤ t.length ∧ TableOk t n := by
  have hempty : ∀ k, 6 ≤ k → TableOk (List.replicate (2 ^ k) ({} : GateBucket)) 0 := by
    intro k hk
    refine ⟨⟨k, by simp, hk⟩, by simp [occupied, countP_replicate], ?_⟩
    rw [List.length_replicate]
    exact Nat.two_pow_pos k
  rcases h with h | ⟨rfl, rfl⟩
  · obtain ⟨k, hk, hk6⟩ := h.size
    have hne : table.isEmpty = false := by
      rw [Bool.eq_false_iff, Ne, List.isEmpty_iff]
      rintro rfl
      exact absurd h.room (Nat.not_lt_zero _)
    have hroom := h.room
    have hsize : table.length * 2 = 2 ^ (k + 1) := by rw [hk, pow_succ]
    have hnext := hempty (k + 1) (by omega)
    rw [← hsize] at hnext
    have hcount := h.count
    obtain ⟨t, ht, hlen, hok⟩ := foldlM_reinsert table hnext (by rw [length_replicate]; omega)
    rw [zero_add, h.count] at hok
    refine ⟨t, ?_, ?_, hok⟩
    · rw [growGateTable, hne]
      exact ht
    · rw [hlen, length_replicate]
      omega
  · exact ⟨_, rfl, by simp, hempty 6 (le_refl 6)⟩

end NeverD.Cnf
