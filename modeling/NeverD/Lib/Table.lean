import Mathlib.Algebra.GroupWithZero.Nat
import Mathlib.Data.Finset.Card

namespace NeverD.Lib
open List Function

structure Table (α : Type) where
  find : Nat → Option α
  keys : Finset Nat
  mem_keys : ∀ k, k ∈ keys ↔ (find k).isSome

namespace Table

variable {α : Type}

def empty : Table α where
  find _ := none
  keys := ∅
  mem_keys k := by simp

def size (t : Table α) : Nat := t.keys.card

def insert (t : Table α) (k : Nat) (v : α) : Table α where
  find := Function.update t.find k (some v)
  keys := Insert.insert k t.keys
  mem_keys j := by
    by_cases h : j = k
    · subst h
      simp
    · rw [Finset.mem_insert, update_of_ne h]
      simp [h, t.mem_keys]

def erase (t : Table α) (k : Nat) : Table α where
  find := Function.update t.find k none
  keys := t.keys.erase k
  mem_keys j := by
    by_cases h : j = k
    · subst h
      simp
    · rw [Finset.mem_erase, update_of_ne h]
      simp [h, t.mem_keys]

def insertAll (t : Table α) (entries : List (Nat × α)) : Table α :=
  entries.foldl (fun t e => t.insert e.1 e.2) t

def eraseAll (t : Table α) (ks : List Nat) : Table α := ks.foldl erase t

variable (t : Table α)
include t

lemma find_insert (k : Nat) (v : α) (j : Nat) : (t.insert k v).find j = if j = k then some v
    else t.find j := by
  by_cases h : j = k
  · rw [if_pos h, h]
    exact update_self ..
  · rw [if_neg h]
    exact update_of_ne h ..

lemma find_erase (k j : Nat) : (t.erase k).find j = if j = k then none else t.find j := by
  by_cases h : j = k
  · rw [if_pos h, h]
    exact update_self ..
  · rw [if_neg h]
    exact update_of_ne h ..

lemma size_insert {k : Nat} (v : α) (h : t.find k = none) : (t.insert k v).size = t.size + 1 := by
  have hk : k ∉ t.keys := by
    rw [t.mem_keys, h]
    simp
  exact Finset.card_insert_of_notMem hk

lemma size_insert_of_mem {k : Nat} (v : α) (h : (t.find k).isSome) :
    (t.insert k v).size = t.size := by
  show (Insert.insert k t.keys).card = _
  rw [Finset.insert_eq_of_mem ((t.mem_keys k).mpr h)]
  rfl

lemma size_erase {k : Nat} (h : (t.find k).isSome) : (t.erase k).size + 1 = t.size :=
  Finset.card_erase_add_one ((t.mem_keys k).mpr h)

lemma find_eraseAll (ks : List Nat) (j : Nat) : (t.eraseAll ks).find j = if j ∈ ks then none
    else t.find j := by
  induction ks generalizing t with
  | nil => rfl
  | cons k ks ih =>
    show ((t.erase k).eraseAll ks).find j = _
    rw [ih, find_erase]
    by_cases h : j ∈ ks
    · rw [if_pos h, if_pos (mem_cons_of_mem k h)]
    · rw [if_neg h]
      by_cases hk : j = k
      · rw [if_pos hk, if_pos (by rw [hk]; exact mem_cons_self)]
      · rw [if_neg hk, if_neg (by simp [hk, h])]

lemma size_eraseAll {ks : List Nat} (hn : ks.Nodup) (h : ∀ k ∈ ks, (t.find k).isSome) :
    (t.eraseAll ks).size + ks.length = t.size := by
  induction ks generalizing t with
  | nil => rfl
  | cons k ks ih =>
    obtain ⟨hk, hn'⟩ := nodup_cons.mp hn
    have hrest : ∀ j ∈ ks, ((t.erase k).find j).isSome := by
      intro j hj
      rw [find_erase, if_neg (by rintro rfl; exact hk hj)]
      exact h j (mem_cons_of_mem k hj)
    have hsize := t.size_erase (h k mem_cons_self)
    have hih := ih (t.erase k) hn' hrest
    show ((t.erase k).eraseAll ks).size + (ks.length + 1) = _
    omega

omit t

variable {entries : List (Nat × α)}

lemma find_insertAll_of_notMem (t : Table α) {j : Nat}
    (h : j ∉ entries.map Prod.fst) : (t.insertAll entries).find j = t.find j := by
  induction entries generalizing t with
  | nil => rfl
  | cons e entries ih =>
    rw [map_cons, mem_cons, not_or] at h
    show ((t.insert e.1 e.2).insertAll entries).find j = _
    rw [ih _ h.2, find_insert, if_neg h.1]

lemma find_insertAll_of_mem (t : Table α) (hn : (entries.map Prod.fst).Nodup)
    {e : Nat × α} (h : e ∈ entries) : (t.insertAll entries).find e.1 = some e.2 := by
  induction entries generalizing t with
  | nil => cases h
  | cons d entries ih =>
    obtain ⟨hd, hn'⟩ := nodup_cons.mp hn
    show ((t.insert d.1 d.2).insertAll entries).find e.1 = _
    rcases mem_cons.mp h with rfl | h
    · rw [find_insertAll_of_notMem _ hd, find_insert, if_pos rfl]
    · exact ih _ hn' h

lemma size_insertAll (t : Table α) (hn : (entries.map Prod.fst).Nodup)
    (h : ∀ e ∈ entries, t.find e.1 = none) :
    (t.insertAll entries).size = t.size + entries.length := by
  induction entries generalizing t with
  | nil => rfl
  | cons d entries ih =>
    obtain ⟨hd, hn'⟩ := nodup_cons.mp hn
    have hrest : ∀ e ∈ entries, (t.insert d.1 d.2).find e.1 = none := by
      intro e he
      have hne : e.1 ≠ d.1 := by
        intro heq
        exact hd (heq ▸ mem_map_of_mem he)
      rw [find_insert, if_neg hne]
      exact h e (mem_cons_of_mem d he)
    show ((t.insert d.1 d.2).insertAll entries).size = t.size + (entries.length + 1)
    rw [ih _ hn' hrest, size_insert _ _ (h d mem_cons_self)]
    omega

lemma size_insertAll_of_mem (t : Table α)
    (h : ∀ e ∈ entries, (t.find e.1).isSome) : (t.insertAll entries).size = t.size := by
  induction entries generalizing t with
  | nil => rfl
  | cons d entries ih =>
    have hrest : ∀ e ∈ entries, ((t.insert d.1 d.2).find e.1).isSome := by
      intro e he
      rw [find_insert]
      split
      · rfl
      · exact h e (mem_cons_of_mem d he)
    show ((t.insert d.1 d.2).insertAll entries).size = t.size
    rw [ih _ hrest, size_insert_of_mem _ _ (h d mem_cons_self)]

end Table

end NeverD.Lib
