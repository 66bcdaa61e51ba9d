import Mathlib.Tactic.Ring
import NeverD.Emulation.Allocator

namespace NeverD.Emulation
open Lib List Nat AddressSpace

def pageOf (a : Nat) : Nat := a - a % pageSize

/-- A nonempty range of whole pages inside the address space. -/
structure Aligned (address size : Nat) : Prop where
  positive : 0 < size
  start : address % pageSize = 0
  whole : size % pageSize = 0
  bounded : address + size ≤ 2 ^ 64

variable {address size : Nat} {permissions : Permissions}

lemma aligned_of_valid (h : valid address size permissions = true) : Aligned address size := by
  have h' := of_decide_eq_true h
  refine ⟨Nat.pos_of_ne_zero h'.1, h'.2.1, h'.2.2.1, ?_⟩
  unfold uint64Max pageSize at *
  omega

variable (h : Aligned address size)
include h

lemma Aligned.pages : (size + (pageSize - 1)) / pageSize = size / pageSize := by
  have := h.whole
  unfold pageSize at *
  omega

lemma Aligned.mem_pageAddresses {a : Nat} :
    a ∈ pageAddresses address size ↔ a % pageSize = 0 ∧ address ≤ a ∧ a < address + size := by
  have ha := h.start
  have hs := h.whole
  rw [pageAddresses, h.pages, mem_map]
  unfold pageSize at *
  constructor
  · intro ⟨n, hn, heq⟩
    have := mem_range.mp hn
    omega
  · intro ⟨hmod, hlow, hhigh⟩
    refine ⟨(a - address) / 4096, mem_range.mpr ?_, ?_⟩
    · omega
    · omega

theorem Aligned.pageOf_mem {a : Nat} : pageOf a ∈ pageAddresses address size ↔ address ≤ a ∧
    a < address + size := by
  have ha := h.start
  have hs := h.whole
  rw [h.mem_pageAddresses]
  unfold pageOf pageSize at *
  omega

omit h

lemma nodup_pageAddresses (address size : Nat) : (pageAddresses address size).Nodup := by
  rw [pageAddresses]
  apply List.Nodup.map _ nodup_range
  intro a b hab
  unfold pageSize at hab
  dsimp only at hab
  omega

lemma Aligned.length_pageAddresses (h : Aligned address size) :
    pageSize * (pageAddresses address size).length = size := by
  rw [pageAddresses, length_map, length_range, h.pages]
  exact Nat.mul_div_cancel' (dvd_of_mod_eq_zero h.whole)

lemma intersects_iff {base length : Nat} (hs : 0 < size) (hl : 0 < length) :
    intersects address size base length = true ↔ ∃ a, (address ≤ a ∧ a < address + size) ∧
      base ≤ a ∧ a < base + length := by
  unfold intersects
  constructor
  · intro h
    split at h
    · have := of_decide_eq_true h
      exact ⟨base, by omega, by omega⟩
    · have := of_decide_eq_true h
      exact ⟨address, by omega, by omega⟩
  · intro ⟨a, ha, hb⟩
    split
    · apply decide_eq_true
      omega
    · apply decide_eq_true
      omega

def Permitted (pages : Table Page) (permissions : Permissions) (va : Nat) : Prop :=
  ∃ page, pages.find va = some page ∧ page.permissions &&& permissions = permissions

lemma firstFailureFrom_none {pages : Table Page} {last n va : Nat}
    (hlast : last = va + n * pageSize) :
    firstFailureFrom pages address size permissions last (n + 1) va = none ↔
      ∀ k ≤ n, Permitted pages permissions (va + k * pageSize) := by
  induction n generalizing va with
  | zero =>
    rw [firstFailureFrom]
    constructor
    · intro h k hk
      obtain rfl := le_zero.mp hk
      rw [zero_mul, add_zero]
      split at h
      · cases h
      next page hpage =>
        split at h
        · cases h
        next hperm => exact ⟨page, hpage, not_not.mp hperm⟩
    · intro h
      obtain ⟨page, hpage, hperm⟩ := h 0 (Nat.le_refl 0)
      rw [zero_mul, add_zero] at hpage
      rw [hpage]
      dsimp only
      rw [if_neg (not_not.mpr hperm), if_pos (by omega)]
  | succ n ih =>
    have hne : va ≠ last := by
      rw [hlast]
      unfold pageSize
      omega
    have hnext : last = va + pageSize + n * pageSize := by
      rw [hlast]
      ring
    have hih := ih hnext
    rw [firstFailureFrom]
    constructor
    · intro h k hk
      split at h
      · cases h
      next page hpage =>
        split at h
        · cases h
        next hperm =>
          rw [hih] at h
          cases k with
          | zero =>
            rw [zero_mul, add_zero]
            exact ⟨page, hpage, not_not.mp hperm⟩
          | succ k =>
            have := h k (le_of_succ_le_succ hk)
            rwa [add_assoc, add_comm pageSize, ← succ_mul] at this
    · intro h
      obtain ⟨page, hpage, hperm⟩ := h 0 (Nat.zero_le _)
      rw [zero_mul, add_zero] at hpage
      rw [hpage]
      dsimp only
      rw [if_neg (not_not.mpr hperm), if_neg hne, hih]
      intro k hk
      have := h (k + 1) (succ_le_succ hk)
      rwa [add_assoc, add_comm pageSize, ← succ_mul]

theorem check_none_iff {space : AddressSpace} (hp : ∀ va page, space.pages.find va = some page →
    va + pageSize ≤ 2 ^ 64)
    : space.check address size permissions = none ↔ size = 0 ∨ (address + size ≤ 2 ^ 64 ∧
      ∀ i < size, Permitted space.pages permissions (pageOf (address + i))) := by
  rw [check, Option.map_eq_none_iff, firstAccessFailure]
  by_cases hz : size = 0
  · rw [if_pos hz]
    simp [hz]
  rw [if_neg hz]
  by_cases hb : uint64Max - address < size - 1
  · rw [if_pos hb]
    unfold uint64Max at hb
    constructor
    · intro h
      cases h
    · intro h
      omega
  rw [if_neg hb]
  have hmod : address % pageSize < pageSize := mod_lt _ (by decide)
  rw [firstFailureFrom_none (by unfold pageSize at *; omega)]
  constructor
  · intro h
    refine Or.inr ⟨?_, ?_⟩
    · -- A number past the top has no page.
      obtain ⟨page, hpage, -⟩ := h 0 (Nat.zero_le _)
      have := hp _ _ hpage
      unfold uint64Max at hb
      omega
    · intro i hi
      have hk := h ((pageOf (address + i) - (address - address % pageSize)) / pageSize) (by
        unfold pageOf pageSize at *
        omega)
      have heq : address - address % pageSize +
          (pageOf (address + i) - (address - address % pageSize)) / pageSize * pageSize =
          pageOf (address + i) := by
        unfold pageOf pageSize at *
        omega
      rwa [heq] at hk
  · intro h k hk
    rcases h with h | ⟨-, h⟩
    · exact absurd h hz
    · have hi := h (address - address % pageSize + k * pageSize - address) (by
        unfold pageSize at *
        omega)
      have heq : pageOf (address + (address - address % pageSize + k * pageSize - address)) =
          address - address % pageSize + k * pageSize := by
        unfold pageOf pageSize at *
        omega
      rwa [heq] at hi

end NeverD.Emulation
