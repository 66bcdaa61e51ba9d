import NeverD.Lib.Minterms

namespace NeverD.Mba
open Lib.Minterms List Nat

def kMaxTruthTableAtoms : Nat := 30

def TruthTable (numVars : Nat) : Type := BitVec (2 ^ numVars)

namespace TruthTable

variable {n : Nat}

instance : DecidableEq (TruthTable n) := inferInstanceAs (DecidableEq (BitVec (2 ^ n)))

def entry (t : TruthTable n) (k : Nat) : Bool := BitVec.getLsbD t k

def ofFn (f : Nat → Bool) : TruthTable n := tabulate (2 ^ n) f

def constant (b : Bool) : TruthTable n := ofFn fun _ => b

def patterns (t : TruthTable n) : List Nat := (List.range (2 ^ n)).filter t.entry

lemma entry_ofFn (f : Nat → Bool) {k : Nat} (hk : k < 2 ^ n) :
    (ofFn f : TruthTable n).entry k = f k := by
  rw [entry, ofFn, getLsbD_tabulate, decide_eq_true hk, Bool.true_and]

lemma mem_patterns {t : TruthTable n} {k : Nat} : k ∈ t.patterns ↔ k < 2 ^ n ∧
    t.entry k = true := by
  rw [patterns, mem_filter, mem_range]

end TruthTable

/-- The columns of the first six inputs repeat within a word. -/
def atomPatterns : List Nat :=
  [0xaaaaaaaaaaaaaaaa, 0xcccccccccccccccc, 0xf0f0f0f0f0f0f0f0, 0xff00ff00ff00ff00,
    0xffff0000ffff0000, 0xffffffff00000000]

/-- Whether a pattern is in one of the runs `[run, 2 * run)`, `[3 * run, 4 * run)` and so on. -/
def inRuns (run entries k : Nat) : Bool :=
  (List.range (entries / (2 * run))).any fun j => run + j * (2 * run) ≤ k ∧
    k < run + j * (2 * run) + run

def atomTruthTable (index numVars : Nat) : TruthTable numVars :=
  if index ≥ numVars then TruthTable.constant false
  else if index < 6 then TruthTable.ofFn fun k => (atomPatterns.getD index 0).testBit (k % 64)
  else TruthTable.ofFn (inRuns (2 ^ index) (2 ^ numVars))

lemma testBit_atomPatterns :
    ∀ index < 6, ∀ k < 64, (atomPatterns.getD index 0).testBit k = k.testBit index := by
  decide

lemma inRuns_eq {index n k : Nat} (hi : index < n) (hk : k < 2 ^ n) :
    inRuns (2 ^ index) (2 ^ n) k = k.testBit index := by
  have hpos := Nat.two_pow_pos index
  have hbit : k.testBit index = decide (k / 2 ^ index % 2 = 1) := by
    rw [testBit_eq_decide_div_mod_eq]
  rw [hbit, Bool.eq_iff_iff, inRuns, any_eq_true, decide_eq_true_eq]
  have hdiv : 2 ^ n / (2 * 2 ^ index) = 2 ^ (n - (index + 1)) := by
    rw [← Nat.pow_succ', Nat.pow_div hi two_pos]
  have hsplit : 2 ^ n = 2 ^ (n - (index + 1)) * (2 * 2 ^ index) := by
    rw [← Nat.pow_succ', ← pow_add]
    congr 1
    omega
  constructor
  · intro ⟨j, _, hj⟩
    rw [decide_eq_true_eq] at hj
    have hq : k / 2 ^ index = 2 * j + 1 := by
      apply Nat.div_eq_of_lt_le
      · calc (2 * j + 1) * 2 ^ index = 2 ^ index + j * (2 * 2 ^ index) := by ring
          _ ≤ k := hj.1
      · calc k < 2 ^ index + j * (2 * 2 ^ index) + 2 ^ index := hj.2
          _ = (2 * j + 1 + 1) * 2 ^ index := by ring
    omega
  · intro hodd
    have hmul := div_add_mod k (2 ^ index)
    refine ⟨k / 2 ^ index / 2, ?_, decide_eq_true ?_⟩
    · rw [mem_range, hdiv, Nat.div_div_eq_div_mul, mul_comm (2 ^ index)]
      apply Nat.div_lt_of_lt_mul
      rwa [mul_comm, ← hsplit]
    · have hq : k / 2 ^ index = 2 * (k / 2 ^ index / 2) + 1 := by omega
      have hk' : k = 2 ^ index + k / 2 ^ index / 2 * (2 * 2 ^ index) + k % 2 ^ index := by
        calc k = 2 ^ index * (k / 2 ^ index) + k % 2 ^ index := hmul.symm
          _ = 2 ^ index * (2 * (k / 2 ^ index / 2) + 1) + k % 2 ^ index := by rw [← hq]
          _ = 2 ^ index + k / 2 ^ index / 2 * (2 * 2 ^ index) + k % 2 ^ index := by ring
      constructor
      · omega
      · omega

theorem entry_atomTruthTable {index n k : Nat} (hi : index < n) (hk : k < 2 ^ n) :
    (atomTruthTable index n).entry k = k.testBit index := by
  rw [atomTruthTable, if_neg (Nat.not_le_of_lt hi)]
  split
  · rename_i h6
    rw [TruthTable.entry_ofFn _ hk, testBit_atomPatterns index h6 _ (mod_lt k (by decide))]
    show (k % 2 ^ 6).testBit index = _
    rw [testBit_mod_two_pow, decide_eq_true h6, Bool.true_and]
  · rw [TruthTable.entry_ofFn _ hk, inRuns_eq hi hk]

end NeverD.Mba
