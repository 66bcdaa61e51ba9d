import NeverD.Sat.Solver

namespace NeverD.Sat

/-- The terms of the restart schedule: a power of two ends each run, and what is above half of a run
repeats it. -/
def luby (i : Nat) : Nat :=
  if h : i + 2 = 2 ^ ((i + 1).log2 + 1) then 2 ^ (i + 1).log2 else luby (i + 1 - 2 ^ (i + 1).log2)
termination_by i
decreasing_by
  have hle : 2 ^ (i + 1).log2 ≤ i + 1 := Nat.log2_self_le i.succ_ne_zero
  have hlt : i + 1 < 2 ^ ((i + 1).log2 + 1) := Nat.lt_log2_self
  have hpos := Nat.two_pow_pos (i + 1).log2
  rw [Nat.pow_succ] at h hlt
  omega

lemma luby_of_log {i e : Nat} (hle : 2 ^ e ≤ i + 1) (hlt : i + 1 < 2 ^ (e + 1)) :
    luby i = if i + 2 = 2 ^ (e + 1) then 2 ^ e else luby (i + 1 - 2 ^ e) := by
  have he : (i + 1).log2 = e := (Nat.log2_eq_iff i.succ_ne_zero).mpr ⟨hle, hlt⟩
  rw [luby, he]
  split <;> rfl

lemma descendRun_eq_luby {e i : Nat} (h : i + 1 < 2 ^ (e + 1)) :
    descendRun e (2 ^ (e + 1) - 1) i = luby i := by
  induction e generalizing i with
  | zero =>
    obtain rfl : i = 0 := by omega
    rw [luby_of_log (e := 0) (by simp) (by simp)]
    rfl
  | succ e ih =>
    have hpow : 2 ^ (e + 1 + 1) = 2 ^ (e + 1) * 2 := Nat.pow_succ ..
    have hpow' : 2 ^ (e + 1) = 2 ^ e * 2 := Nat.pow_succ ..
    have hhalf : (2 ^ (e + 1 + 1) - 1 - 1) / 2 = 2 ^ (e + 1) - 1 := by omega
    have hpos := Nat.two_pow_pos (e + 1)
    rw [descendRun, hhalf]
    split
    next hlast =>
      rw [luby_of_log (e := e + 1) (by omega) (by omega), if_pos (by omega)]
    next hinside =>
      by_cases hlow : i < 2 ^ (e + 1) - 1
      · rw [Nat.mod_eq_of_lt hlow]
        exact ih (by omega)
      · rw [Nat.mod_eq_sub_mod (by omega), Nat.mod_eq_of_lt (by omega), ih (by omega),
          luby_of_log (i := i) (e := e + 1) (by omega) (by omega), if_neg (by omega)]
        congr 1
        omega

lemma growRun_spec {i : Nat} (hi : i + 1 < 2 ^ 64) (k e : Nat) :
    ∃ e' ≤ e + k, growRun i k (2 ^ (e + 1) - 1) e = (2 ^ (e' + 1) - 1, e') ∧
      (i + 1 < 2 ^ (e' + 1) ∨ e' = e + k) := by
  induction k generalizing e with
  | zero => exact ⟨e, le_rfl, rfl, Or.inr rfl⟩
  | succ k ih =>
    rw [growRun, Nat.mod_eq_of_lt hi]
    split
    · have hpow : 2 ^ (e + 1 + 1) = 2 ^ (e + 1) * 2 := Nat.pow_succ ..
      have hpos := Nat.two_pow_pos (e + 1)
      have hsize : 2 * (2 ^ (e + 1) - 1) + 1 = 2 ^ (e + 1 + 1) - 1 := by omega
      obtain ⟨e', hle, hgrow, hend⟩ := ih (e + 1)
      exact ⟨e', by omega, hsize ▸ hgrow, by omega⟩
    next hfit => exact ⟨e, by omega, rfl, Or.inl (by omega)⟩

lemma descendRun_le (e size i : Nat) : descendRun e size i ≤ 2 ^ e := by
  induction e generalizing size i with
  | zero => exact le_rfl
  | succ e ih =>
    rw [descendRun]
    split
    · exact le_rfl
    · exact (ih ..).trans (Nat.pow_le_pow_right Nat.two_pos e.le_succ)

/-- Below `2^63` the schedule is the Luby sequence, and neither a run nor a term overflows its
word. -/
theorem restartTerm_luby (i : Nat) (hi : i < 2 ^ 63) :
    restartTerm i = luby i ∧ (growRun i 62 1 0).1 < 2 ^ 64 ∧ restartTerm i < 2 ^ 64 := by
  obtain ⟨e, he, hgrow, hend⟩ := growRun_spec (show i + 1 < 2 ^ 64 by omega) 62 0
  have hterm : restartTerm i = descendRun e (2 ^ (e + 1) - 1) i := by
    rw [restartTerm, show growRun i 62 1 0 = _ from hgrow]
  have hsize : 2 ^ (e + 1) ≤ 2 ^ 63 := Nat.pow_le_pow_right Nat.two_pos (by omega)
  refine ⟨?_, (congrArg Prod.fst hgrow).trans_lt (by omega), ?_⟩
  · by_cases hlow : i + 1 < 2 ^ (e + 1)
    · exact hterm.trans (descendRun_eq_luby hlow)
    · obtain rfl : e = 62 := by omega
      obtain rfl : i = 2 ^ 63 - 1 := by omega
      rw [luby_of_log (e := 63) (by decide) (by decide), if_neg (by decide),
        luby_of_log (e := 0) (by decide) (by decide), if_pos (by decide)]
      decide
  · rw [hterm]
    refine (descendRun_le ..).trans_lt ?_
    rw [Nat.pow_succ] at hsize
    omega

theorem restartTerm_luby_third : restartTerm 2 = luby 2 ∧ (growRun 2 62 1 0).1 < 2 ^ 64 ∧
    restartTerm 2 < 2 ^ 64 :=
  restartTerm_luby 2 (by decide)

/-- The largest run is too small for later indices. -/
theorem restartTerm_late : restartTerm (2 ^ 63) ≠ luby (2 ^ 63) := by
  rw [luby_of_log (e := 63) (by decide) (by decide), if_neg (by decide),
    luby_of_log (e := 1) (by decide) (by decide), if_neg (by decide),
    luby_of_log (e := 0) (by decide) (by decide), if_pos (by decide)]
  decide

end NeverD.Sat
