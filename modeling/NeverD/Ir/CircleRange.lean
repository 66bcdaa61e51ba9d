import Mathlib.Data.Nat.ModEq
import Mathlib.Data.Set.Insert

namespace NeverD.Ir

/-- The range from `left` up to `right`, before it when the range wraps; equal ends are a whole
turn. -/
structure CircleRange where
  left : Nat := 0
  right : Nat := 0
  mask : Nat := 0
  step : Nat := 1
  empty : Bool := true
  pos : 0 < step := by decide
deriving DecidableEq

namespace CircleRange

def calcMask (sizeBytes : Nat) : Nat :=
  if 8 ≤ sizeBytes then 2 ^ 64 - 1 else 2 ^ (sizeBytes * 8) - 1

def normalize (r : CircleRange) : CircleRange :=
  if r.left = r.right then
    let left := if r.step ≠ 1 then r.left % r.step else 0
    { r with left := left, right := left }
  else r

def range (left right sizeBytes step : Nat) (hstep : 0 < step) : CircleRange :=
  normalize { left := left, right := right, mask := calcMask sizeBytes, step := step,
              empty := false, pos := hstep }

def isFull (r : CircleRange) : Bool := !r.empty && r.step = 1 && r.left = r.right

def isSingle (r : CircleRange) : Bool := !r.empty && r.right = (r.left + r.step) &&& r.mask

def contains (r : CircleRange) (v : Nat) : Bool :=
  if r.empty then false
  else if r.step ≠ 1 ∧ r.left % r.step ≠ v % r.step then false
  else if r.left < r.right then r.left ≤ v ∧ v < r.right
  else if r.right < r.left then v < r.right ∨ r.left ≤ v
  else true

def wraps (r : CircleRange) : Bool := r.right ≤ r.left

def containsRange (r other : CircleRange) : Bool :=
  if r.empty then other.empty
  else if other.empty then true
  else if r.isFull then true
  else if other.isFull then false
  else if other.step < r.step ∧ other.isSingle = false then false
  else if r.left = other.left ∧ r.right = other.right then true
  else match r.wraps, other.wraps with
    | false, false => r.left ≤ other.left ∧ other.right ≤ r.right
    | true, false => r.left ≤ other.left ∨ other.right ≤ r.right
    | false, true => false
    | true, true => r.left ≤ other.left ∧ other.right ≤ r.right

def withStep (r other : CircleRange) : CircleRange :=
  { r with step := max r.step other.step, pos := lt_max_of_lt_left r.pos }

def narrow (r other : CircleRange) (left right : Nat) : CircleRange :=
  normalize { r.withStep other with left := left, right := right }

/-- The range afterwards, and zero, or two for no value; one would stand for two parts. -/
def intersect (r other : CircleRange) : CircleRange × Nat :=
  if other.empty then ({ r with empty := true }, 2)
  else if r.empty then (r, 2)
  else if r.isFull then (normalize (other.withStep r), 0)
  else if other.isFull then (normalize (r.withStep other), 0)
  else match r.wraps, other.wraps with
    | false, false =>
      let left := max r.left other.left
      let right := min r.right other.right
      if right ≤ left then ({ r with empty := true }, 2) else (r.narrow other left right, 0)
    | true, false =>
      if r.left ≤ other.left then (r.narrow other other.left other.right, 0)
      else if other.right ≤ r.right then (r.narrow other other.left (min r.right other.right), 0)
      else ({ r with empty := true }, 2)
    | false, true =>
      if other.left ≤ r.left then (r.narrow other r.left r.right, 0)
      else if r.right ≤ other.right then (r.narrow other r.left (min r.right other.right), 0)
      else ({ r with empty := true }, 2)
    | true, true => (r.narrow other (max r.left other.left) (min r.right other.right), 0)

def values (r : CircleRange) : Set Nat := { v | v ≤ r.mask ∧ r.contains v = true }

/-- The positions between two ends, going upwards and around. -/
def Arc (left right v : Nat) : Prop :=
  (left < right → left ≤ v ∧ v < right) ∧ (right < left → v < right ∨ left ≤ v)

lemma contains_iff (r : CircleRange) (v : Nat) :
    r.contains v = true ↔ r.empty = false ∧ v ≡ r.left [MOD r.step] ∧ Arc r.left r.right v := by
  unfold contains Arc
  cases r.empty with
  | true => simp
  | false =>
    have hmod : (r.step ≠ 1 ∧ r.left % r.step ≠ v % r.step) ↔ ¬ v ≡ r.left [MOD r.step] := by
      unfold Nat.ModEq
      constructor
      · exact fun h he => h.2 he.symm
      · intro h
        refine ⟨?_, fun he => h he.symm⟩
        intro hone
        rw [hone, Nat.mod_one, Nat.mod_one] at h
        exact h rfl
    simp only [Bool.false_eq_true, if_false, true_and, hmod]
    by_cases hc : v ≡ r.left [MOD r.step]
    · rw [if_neg (not_not_intro hc)]
      split
      next hlt =>
        simp only [decide_eq_true_eq]
        exact ⟨fun h => ⟨hc, fun _ => h, fun hgt => absurd hgt (lt_asymm hlt)⟩, fun h => h.2.1 hlt⟩
      next hlt =>
        split
        next hgt =>
          simp only [decide_eq_true_eq]
          exact ⟨fun h => ⟨hc, fun hl => absurd hl hlt, fun _ => h⟩, fun h => h.2.2 hgt⟩
        next hgt =>
          simp only [true_iff]
          exact ⟨hc, fun hl => absurd hl hlt, fun hg => absurd hg hgt⟩
    · rw [if_pos hc]
      simp [hc]

@[simp] lemma mask_normalize (r : CircleRange) : r.normalize.mask = r.mask := by
  unfold normalize
  split <;> rfl

lemma contains_normalize (r : CircleRange) (v : Nat) : r.normalize.contains v = r.contains v := by
  unfold normalize
  split
  next heq =>
    rw [Bool.eq_iff_iff, contains_iff, contains_iff]
    have hmod : (v ≡ (if r.step ≠ 1 then r.left % r.step else 0) [MOD r.step]) ↔
        v ≡ r.left [MOD r.step] := by
      unfold Nat.ModEq
      split
      · rw [Nat.mod_mod]
      next hone => rw [not_not.mp hone, Nat.mod_one, Nat.mod_one, Nat.mod_one]
    have harc : ∀ x : Nat, Arc x x v :=
      fun x => ⟨fun h => absurd h (lt_irrefl x), fun h => absurd h (lt_irrefl x)⟩
    rw [hmod, heq]
    exact ⟨fun h => ⟨h.1, h.2.1, harc _⟩, fun h => ⟨h.1, h.2.1, harc _⟩⟩
  · rfl

variable {r : CircleRange}

lemma contains_full (h : r.isFull = true) (v : Nat) : r.contains v = true := by
  unfold isFull at h
  simp only [Bool.and_eq_true, Bool.not_eq_true', decide_eq_true_eq] at h
  obtain ⟨⟨hempty, hstep⟩, hends⟩ := h
  rw [contains_iff, hstep, hends]
  exact ⟨hempty, Nat.modEq_one, fun h => absurd h (lt_irrefl _), fun h => absurd h (lt_irrefl _)⟩

lemma contains_narrow (r other : CircleRange) (left right v : Nat) :
      (r.narrow other left right).contains v = true ↔
      r.empty = false ∧ v ≡ left [MOD max r.step other.step] ∧ Arc left right v := by
  unfold narrow
  rw [contains_normalize, contains_iff]
  rfl

def coarser (r other : CircleRange) : CircleRange := if other.step ≤ r.step then r else other

/-- A start with the residue that the range with the larger stride asks for. -/
def Aligned (r other : CircleRange) (left : Nat) : Prop :=
  left ≡ (r.coarser other).left [MOD max r.step other.step]

variable {other : CircleRange}

theorem shared_aligned {v : Nat} (h : r.contains v = true) (h' : other.contains v = true) :
    r.Aligned other v := by
  have hr := ((contains_iff r v).mp h).2.1
  have ho := ((contains_iff other v).mp h').2.1
  unfold Aligned coarser
  split
  next hle =>
    rw [max_eq_left hle]
    exact hr
  next hle =>
    rw [max_eq_right (Nat.le_of_not_le hle)]
    exact ho

/-- New ends keep all shared values if they stand around them and the start has the right
residue. -/
theorem subset_narrow_iff (r other : CircleRange) (left right : Nat) :
    r.values ∩ other.values ⊆ (r.narrow other left right).values ↔ r.values ∩ other.values = ∅ ∨
        r.Aligned other left ∧ ∀ v ∈ r.values ∩ other.values, Arc left right v := by
  have hnarrow : (r.narrow other left right).mask = r.mask := mask_normalize _
  constructor
  · intro h
    rcases Set.eq_empty_or_nonempty (r.values ∩ other.values) with hnone | hsome
    · exact Or.inl hnone
    · refine Or.inr ⟨?_, ?_⟩
      · obtain ⟨v, hv⟩ := hsome
        have hin := ((contains_narrow r other left right v).mp (h hv).2).2.1
        exact hin.symm.trans (shared_aligned hv.1.2 hv.2.2)
      · exact fun v hv => ((contains_narrow r other left right v).mp (h hv).2).2.2
  · intro h v hv
    rcases h with hnone | h
    · rw [hnone] at hv
      exact hv.elim
    · refine ⟨hnarrow ▸ hv.1.1, (contains_narrow r other left right v).mpr ⟨?_, ?_, h.2 v hv⟩⟩
      · exact ((contains_iff r v).mp hv.1.2).1
      · exact (shared_aligned hv.1.2 hv.2.2).trans h.1.symm

/-- When an intersection keeps all shared values. Of two ranges that wrap, the part between the ends
that are kept is lost; of one that wraps and one that does not, everything is lost unless the second
lies behind the start or before the end of the first. -/
def MeetKeeps (r other : CircleRange) : Prop :=
  r.isFull = true ∨ other.isFull = true ∨ r.values ∩ other.values = ∅ ∨
    match r.wraps, other.wraps with
    | false, false => r.Aligned other (max r.left other.left)
    | true, false => (r.left ≤ other.left ∨ other.right ≤ r.right) ∧ r.Aligned other other.left
    | false, true => (other.left ≤ r.left ∨ r.right ≤ other.right) ∧ r.Aligned other r.left
    | true, true => r.Aligned other (max r.left other.left) ∧
        ∀ v ∈ r.values ∩ other.values, Arc (max r.left other.left) (min r.right other.right) v

lemma values_empty (h : r.empty = true) : r.values = ∅ := by
  apply Set.eq_empty_of_forall_notMem
  intro v hv
  have := ((contains_iff r v).mp hv.2).1
  rw [h] at this
  cases this

lemma values_full_meet (h : r.isFull = true) :
    (normalize (other.withStep r)).values = other.values := by
  have hone : r.step = 1 := by
    unfold isFull at h
    simp only [Bool.and_eq_true, decide_eq_true_eq] at h
    exact h.1.2
  have hstep : max other.step r.step = other.step := max_eq_left (hone ▸ other.pos)
  ext v
  show (_ ∧ _) ↔ (_ ∧ _)
  rw [mask_normalize, contains_normalize, contains_iff, contains_iff]
  unfold withStep
  dsimp only
  rw [hstep]

lemma wraps_iff (r : CircleRange) : r.wraps = true ↔ r.right ≤ r.left := decide_eq_true_iff

lemma wraps_false_iff (r : CircleRange) : r.wraps = false ↔ r.left < r.right := by
  rw [← not_le, ← wraps_iff, Bool.not_eq_true]

lemma subset_empty_iff (r other : CircleRange) :
    r.values ∩ other.values ⊆ ({ r with empty := true } : CircleRange).values ↔
      r.values ∩ other.values = ∅ := by
  rw [values_empty (r := { r with empty := true }) rfl, Set.subset_empty_iff]

lemma arc_of_mem {v : Nat} (h : v ∈ r.values) : Arc r.left r.right v :=
  ((contains_iff r v).mp h.2).2.2

lemma subset_intersect_iff (r other : CircleRange) :
    r.values ∩ other.values ⊆ (r.intersect other).1.values ↔ r.MeetKeeps other := by
  unfold intersect MeetKeeps
  split
  next hempty =>
    rw [subset_empty_iff, values_empty hempty, Set.inter_empty]
    simp only [true_or, or_true]
  split
  next hempty =>
    rw [values_empty hempty, Set.empty_inter]
    simp only [true_or, or_true, Set.empty_subset]
  split
  next hfull =>
    rw [values_full_meet hfull]
    simp only [hfull, true_or, Set.inter_subset_right]
  split
  next hfull =>
    rw [values_full_meet hfull]
    simp only [hfull, true_or, or_true, Set.inter_subset_left]
  rename_i hr ho
  rw [or_iff_right hr, or_iff_right ho]
  cases hw : r.wraps with
  | false =>
    have hlt := (wraps_false_iff r).mp hw
    cases hw' : other.wraps with
    | false =>
      have hlt' := (wraps_false_iff other).mp hw'
      have harc : ∀ v ∈ r.values ∩ other.values, max r.left other.left ≤ v ∧
          v < min r.right other.right := by
        intro v hv
        have h₁ := (arc_of_mem hv.1).1 hlt
        have h₂ := (arc_of_mem hv.2).1 hlt'
        omega
      dsimp only
      split
      next hle =>
        have hnone : r.values ∩ other.values = ∅ := by
          apply Set.eq_empty_of_forall_notMem
          intro v hv
          have := harc v hv
          omega
        rw [subset_empty_iff]
        simp only [hnone, true_or]
      next hle =>
        rw [subset_narrow_iff]
        apply or_congr_right
        apply and_iff_left
        intro v hv
        exact ⟨fun _ => harc v hv, fun hgt => absurd (le_of_lt hgt) hle⟩
    | true =>
      dsimp only
      split
      next hupper =>
        rw [subset_narrow_iff]
        apply or_congr_right
        rw [and_iff_left fun v hv => arc_of_mem (Set.mem_of_mem_inter_left hv),
          and_iff_right (Or.inl hupper)]
      split
      next hupper hlower =>
        rw [min_eq_left hlower, subset_narrow_iff]
        apply or_congr_right
        rw [and_iff_left fun v hv => arc_of_mem (Set.mem_of_mem_inter_left hv),
          and_iff_right (Or.inr hlower)]
      next hupper hlower =>
        rw [subset_empty_iff]
        simp only [hupper, hlower, or_false, false_and]
  | true =>
    cases hw' : other.wraps with
    | false =>
      dsimp only
      split
      next hupper =>
        rw [subset_narrow_iff]
        apply or_congr_right
        rw [and_iff_left fun v hv => arc_of_mem (Set.mem_of_mem_inter_right hv),
          and_iff_right (Or.inl hupper)]
      split
      next hupper hlower =>
        rw [min_eq_right hlower, subset_narrow_iff]
        apply or_congr_right
        rw [and_iff_left fun v hv => arc_of_mem (Set.mem_of_mem_inter_right hv),
          and_iff_right (Or.inr hlower)]
      next hupper hlower =>
        rw [subset_empty_iff]
        simp only [hupper, hlower, or_false, false_and]
    | true => exact subset_narrow_iff r other _ _

theorem intersect_answer (r other : CircleRange) :
    (r.intersect other).2 ≠ 1 ∧
    ((r.intersect other).2 = 2 → (r.intersect other).1.empty = true) := by
  have hnone : ∀ s : CircleRange, s.empty = true → ((s, 2) : CircleRange × Nat).2 ≠ 1 ∧
      (((s, 2) : CircleRange × Nat).2 = 2 → ((s, 2) : CircleRange × Nat).1.empty = true) :=
    fun s hs => ⟨(by decide : (2 : Nat) ≠ 1), fun _ => hs⟩
  have hsome : ∀ s : CircleRange, ((s, 0) : CircleRange × Nat).2 ≠ 1 ∧
      (((s, 0) : CircleRange × Nat).2 = 2 → ((s, 0) : CircleRange × Nat).1.empty = true) :=
    fun s => ⟨(by decide : (0 : Nat) ≠ 1), fun h => absurd h (by decide : (0 : Nat) ≠ 2)⟩
  unfold intersect
  split
  · exact hnone _ rfl
  split
  next hempty => exact hnone r hempty
  split
  · exact hsome _
  split
  · exact hsome _
  split
  · dsimp only
    split
    · exact hnone _ rfl
    · exact hsome _
  · split
    · exact hsome _
    split
    · exact hsome _
    · exact hnone _ rfl
  · split
    · exact hsome _
    split
    · exact hsome _
    · exact hnone _ rfl
  · exact hsome _

/-- The comparisons of strides and ends by which one range counts as a part of another. -/
def Encloses (r other : CircleRange) : Prop :=
  r.empty = false ∧ other.empty = false ∧ r.isFull = false ∧ other.isFull = false ∧
    (r.step ≤ other.step ∨ other.isSingle = true) ∧
    (r.left = other.left ∧ r.right = other.right ∨
      match r.wraps, other.wraps with
      | false, false => r.left ≤ other.left ∧ other.right ≤ r.right
      | true, false => r.left ≤ other.left ∨ other.right ≤ r.right
      | false, true => False
      | true, true => r.left ≤ other.left ∧ other.right ≤ r.right)

/-- The comparisons say nothing of residues: this is what they leave open. -/
def SameResidue (r other : CircleRange) : Prop := ∀ v ∈ other.values, v ≡ r.left [MOD r.step]

lemma Encloses.arc (h : r.Encloses other) {v : Nat} (hv : Arc other.left other.right v) :
    Arc r.left r.right v := by
  obtain ⟨-, -, -, -, -, hends⟩ := h
  rcases hends with heq | hends
  · rw [heq.1, heq.2]
    exact hv
  unfold Arc at *
  cases hw : r.wraps with
  | false =>
    have hlt := (wraps_false_iff r).mp hw
    cases hw' : other.wraps with
    | false =>
      have hlt' := (wraps_false_iff other).mp hw'
      simp only [hw, hw'] at hends
      omega
    | true =>
      simp only [hw, hw'] at hends
  | true =>
    have hle := (wraps_iff r).mp hw
    cases hw' : other.wraps with
    | false =>
      have hlt' := (wraps_false_iff other).mp hw'
      simp only [hw, hw'] at hends
      omega
    | true =>
      have hle' := (wraps_iff other).mp hw'
      simp only [hw, hw'] at hends
      omega

lemma containsRange_iff (r other : CircleRange) :
    r.containsRange other = true ↔ other.empty = true ∨ (r.empty = false ∧ r.isFull = true) ∨
      r.Encloses other := by
  unfold containsRange Encloses
  split
  next hempty => simp only [hempty, Bool.true_eq_false, false_and, or_false]
  split
  next h h' => simp only [h', true_or]
  rename_i h h'
  rw [Bool.not_eq_true] at h h'
  split
  next hfull => simp only [h, hfull, and_self, true_or, or_true]
  split
  next hr ho =>
    simp only [h', hr, ho, Bool.true_eq_false, Bool.false_eq_true, false_and, and_false, or_false]
  rename_i hr ho
  rw [Bool.not_eq_true] at hr ho
  have hsteps : (other.step < r.step ∧ other.isSingle = false) ↔
      ¬ (r.step ≤ other.step ∨ other.isSingle = true) := by
    rw [not_or, not_le, Bool.not_eq_true]
  simp only [h, h', hr, ho, hsteps, Bool.false_eq_true, and_false, true_and, false_or]
  split
  next hstep => simp only [hstep, Bool.false_eq_true, false_and]
  rename_i hstep
  simp only [not_not.mp hstep, true_and]
  split
  next hends => simp only [hends, and_self, true_or]
  next hends =>
    rw [or_iff_right hends]
    split <;> simp only [decide_eq_true_eq, Bool.false_eq_true]

lemma contains_sound_iff (hmask : r.mask = other.mask) :
    (r.containsRange other = true → other.values ⊆ r.values) ↔
    (r.Encloses other → r.SameResidue other) := by
  rw [containsRange_iff]
  constructor
  · intro h henc v hv
    exact ((contains_iff r v).mp (h (Or.inr (Or.inr henc)) hv).2).2.1
  · intro h htest v hv
    rcases htest with hempty | hfull | henc
    · rw [values_empty hempty] at hv
      exact hv.elim
    · exact ⟨hmask ▸ hv.1, contains_full hfull.2 v⟩
    · refine ⟨hmask ▸ hv.1, (contains_iff r v).mpr ⟨henc.1, h henc v hv, henc.arc (arc_of_mem hv)⟩⟩

/-- An intersection has every shared value, unless it says that there is none, and a range that
contains another has its values. -/
def Sound (r other : CircleRange) : Prop :=
  ((r.intersect other).2 ≠ 1 → r.values ∩ other.values ⊆ (r.intersect other).1.values) ∧
    ((r.intersect other).2 = 2 → r.values ∩ other.values = ∅) ∧
    (r.containsRange other = true → other.values ⊆ r.values)

/-- Over one mask, the operations are sound for just the ranges whose meeting keeps the shared
values, and for which the inclusion test does not overlook a residue. -/
theorem sound_iff {r other : CircleRange} (hmask : r.mask = other.mask) :
    r.Sound other ↔ r.MeetKeeps other ∧ (r.Encloses other → r.SameResidue other) := by
  obtain ⟨hcode, htwo⟩ := intersect_answer r other
  rw [← subset_intersect_iff, ← contains_sound_iff hmask]
  constructor
  · exact fun h => ⟨h.1 hcode, h.2.2⟩
  · intro h
    refine ⟨fun _ => h.1, ?_, h.2⟩
    intro hans
    have hsub := h.1
    rw [values_empty (htwo hans)] at hsub
    exact Set.subset_empty_iff.mp hsub

/-- A range of bytes around zero and one inside the byte: they meet at 5, and no meeting is
found. -/
theorem sound_wrapping : ¬ (range 200 10 1 1 (by decide)).Sound (range 5 250 1 1 (by decide)) := by
  intro h
  have hfive : 5 ∈ (range 200 10 1 1 (by decide)).values ∩ (range 5 250 1 1 (by decide)).values :=
    ⟨⟨by decide, by decide⟩, ⟨by decide, by decide⟩⟩
  rw [h.2.1 (by decide)] at hfive
  exact hfive

/-- Two ranges that do not wrap. -/
theorem sound_iff_inside : (range 5 20 1 1 (by decide)).Sound (range 10 30 1 1 (by decide)) ↔
      (range 5 20 1 1 (by decide)).MeetKeeps (range 10 30 1 1 (by decide)) ∧
        ((range 5 20 1 1 (by decide)).Encloses (range 10 30 1 1 (by decide)) →
          (range 5 20 1 1 (by decide)).SameResidue (range 10 30 1 1 (by decide))) :=
  sound_iff (by decide)

end CircleRange

end NeverD.Ir
