import Mathlib.Algebra.GroupWithZero.Nat
import Mathlib.Algebra.BigOperators.Group.List.Basic

namespace NeverD.Lib.Runs
open List

variable {α : Type}
variable {x : Nat}

abbrev Run (α : Type) := Nat × List α

def stop (r : Run α) : Nat := r.1 + r.2.length

def value (r : Run α) (x : Nat) : Option α := if r.1 ≤ x then r.2[x - r.1]? else none

def get (runs : List (Run α)) (x : Nat) : Option α := runs.findSome? fun r => value r x

def total (runs : List (Run α)) : Nat := (runs.map fun r => r.2.length).sum

structure Canonical (runs : List (Run α)) : Prop where
  nonempty : ∀ r ∈ runs, r.2 ≠ []
  gaps : runs.Pairwise fun r s => stop r < s.1

lemma value_some_iff {r : Run α} : (∃ a, value r x = some a) ↔ r.1 ≤ x ∧ x < stop r := by
  unfold value stop
  constructor
  · intro h
    obtain ⟨a, ha⟩ := h
    split at ha
    next hle =>
      have := (List.getElem?_eq_some_iff.mp ha).1
      omega
    · cases ha
  · intro h
    rw [if_pos h.1, getElem?_eq_getElem (show x - r.1 < r.2.length by omega)]
    exact ⟨_, rfl⟩

lemma value_none {r : Run α} (h : x < r.1 ∨ stop r ≤ x) : value r x = none := by
  cases hv : value r x with
  | none => rfl
  | some a =>
    have := value_some_iff.mp ⟨a, hv⟩
    omega

@[simp] lemma get_nil (x : Nat) : get ([] : List (Run α)) x = none := rfl

lemma get_cons (r : Run α) (runs : List (Run α)) (x : Nat) :
    get (r :: runs) x = (value r x).or (get runs x) := by
  unfold get
  rw [findSome?_cons]
  cases value r x <;> rfl

lemma get_append (runs rest : List (Run α)) (x : Nat) :
    get (runs ++ rest) x = (get runs x).or (get rest x) := by
  induction runs with
  | nil => rfl
  | cons r runs ih => rw [cons_append, get_cons, get_cons, ih, Option.or_assoc]

lemma get_none {runs : List (Run α)} (h : ∀ r ∈ runs, x < r.1 ∨ stop r ≤ x) :
    get runs x = none := by
  unfold get
  rw [findSome?_eq_none_iff]
  intro r hr
  exact value_none (h r hr)

lemma exists_of_get {runs : List (Run α)} {a : α} (h : get runs x = some a) :
    ∃ r ∈ runs, value r x = some a :=
  exists_of_findSome?_eq_some h

lemma value_append (start x : Nat) (u v : List α) :
    value (start, u ++ v) x = (value (start, u) x).or (value (start + u.length, v) x) := by
  unfold value
  by_cases hle : start ≤ x
  · rw [if_pos hle, if_pos hle, getElem?_append]
    by_cases hlt : x - start < u.length
    · rw [if_pos hlt, getElem?_eq_getElem hlt]
      rfl
    · have hu : u[x - start]? = none := getElem?_eq_none (by omega)
      rw [if_neg hlt, hu, if_pos (by omega), Option.none_or]
      congr 1
      omega
  · rw [if_neg hle, if_neg hle, if_neg (by omega)]
    rfl

@[simp] lemma total_nil : total ([] : List (Run α)) = 0 := rfl

@[simp] lemma total_cons (r : Run α) (runs : List (Run α)) :
    total (r :: runs) = r.2.length + total runs := rfl

@[simp] lemma total_append (runs rest : List (Run α)) :
    total (runs ++ rest) = total runs + total rest := by
  unfold total
  rw [map_append, sum_append]

namespace Canonical

lemma nil : Canonical ([] : List (Run α)) := ⟨fun _ h => (not_mem_nil h).elim, .nil⟩

variable {r : Run α} {runs rest : List (Run α)}

lemma cons_iff : Canonical (r :: runs) ↔ r.2 ≠ [] ∧ (∀ s ∈ runs, stop r < s.1) ∧
    Canonical runs := by
  constructor
  · intro h
    obtain ⟨hhead, htail⟩ := pairwise_cons.mp h.gaps
    exact ⟨h.nonempty r mem_cons_self, hhead, fun s hs => h.nonempty s (mem_cons_of_mem _ hs),
      htail⟩
  · intro h
    obtain ⟨hne, hhead, htail⟩ := h
    refine ⟨?_, pairwise_cons.mpr ⟨hhead, htail.gaps⟩⟩
    intro s hs
    rcases mem_cons.mp hs with hs | hs
    · rw [hs]
      exact hne
    · exact htail.nonempty s hs

lemma append_iff : Canonical (runs ++ rest) ↔
    Canonical runs ∧ Canonical rest ∧ ∀ r ∈ runs, ∀ s ∈ rest, stop r < s.1 := by
  constructor
  · intro h
    obtain ⟨hl, hr, hlr⟩ := pairwise_append.mp h.gaps
    exact ⟨⟨fun r hr => h.nonempty r (mem_append_left _ hr), hl⟩,
      ⟨fun r hr => h.nonempty r (mem_append_right _ hr), hr⟩, hlr⟩
  · intro h
    obtain ⟨hl, hr, hlr⟩ := h
    refine ⟨?_, pairwise_append.mpr ⟨hl.gaps, hr.gaps, hlr⟩⟩
    intro s hs
    rcases mem_append.mp hs with hs | hs
    · exact hl.nonempty s hs
    · exact hr.nonempty s hs

lemma stop_pos (h : Canonical runs) (hr : r ∈ runs) : r.1 < stop r := by
  have := length_pos_iff.mpr (h.nonempty r hr)
  unfold stop
  omega

theorem apart (h : Canonical runs) {s : Run α} (hr : r ∈ runs) (hs : s ∈ runs) :
    r = s ∨ stop r < s.1 ∨ stop s < r.1 := by
  induction runs with
  | nil => cases hr
  | cons t runs ih =>
    have htail := (cons_iff.mp h).2.1
    rcases mem_cons.mp hr with hrt | hrt
    · rcases mem_cons.mp hs with hst | hst
      · exact .inl (hrt.trans hst.symm)
      · rw [hrt]
        exact .inr (.inl (htail s hst))
    · rcases mem_cons.mp hs with hst | hst
      · rw [hst]
        exact .inr (.inr (htail r hrt))
      · exact ih (cons_iff.mp h).2.2 hrt hst

lemma get_tail_none (h : Canonical (r :: runs)) (hx : x ≤ stop r) : get runs x = none := by
  apply get_none
  intro s hs
  have := (cons_iff.mp h).2.1 s hs
  omega

lemma get_of_value (h : Canonical runs) {s : Run α} (hs : s ∈ runs) {a : α}
    (hv : value s x = some a) : get runs x = some a := by
  induction runs with
  | nil => cases hs
  | cons r runs ih =>
    rw [get_cons]
    rcases mem_cons.mp hs with hs | hs
    · rw [← hs, hv]
      rfl
    · have hin := value_some_iff.mp ⟨a, hv⟩
      have hgap := (cons_iff.mp h).2.1 s hs
      rw [value_none (.inr (by omega)), ih (cons_iff.mp h).2.2 hs]
      rfl

lemma covered_iff (h : Canonical runs) {a n : Nat} (hn : 0 < n) :
    (∀ i < n, ∃ b, get runs (a + i) = some b) ↔ ∃ r ∈ runs, r.1 ≤ a ∧ a + n ≤ stop r := by
  constructor
  · intro hall
    obtain ⟨b, hb⟩ := hall 0 hn
    obtain ⟨r, hr, hv⟩ := exists_of_get hb
    have hin := value_some_iff.mp ⟨b, hv⟩
    refine ⟨r, hr, by omega, ?_⟩
    by_contra hlt
    -- The key right behind the run lies in the gap.
    obtain ⟨c, hc⟩ := hall (stop r - a) (by omega)
    rw [show a + (stop r - a) = stop r by omega] at hc
    obtain ⟨s, hs, hvs⟩ := exists_of_get hc
    have hins := value_some_iff.mp ⟨c, hvs⟩
    rcases h.apart hr hs with heq | hlt' | hlt'
    · rw [heq] at hins
      omega
    · omega
    · omega
  · intro hcover i hi
    obtain ⟨r, hr, hle, hstop⟩ := hcover
    obtain ⟨b, hb⟩ := value_some_iff.mpr (show r.1 ≤ a + i ∧ a + i < stop r by omega)
    exact ⟨b, h.get_of_value hr hb⟩

theorem ext {l l' : List (Run α)} (hl : Canonical l) (hl' : Canonical l')
    (h : ∀ x, get l x = get l' x) : l = l' := by
  induction l generalizing l' with
  | nil =>
    cases l' with
    | nil => rfl
    | cons r' t' =>
      have hpos := hl'.stop_pos (r := r') mem_cons_self
      obtain ⟨a, ha⟩ := value_some_iff.mpr ⟨Nat.le_refl r'.1, hpos⟩
      have hg := hl'.get_of_value mem_cons_self ha
      rw [← h] at hg
      cases hg
  | cons r t ih =>
    cases l' with
    | nil =>
      have hpos := hl.stop_pos (r := r) mem_cons_self
      obtain ⟨a, ha⟩ := value_some_iff.mpr ⟨Nat.le_refl r.1, hpos⟩
      have hg := hl.get_of_value mem_cons_self ha
      rw [h] at hg
      cases hg
    | cons r' t' =>
      -- The first key of either map is the start of its head.
      have hfirst : ∀ {r r' : Run α} {t t' : List (Run α)}, Canonical (r :: t) →
          Canonical (r' :: t') → (∀ x, get (r :: t) x = get (r' :: t') x) → r'.1 ≤ r.1 := by
        intro r r' t t' hc hc' hget
        have hpos := hc.stop_pos (r := r) mem_cons_self
        obtain ⟨a, ha⟩ := value_some_iff.mpr ⟨Nat.le_refl r.1, hpos⟩
        have hg := hc.get_of_value mem_cons_self ha
        rw [hget] at hg
        obtain ⟨s, hs, hv⟩ := exists_of_get hg
        have hin := value_some_iff.mp ⟨a, hv⟩
        rcases mem_cons.mp hs with hs | hs
        · rw [← hs]
          exact hin.1
        · have hgap := (cons_iff.mp hc').2.1 s hs
          have hpos' := hc'.stop_pos (r := r') mem_cons_self
          omega
      have hstart : r.1 = r'.1 :=
        Nat.le_antisymm (hfirst hl' hl fun x => (h x).symm) (hfirst hl hl' h)
      -- Behind the shorter head there is a gap, where the longer one has a value.
      have hlength : ∀ {r r' : Run α} {t t' : List (Run α)}, Canonical (r :: t) →
          Canonical (r' :: t') →
          (∀ x, get (r :: t) x = get (r' :: t') x) → r.1 = r'.1 → r'.2.length ≤ r.2.length := by
        intro r r' t t' hc hc' hget hs
        by_contra hlt
        obtain ⟨a, ha⟩ :=
          value_some_iff.mpr (show r'.1 ≤ stop r ∧ stop r < stop r' by unfold stop; omega)
        have hg := hc'.get_of_value mem_cons_self ha
        rw [← hget, get_cons, value_none (.inr (Nat.le_refl _)),
          hc.get_tail_none (Nat.le_refl _)] at hg
        cases hg
      have hlen : r.2.length = r'.2.length :=
        Nat.le_antisymm (hlength hl' hl (fun x => (h x).symm) hstart.symm) (hlength hl hl' h hstart)
      have hvalues : ∀ x, x ≤ stop r → value r x = value r' x := by
        intro x hx
        have hx' := h x
        rw [get_cons, get_cons, hl.get_tail_none hx,
          hl'.get_tail_none (by unfold stop at *; omega)] at hx'
        simpa using hx'
      have hbytes : r.2 = r'.2 := by
        apply ext_getElem?
        intro i
        by_cases hi : i < r.2.length
        · have hv := hvalues (r.1 + i) (by unfold stop; omega)
          unfold value at hv
          rw [if_pos (by omega), if_pos (by omega), ← hstart, Nat.add_sub_cancel_left] at hv
          exact hv
        · rw [getElem?_eq_none (by omega), getElem?_eq_none (by omega)]
      have hhead : r = r' := Prod.ext hstart hbytes
      subst hhead
      congr 1
      apply ih (cons_iff.mp hl).2.2 (cons_iff.mp hl').2.2
      intro x
      by_cases hx : x ≤ stop r
      · rw [hl.get_tail_none hx, hl'.get_tail_none hx]
      · have hx' := h x
        rw [get_cons, get_cons, value_none (.inr (by omega))] at hx'
        simpa using hx'

end Canonical

end NeverD.Lib.Runs
