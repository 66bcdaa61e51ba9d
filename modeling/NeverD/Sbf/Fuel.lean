import NeverD.Sbf.Structured
import Mathlib.Data.Finset.Card
import Mathlib.Data.Finset.Range

namespace NeverD.Sbf
open List Nat Option Structurer

def unemitted (p : SBFProgram) (s : Structurer) : Nat :=
  (Finset.range p.low.blocks.length \ s.emitted.toFinset).card

variable {p : SBFProgram} {s s' : Structurer} {tasks : List BuildTask} {stop : Option Nat}
  {allowed : Option Region} {link : SequenceLink} {depth : Nat} {tail : Option Nat}

lemma unemitted_le (p : SBFProgram) (s : Structurer) : unemitted p s ≤ p.low.blocks.length :=
  (Finset.card_le_card Finset.sdiff_subset).trans (Finset.card_range _).le

lemma unemitted_emit {node : StructuredNode} {index : Nat} {s₁ : Structurer} {block : Nat}
    (hm : s.markEmitted p block = some s₁)
    (ha : s₁.append link depth tail node = some (s', index)) : unemitted p s' < unemitted p s := by
  obtain ⟨-, hemitted, hnew, hlt⟩ := markEmitted_spec hm
  obtain ⟨r, -, hr⟩ := map_eq_some_iff.mp ha
  cases hr
  show (Finset.range p.low.blocks.length \ s₁.emitted.toFinset).card < unemitted p s
  rw [hemitted, List.toFinset_cons, Finset.sdiff_insert]
  apply Finset.card_erase_lt_of_mem
  rw [Finset.mem_sdiff, Finset.mem_range, List.mem_toFinset]
  exact ⟨hlt, hnew⟩

lemma buildLoop_emits {header loopRegion : Nat} {loop : Region}
    (h : buildLoop p s header stop allowed link depth tail loopRegion loop = some (s', tasks)) :
    unemitted p s' < unemitted p s ∧ tasks.length ≤ 3 := by
  unfold buildLoop at h
  split at h
  · rename_i terminator taken fall ht htaken hfall
    split at h
    · cases h
    dsimp only at h
    split at h
    · cases h
    by_cases hallow :
        allows p allowed (if p.high.loopContains loop taken then fall else taken) = true
    swap
    · rw [if_pos hallow] at h
      cases h
    rw [if_neg (not_not.mpr hallow)] at h
    simp only [bind_eq_bind, bind_eq_some_iff] at h
    obtain ⟨s₁, hmark, ⟨s₂, index⟩, happend, hres⟩ := h
    cases hres
    exact ⟨unemitted_emit hmark happend, Nat.le_refl _⟩
  · cases h

lemma buildIf_emits {header : Nat} {region : Region}
    (h : buildIf p s header stop allowed link depth tail region = some (s', tasks)) :
    unemitted p s' < unemitted p s ∧ tasks.length ≤ 3 := by
  unfold buildIf at h
  split at h
  · split at h
    · cases h
    split at h
    · cases h
    simp only [bind_eq_bind, bind_eq_some_iff] at h
    obtain ⟨s₁, hmark, ⟨s₂, index⟩, happend, hres⟩ := h
    cases hres
    refine ⟨unemitted_emit hmark happend, ?_⟩
    cases region.exitBlock with
    | none => exact le_succ _
    | some x => exact Nat.le_refl _
  · cases h

/-- A sequence ends. It is empty, or it emits a block and leaves at most three tasks. -/
theorem buildSequence_ends {fuel current : Nat} (hf : unemitted p s < fuel) :
    ∃ r, buildSequence p stop allowed link depth fuel current tail s = some r ∧
      ∀ s' tasks, r = some (s', tasks) → 3 * unemitted p s' + tasks.length ≤ 3 * unemitted p s := by
  induction fuel generalizing current tail s with
  | zero => exact absurd hf (Nat.not_lt_zero _)
  | succ fuel ih =>
    rw [buildSequence]
    split
    · refine ⟨_, rfl, ?_⟩
      rintro s' tasks ⟨⟩
      exact Nat.le_refl _
    split
    · exact ⟨_, rfl, fun _ _ hr => by cases hr⟩
    split
    · exact ⟨_, rfl, fun _ _ hr => by cases hr⟩
    split
    · refine ⟨_, rfl, fun s' tasks hr => ?_⟩
      obtain ⟨hlt, hlen⟩ := buildLoop_emits hr
      omega
    split
    · exact ⟨_, rfl, fun _ _ hr => by cases hr⟩
    split
    · split
      · exact ⟨_, rfl, fun _ _ hr => by cases hr⟩
      · refine ⟨_, rfl, fun s' tasks hr => ?_⟩
        obtain ⟨hlt, hlen⟩ := buildIf_emits hr
        omega
    split
    · exact ⟨_, rfl, fun _ _ hr => by cases hr⟩
    rename_i s₂ index hemit
    obtain ⟨s₁, hmark, happend⟩ := bind_eq_some_iff.mp hemit
    have hlt := unemitted_emit hmark happend
    split
    · refine ⟨_, rfl, fun s' tasks hr => ?_⟩
      split at hr
      · cases hr
        rw [length_nil]
        omega
      · cases hr
    split
    · have hrest : unemitted p s₂ < fuel := by omega
      refine (ih hrest).imp fun r hr => ⟨hr.1, fun s' tasks h => ?_⟩
      exact (hr.2 s' tasks h).trans (by omega)
    · exact ⟨_, rfl, fun _ _ hr => by cases hr⟩

lemma run_ends {fuel : Nat} {work : List BuildTask}
    (hf : 3 * unemitted p s + work.length ≤ fuel) : ∃ r, run p fuel s work = some r := by
  induction fuel generalizing s work with
  | zero =>
    cases work with
    | nil => exact ⟨_, rfl⟩
    | cons t work => exact absurd hf (by rw [length_cons]; omega)
  | succ fuel ih =>
    cases work with
    | nil => exact ⟨_, rfl⟩
    | cons t work =>
      rw [length_cons] at hf
      cases t with
      | validateLoop loopRegion =>
        rw [run]
        cases hv : s.validateLoop p loopRegion with
        | none => exact ⟨_, rfl⟩
        | some s₁ =>
          have hsame : unemitted p s₁ = unemitted p s := by
            unfold unemitted
            rw [(validateLoop_same hv).2]
          exact ih (by omega)
      | sequence current stop allowed link depth =>
        have hlt : unemitted p s < p.low.blocks.length + 1 :=
          Nat.lt_succ_of_le (unemitted_le p s)
        obtain ⟨r, hr, hle⟩ := buildSequence_ends hlt
        rw [run, hr]
        cases r with
        | none => exact ⟨_, rfl⟩
        | some e =>
          have := hle e.1 e.2 rfl
          exact ih (by rw [length_append]; omega)

/-- The structurer answers or refuses, for every program: its steps are bounded by its blocks. -/
theorem structurer_ends (p : SBFProgram) (entry : Nat) :
    ∃ r, run p (3 * p.low.blocks.length + 2) {} [.sequence entry none none .entry 0] = some r := by
  have hle := unemitted_le p {}
  exact run_ends (by rw [length_singleton]; omega)

end NeverD.Sbf
