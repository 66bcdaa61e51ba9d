import Mathlib.Algebra.Order.BigOperators.Group.Finset

namespace NeverD.Lib.Sources
open List Function

variable {φ α : Type*}
variable {a : α}

/-- A source reaches a node along edges that enter no node of another source. -/
inductive Reaches (source : α → Option φ) (edge : α → α → Prop) (f : φ) : α → Prop
  | start {a : α} : source a = some f → Reaches source edge f a
  | step {a b : α} : Reaches source edge f a → edge a b → source b = none ∨ source b = some f →
      Reaches source edge f b

inductive Mark (φ : Type*)
  | free
  | owned (f : φ)
  | shared
deriving DecidableEq

namespace Mark

/-- The mark allows that the source reaches the node. -/
def Covers : Mark φ → φ → Prop
  | free, _ => False
  | owned g, f => g = f
  | shared, _ => True

def height : Mark φ → Nat
  | free => 2
  | owned _ => 1
  | shared => 0

variable [DecidableEq φ]

def merge (current incoming : Mark φ) : Mark φ :=
  if current = free then incoming else if current = incoming then current else shared

variable {incoming current : Mark φ}

lemma covers_merge_left {f : φ} (h : current.Covers f) : (current.merge incoming).Covers f := by
  unfold merge
  split
  next hfree =>
    rw [hfree] at h
    exact h.elim
  · split
    · exact h
    · trivial

lemma covers_merge_right {f : φ} (h : incoming.Covers f) : (current.merge incoming).Covers f := by
  unfold merge
  split
  · exact h
  · split
    next heq => exact heq ▸ h
    · trivial

lemma height_merge (h : current.merge incoming ≠ current) :
    (current.merge incoming).height < current.height := by
  unfold merge at h ⊢
  cases current with
  | free =>
    rw [if_pos rfl] at h ⊢
    cases incoming with
    | free => exact absurd rfl h
    | owned f => simp [height]
    | shared => simp [height]
  | owned f =>
    rw [if_neg (by simp)] at h ⊢
    split
    next heq =>
      rw [if_pos heq] at h
      exact absurd rfl h
    · simp [height]
  | shared =>
    rw [if_neg (by simp)] at h
    split at h
    · exact absurd rfl h
    · exact absurd rfl h

lemma merge_ne_free (h : incoming ≠ free) : current.merge incoming ≠ free := by
  unfold merge
  split
  · exact h
  · split
    · assumption
    · simp

end Mark

structure State (φ α : Type*) where
  marks : α → Mark φ
  work : List α

section

variable (source : α → Option φ) (next : α → List α)

/-- Nothing is marked but the nodes of the sources, and these wait in any order. -/
structure Start (s : State φ α) : Prop where
  marks : ∀ a, s.marks a = (source a).elim .free .owned
  work : ∀ a, a ∈ s.work ↔ source a ≠ none

/-- A mark says no more than the truth. -/
def Sound (source : α → Option φ) (edge : α → α → Prop) (a : α) : Mark φ → Prop
  | .free => True
  | .owned f => Reaches source edge f a
  | .shared => ∃ f g, f ≠ g ∧ Reaches source edge f a ∧ Reaches source edge g a

structure Inv (s : State φ α) : Prop where
  sound : ∀ a, Sound source (fun a b => b ∈ next a) a (s.marks a)
  start : ∀ a f, source a = some f → s.marks a = .owned f
  busy : ∀ a ∈ s.work, s.marks a ≠ .free
  /-- A node that does not wait has passed its mark on. -/
  passed : ∀ a, a ∉ s.work → ∀ b ∈ next a, source b = none → ∀ f, (s.marks a).Covers f →
    (s.marks b).Covers f

variable {source next} {edge : α → α → Prop} {s t : State φ α}

/-- What the arrival of a mark at some nodes does to the state. -/
structure Relaxed (source : α → Option φ) (edge : α → α → Prop) (incoming : Mark φ)
    (targets : List α) (s t : State φ α) : Prop where
  kept : ∀ x f, (s.marks x).Covers f → (t.marks x).Covers f
  work : ∀ x ∈ s.work, x ∈ t.work
  changed : ∀ x, t.marks x ≠ s.marks x → x ∈ t.work ∧ source x = none
  covered : ∀ b ∈ targets, source b = none → ∀ f, incoming.Covers f → (t.marks b).Covers f
  sound : (∀ x, Sound source edge x (s.marks x)) → ∀ x, Sound source edge x (t.marks x)
  busy : (∀ x ∈ s.work, s.marks x ≠ .free) → ∀ x ∈ t.work, t.marks x ≠ .free

lemma Relaxed.refl (s : State φ α) (incoming : Mark φ) : Relaxed source edge incoming [] s s where
  kept _ _ h := h
  work _ h := h
  changed _ h := absurd rfl h
  covered _ hb := absurd hb not_mem_nil
  sound h := h
  busy h := h

lemma Relaxed.trans {incoming : Mark φ} {targets more : List α} {u : State φ α}
    (hst : Relaxed source edge incoming targets s t) (htu : Relaxed source edge incoming more t u) :
    Relaxed source edge incoming (targets ++ more) s u where
  kept x f h := htu.kept x f (hst.kept x f h)
  work x h := htu.work x (hst.work x h)
  changed x h := by
    by_cases htx : u.marks x = t.marks x
    · have hs := hst.changed x (htx ▸ h)
      exact ⟨htu.work x hs.1, hs.2⟩
    · exact htu.changed x htx
  covered b hb hsource f hf := by
    rcases mem_append.mp hb with hb | hb
    · exact htu.kept b f (hst.covered b hb hsource f hf)
    · exact htu.covered b hb hsource f hf
  sound h := htu.sound (hst.sound h)
  busy h := htu.busy (hst.busy h)

namespace Inv

lemma of_start (h : Start source s) : Inv source next s where
  sound a := by
    rw [h.marks a]
    cases ha : source a with
    | none => trivial
    | some f => exact .start ha
  start a f ha := by
    rw [h.marks a, ha]
    rfl
  busy a ha := by
    obtain ⟨f, hf⟩ := Option.ne_none_iff_exists'.mp ((h.work a).mp ha)
    rw [h.marks a, hf]
    simp
  passed a ha b _ _ f hf := by
    have hnone : source a = none := not_not.mp fun hne => ha ((h.work a).mpr hne)
    rw [h.marks a, hnone] at hf
    exact hf.elim

variable (h : Inv source next s)
include h

variable (hwork : s.work = [])
include hwork

lemma covers {f : φ} (hreach : Reaches source (fun a b => b ∈ next a) f a) :
    (s.marks a).Covers f := by
  induction hreach with
  | start ha =>
    rw [h.start _ f ha]
    exact rfl
  | @step a b _ hedge hb ih =>
    rcases hb with hb | hb
    · exact h.passed a (by simp [hwork]) b hedge hb f ih
    · rw [h.start b f hb]
      exact rfl

theorem owned_iff {f : φ} : s.marks a = .owned f ↔ Reaches source (fun a b => b ∈ next a) f a ∧
      ∀ g, Reaches source (fun a b => b ∈ next a) g a → g = f := by
  have hsound := h.sound a
  constructor
  · intro hm
    rw [hm] at hsound
    refine ⟨hsound, ?_⟩
    intro g hg
    have hcovers := h.covers hwork hg
    rw [hm] at hcovers
    exact hcovers.symm
  · rintro ⟨hf, huniq⟩
    have hcovers := h.covers hwork hf
    cases hm : s.marks a with
    | free =>
      rw [hm] at hcovers
      exact hcovers.elim
    | owned g =>
      rw [hm] at hcovers
      exact congrArg Mark.owned hcovers
    | shared =>
      rw [hm] at hsound
      obtain ⟨g, g', hne, hg, hg'⟩ := hsound
      exact absurd ((huniq g hg).trans (huniq g' hg').symm) hne

lemma shared_iff : s.marks a = .shared ↔ ∃ f g, f ≠ g ∧ Reaches source (fun a b => b ∈ next a) f a ∧
      Reaches source (fun a b => b ∈ next a) g a := by
  have hsound := h.sound a
  constructor
  · intro hm
    rw [hm] at hsound
    exact hsound
  · rintro ⟨f, g, hne, hf, hg⟩
    have hcf := h.covers hwork hf
    have hcg := h.covers hwork hg
    cases hm : s.marks a with
    | free =>
      rw [hm] at hcf
      exact hcf.elim
    | owned k =>
      rw [hm] at hcf hcg
      exact absurd (hcf.symm.trans hcg) hne
    | shared => rfl

lemma free_iff : s.marks a = .free ↔ ∀ f, ¬Reaches source (fun a b => b ∈ next a) f a := by
  have hsound := h.sound a
  constructor
  · intro hm f hf
    have hcovers := h.covers hwork hf
    rw [hm] at hcovers
    exact hcovers
  · intro hnone
    cases hm : s.marks a with
    | free => rfl
    | owned f =>
      rw [hm] at hsound
      exact absurd hsound (hnone f)
    | shared =>
      rw [hm] at hsound
      obtain ⟨f, _, _, hf, _⟩ := hsound
      exact absurd hf (hnone f)

omit hwork

end Inv

end

variable [DecidableEq φ] [DecidableEq α] (source : α → Option φ) (next : α → List α)

def relax (incoming : Mark φ) (s : State φ α) (b : α) : State φ α :=
  if source b ≠ none then s
  else
    let merged := (s.marks b).merge incoming
    if merged = s.marks b then s
    else { marks := Function.update s.marks b merged, work := s.work ++ [b] }

def visit (s : State φ α) (a : α) (rest : List α) : State φ α :=
  (next a).foldl (relax source (s.marks a)) { s with work := rest }

/-- Any node of the work is taken out next. -/
def Step (s t : State φ α) : Prop := ∃ a rest, s.work.Perm (a :: rest) ∧
    t = visit source next s a rest

/-- The work in the order of a queue. -/
def drain : Nat → State φ α → State φ α
  | 0, s => s
  | fuel + 1, s =>
    match s.work with
    | [] => s
    | a :: rest => drain fuel (visit source next s a rest)

variable {source next} {edge : α → α → Prop} {s t : State φ α}

omit [DecidableEq α] in
lemma Sound.merge {b : α} {current incoming : Mark φ} (hcurrent : Sound source edge b current)
    (hincoming : Sound source edge a incoming) (hfree : incoming ≠ .free) (hedge : edge a b)
    (hb : source b = none) : Sound source edge b (current.merge incoming) := by
  have hstep : ∀ f, Reaches source edge f a → Reaches source edge f b :=
    fun f h => h.step hedge (.inl hb)
  have hmoved : Sound source edge b incoming := by
    cases incoming with
    | free => trivial
    | owned f => exact hstep f hincoming
    | shared =>
      obtain ⟨f, g, hne, hf, hg⟩ := hincoming
      exact ⟨f, g, hne, hstep f hf, hstep g hg⟩
  unfold Mark.merge
  split
  · exact hmoved
  · split
    · exact hcurrent
    next hfree' hne =>
      -- The marks differ and neither is free, so two sources are known.
      cases current with
      | free => exact absurd rfl hfree'
      | shared => exact hcurrent
      | owned f =>
        cases incoming with
        | free => exact absurd rfl hfree
        | shared => exact hmoved
        | owned g => exact ⟨f, g, fun h => hne (h ▸ rfl), hcurrent, hmoved⟩

lemma relax_relaxed {b : α} {incoming : Mark φ} (hsound : Sound source edge a incoming)
    (hfree : incoming ≠ .free)
    (hedge : edge a b) : Relaxed source edge incoming [b] s (relax source incoming s b) := by
  unfold relax
  split
  next hb =>
    refine { Relaxed.refl s incoming with covered := ?_ }
    intro x hx hnone
    rw [mem_singleton.mp hx] at hnone
    exact absurd hnone hb
  next hb =>
    have hnone : source b = none := not_not.mp hb
    dsimp only
    split
    next hsame =>
      refine { Relaxed.refl s incoming with covered := ?_ }
      intro x hx _ f hf
      rw [mem_singleton.mp hx, ← hsame]
      exact Mark.covers_merge_right hf
    next hne =>
      have hother : ∀ x, x ≠ b → Function.update s.marks b ((s.marks b).merge incoming) x =
          s.marks x :=
        fun x hx => update_of_ne hx ..
      have hself : Function.update s.marks b ((s.marks b).merge incoming) b =
          (s.marks b).merge incoming :=
        update_self ..
      constructor
      · intro x f hf
        show (Function.update s.marks b ((s.marks b).merge incoming) x).Covers f
        by_cases hx : x = b
        · rw [hx, hself]
          exact Mark.covers_merge_left (hx ▸ hf)
        · rw [hother x hx]
          exact hf
      · intro x hx
        exact mem_append_left _ hx
      · intro x hx
        by_cases hxb : x = b
        · exact ⟨mem_append_right _ (mem_singleton.mpr hxb), hxb ▸ hnone⟩
        · exact absurd (hother x hxb) hx
      · intro x hx _ f hf
        show (Function.update s.marks b ((s.marks b).merge incoming) x).Covers f
        rw [mem_singleton.mp hx, hself]
        exact Mark.covers_merge_right hf
      · intro h x
        show Sound source edge x (Function.update s.marks b ((s.marks b).merge incoming) x)
        by_cases hx : x = b
        · rw [hx, hself]
          exact (h b).merge hsound hfree hedge hnone
        · rw [hother x hx]
          exact h x
      · intro h x hx
        show Function.update s.marks b ((s.marks b).merge incoming) x ≠ .free
        by_cases hxb : x = b
        · rw [hxb, hself]
          exact Mark.merge_ne_free hfree
        · rw [hother x hxb]
          rcases mem_append.mp hx with hx | hx
          · exact h x hx
          · exact absurd (mem_singleton.mp hx) hxb

lemma foldl_relaxed {incoming : Mark φ} (hsound : Sound source edge a incoming)
    (hfree : incoming ≠ .free) : ∀ (targets : List α) (s : State φ α), (∀ b ∈ targets, edge a b) →
      Relaxed source edge incoming targets s (targets.foldl (relax source incoming) s) := by
  intro targets
  induction targets with
  | nil => exact fun s _ => .refl s incoming
  | cons b targets ih =>
    intro s hedges
    have hb : Relaxed source edge incoming [b] s (relax source incoming s b) :=
      relax_relaxed hsound hfree (hedges b mem_cons_self)
    exact hb.trans (ih _ fun c hc => hedges c (mem_cons_of_mem _ hc))

namespace Inv

lemma step (h : Inv source next s) (hstep : Step source next s t) : Inv source next t := by
  obtain ⟨a, rest, hperm, rfl⟩ := hstep
  have hmem : ∀ x, x ∈ s.work ↔ x = a ∨ x ∈ rest := fun x => by rw [hperm.mem_iff, mem_cons]
  have hbusy : s.marks a ≠ .free := h.busy a ((hmem a).mpr (.inl rfl))
  have hrelaxed : Relaxed source (fun a b => b ∈ next a) (s.marks a) (next a)
      { s with work := rest }
      (visit source next s a rest) := foldl_relaxed (h.sound a) hbusy (next a) _ fun b hb => hb
  constructor
  · exact hrelaxed.sound h.sound
  · intro x f hx
    have hsame : (visit source next s a rest).marks x = s.marks x := by
      apply not_not.mp
      intro hne
      rw [(hrelaxed.changed x hne).2] at hx
      cases hx
    rw [hsame]
    exact h.start x f hx
  · apply hrelaxed.busy
    intro x hx
    exact h.busy x ((hmem x).mpr (.inr hx))
  · intro x hx b hb hnone f hf
    have hsame : (visit source next s a rest).marks x = s.marks x :=
      not_not.mp fun hne => hx (hrelaxed.changed x hne).1
    rw [hsame] at hf
    by_cases hxa : x = a
    · exact hrelaxed.covered b (hxa ▸ hb) hnone f (hxa ▸ hf)
    · apply hrelaxed.kept
      apply h.passed x _ b hb hnone f hf
      intro hwork
      exact hx (hrelaxed.work x (((hmem x).mp hwork).resolve_left hxa))

lemma run (h : Inv source next s) (hrun : Relation.ReflTransGen (Step source next) s t) :
    Inv source next t := by
  induction hrun with
  | refl => exact h
  | tail _ hstep ih => exact ih.step hstep

end Inv

def weight (nodes : Finset α) (s : State φ α) : Nat :=
  s.work.length + ∑ a ∈ nodes, (s.marks a).height

variable {nodes : Finset α}

lemma weight_relax {incoming : Mark φ} {b : α} (hb : b ∈ nodes) :
    weight nodes (relax source incoming s b) ≤ weight nodes s := by
  unfold relax
  split
  · exact le_rfl
  · dsimp only
    split
    · exact le_rfl
    next hne =>
      have hlt := Mark.height_merge hne
      have hrest : ∑ a ∈ nodes.erase b,
          (Function.update s.marks b ((s.marks b).merge incoming) a).height =
          ∑ a ∈ nodes.erase b, (s.marks a).height := by
        apply Finset.sum_congr rfl
        intro x hx
        rw [update_of_ne (Finset.ne_of_mem_erase hx)]
      unfold weight
      dsimp only
      rw [length_append, length_singleton, ← Finset.add_sum_erase nodes _ hb, hrest, update_self,
        ← Finset.add_sum_erase nodes (fun a => (s.marks a).height) hb]
      omega

lemma weight_foldl {incoming : Mark φ} {targets : List α} (h : ∀ b ∈ targets, b ∈ nodes)
    (s : State φ α) : weight nodes (targets.foldl (relax source incoming) s) ≤ weight nodes s := by
  induction targets generalizing s with
  | nil => exact le_rfl
  | cons b targets ih =>
    exact (ih (fun c hc => h c (mem_cons_of_mem _ hc)) _).trans (weight_relax (h b mem_cons_self))

theorem weight_step (hnext : ∀ a, ∀ b ∈ next a, b ∈ nodes) (hstep : Step source next s t) :
    weight nodes t < weight nodes s := by
  obtain ⟨a, rest, hperm, rfl⟩ := hstep
  have hfold : weight nodes (visit source next s a rest) ≤ weight nodes { s with work := rest } :=
    weight_foldl (hnext a) _
  have hrest : weight nodes { s with work := rest } + 1 = weight nodes s := by
    unfold weight
    rw [hperm.length_eq, length_cons]
    exact add_right_comm ..
  omega

lemma drain_work (hnext : ∀ a, ∀ b ∈ next a, b ∈ nodes) {fuel : Nat} {s : State φ α}
    (hfuel : weight nodes s ≤ fuel) : (drain source next fuel s).work = [] := by
  induction fuel generalizing s with
  | zero =>
    apply eq_nil_of_length_eq_zero
    exact (Nat.add_eq_zero_iff.mp (Nat.le_zero.mp hfuel)).1
  | succ fuel ih =>
    unfold drain
    split
    · assumption
    next a rest hwork =>
      have hstep : Step source next s (visit source next s a rest) := ⟨a, rest, by rw [hwork], rfl⟩
      have := weight_step hnext hstep
      exact ih (by omega)

end NeverD.Lib.Sources
