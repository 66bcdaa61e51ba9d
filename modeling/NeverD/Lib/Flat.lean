import Mathlib.Logic.Basic

namespace NeverD.Lib

inductive Flat (α : Type*)
  | unknown
  | value (v : α)
  | invalid
deriving DecidableEq

namespace Flat

variable {ι α : Type*}

/-- The first state has less to say than the second. -/
def Le : Flat α → Flat α → Prop
  | unknown, _ => True
  | value v, t => t = value v ∨ t = invalid
  | invalid, t => t = invalid

lemma Le.refl : ∀ s : Flat α, Le s s
  | unknown => trivial
  | value _ => .inl rfl
  | invalid => rfl

lemma Le.trans {s t u : Flat α} (hst : Le s t) (htu : Le t u) : Le s u := by
  cases s with
  | unknown => trivial
  | value v =>
    rcases hst with rfl | rfl
    · exact htu
    · exact .inr htu
  | invalid =>
    cases hst
    exact htu

def meet [DecidableEq α] : Flat α → Flat α → Flat α
  | s, unknown => s
  | unknown, t => t
  | invalid, _ => invalid
  | value _, invalid => invalid
  | value v, value w => if v = w then value v else invalid

section

variable [DecidableEq α]

lemma le_meet_left (s t : Flat α) : Le s (s.meet t) := by
  cases s with
  | unknown => trivial
  | invalid => cases t <;> rfl
  | value v =>
    cases t with
    | unknown => exact .inl rfl
    | invalid => exact .inr rfl
    | value w =>
      show Le (.value v) (if v = w then .value v else .invalid)
      split
      · exact .inl rfl
      · exact .inr rfl

lemma le_meet_right (s t : Flat α) : Le t (s.meet t) := by
  cases t with
  | unknown => trivial
  | invalid => cases s <;> rfl
  | value w =>
    cases s with
    | unknown => exact .inl rfl
    | invalid => exact .inr rfl
    | value v =>
      show Le (.value w) (if v = w then .value v else .invalid)
      split
      next h => exact .inl (h ▸ rfl)
      · exact .inr rfl

lemma le_foldl_meet (l : List (Flat α)) (s : Flat α) :
    Le s (l.foldl meet s) ∧ ∀ t ∈ l, Le t (l.foldl meet s) := by
  induction l generalizing s with
  | nil => exact ⟨.refl s, by simp⟩
  | cons t l ih =>
    rw [List.foldl_cons]
    obtain ⟨hs, hl⟩ := ih (s.meet t)
    exact ⟨(le_meet_left s t).trans hs, List.forall_mem_cons.mpr ⟨(le_meet_right s t).trans hs, hl⟩⟩

end

def pass (f : α → Option α) : Flat α → Flat α
  | unknown => unknown
  | value v =>
    match f v with
    | some w => value w
    | none => invalid
  | invalid => invalid

inductive Rel {β : Type*} (R : α → β → Prop) : Flat α → Flat β → Prop
  | unknown : Rel R .unknown .unknown
  | value {v : α} {w : β} : R v w → Rel R (.value v) (.value w)
  | invalid : Rel R .invalid .invalid

lemma Rel.mono {β : Type*} {R Q : α → β → Prop} (hRQ : ∀ v w, R v w → Q v w) {s : Flat α}
    {t : Flat β} (h : Rel R s t) : Rel Q s t := by
  cases h with
  | unknown => exact .unknown
  | value hv => exact .value (hRQ _ _ hv)
  | invalid => exact .invalid

/-- How often a state can still change. -/
def height : Flat α → Nat
  | unknown => 2
  | value _ => 1
  | invalid => 0

lemma height_le : ∀ s : Flat α, s.height ≤ 2
  | unknown => Nat.le_refl 2
  | value _ => Nat.le_succ 1
  | invalid => Nat.zero_le 2

section

variable [DecidableEq α]

lemma height_meet_lt {s t : Flat α} (h : s.meet t ≠ s) : (s.meet t).height < s.height := by
  cases s with
  | unknown =>
    cases t with
    | unknown => exact absurd rfl h
    | value v => exact Nat.lt_succ_self 1
    | invalid => exact Nat.zero_lt_two
  | invalid => cases t <;> exact absurd rfl h
  | value v =>
    cases t with
    | unknown => exact absurd rfl h
    | invalid => exact Nat.zero_lt_one
    | value w =>
      unfold meet at h ⊢
      dsimp only at h ⊢
      split at h
      · exact absurd rfl h
      next hne =>
        rw [if_neg hne]
        exact Nat.zero_lt_one

lemma Rel.meet {β : Type*} [DecidableEq β] {R : α → β → Prop}
    (hR : ∀ v w v' w', R v w → R v' w' → (v = v' ↔ w = w')) {s s' : Flat α} {t t' : Flat β}
    (h : Rel R s t) (h' : Rel R s' t') : Rel R (s.meet s') (t.meet t') := by
  cases h' with
  | unknown => cases h <;> (constructor; try assumption)
  | invalid => cases h <;> constructor
  | @value v' w' hv' =>
    cases h with
    | unknown => exact .value hv'
    | invalid => exact .invalid
    | @value v w hv =>
      show Rel R (if v = v' then .value v else .invalid) (if w = w' then .value w else .invalid)
      by_cases hvv : v = v'
      · rw [if_pos hvv, if_pos ((hR v w v' w' hv hv').mp hvv)]
        exact .value hv
      · rw [if_neg hvv, if_neg fun hww => hvv ((hR v w v' w' hv hv').mpr hww)]
        exact .invalid

lemma Rel.meet_ne {β : Type*} [DecidableEq β] {R : α → β → Prop}
    (hR : ∀ v w v' w', R v w → R v' w' → (v = v' ↔ w = w')) {s s' : Flat α} {t t' : Flat β}
    (h : Rel R s t) (h' : Rel R s' t') : s.meet s' ≠ s ↔ t.meet t' ≠ t := by
  cases h' with
  | unknown => cases h <;> exact ⟨fun hne => absurd rfl hne, fun hne => absurd rfl hne⟩
  | invalid =>
    cases h with
    | unknown => exact ⟨fun _ heq => (by cases heq), fun _ heq => (by cases heq)⟩
    | invalid => exact ⟨fun hne => absurd rfl hne, fun hne => absurd rfl hne⟩
    | value _ => exact ⟨fun _ heq => (by cases heq), fun _ heq => (by cases heq)⟩
  | @value v' w' hv' =>
    cases h with
    | unknown => exact ⟨fun _ heq => (by cases heq), fun _ heq => (by cases heq)⟩
    | invalid => exact ⟨fun hne => absurd rfl hne, fun hne => absurd rfl hne⟩
    | @value v w hv =>
      show (if v = v' then Flat.value v else .invalid) ≠ .value v ↔
        (if w = w' then Flat.value w else .invalid) ≠ .value w
      by_cases hvv : v = v'
      · rw [if_pos hvv, if_pos ((hR v w v' w' hv hv').mp hvv)]
        exact ⟨fun hne => absurd rfl hne, fun hne => absurd rfl hne⟩
      · rw [if_neg hvv, if_neg fun hww => hvv ((hR v w v' w' hv hv').mpr hww)]
        exact ⟨fun _ heq => (by cases heq), fun _ heq => (by cases heq)⟩

end

lemma Le.invalid (s : Flat α) : Le s .invalid := by
  cases s with
  | unknown => trivial
  | value v => exact .inr rfl
  | invalid => rfl

structure System (ι α : Type*) where
  initial : ι → Flat α
  edge : ι → ι → (α → Option α) → Prop

namespace System

variable (S : System ι α)

inductive Val : ι → α → Prop
  | initial {n : ι} {v : α} : S.initial n = .value v → Val n v
  | edge {m n : ι} {f : α → Option α} {u v : α} : Val m u → S.edge m n f → f u = some v → Val n v

/-- The values that come to a node do not go together. -/
inductive Top : ι → Prop
  | initial {n : ι} : S.initial n = .invalid → Top n
  | conflict {n : ι} {v w : α} : S.Val n v → S.Val n w → v ≠ w → Top n
  | stuck {m n : ι} {f : α → Option α} {u : α} : S.Val m u → S.edge m n f → f u = none → Top n
  | edge {m n : ι} {f : α → Option α} : Top m → S.edge m n f → Top n

/-- The node is not determined: also when nothing comes to it, or to one that it depends on. -/
inductive Bad : ι → Prop
  | top {n : ι} : S.Top n → Bad n
  | silent {n : ι} : (∀ v, ¬S.Val n v) → Bad n
  | edge {m n : ι} {f : α → Option α} : Bad m → S.edge m n f → Bad n

variable {S}

lemma val_unique {n : ι} (h : ¬S.Bad n) {v w : α} (hv : S.Val n v) (hw : S.Val n w) : v = w :=
  Classical.not_not.mp fun hne => h (.top (.conflict hv hw hne))

/-- An assignment says nothing that is not derivable. -/
structure Justified (S : System ι α) (cur : ι → Flat α) (n : ι) : Prop where
  value : ∀ v, cur n = .value v → S.Val n v
  invalid : cur n = .invalid → S.Bad n

theorem justified_meet [DecidableEq α] {s t : Flat α} {n : ι} (hs : ∀ v, s = .value v → S.Val n v)
    (hs' : s = .invalid → S.Bad n) (ht : ∀ v, t = .value v → S.Val n v)
    (ht' : t = .invalid → S.Bad n) :
    (∀ v, s.meet t = .value v → S.Val n v) ∧ (s.meet t = .invalid → S.Bad n) := by
  cases t with
  | unknown => cases s <;> exact ⟨hs, hs'⟩
  | invalid =>
    have hbad := ht' rfl
    cases s <;> exact ⟨fun v h => (by cases h), fun _ => hbad⟩
  | value w =>
    cases s with
    | unknown => exact ⟨ht, ht'⟩
    | invalid => exact ⟨fun v h => (by cases h), fun _ => hs' rfl⟩
    | value v =>
      show (∀ u, (if v = w then Flat.value v else .invalid) = .value u → S.Val n u) ∧
        ((if v = w then Flat.value v else .invalid) = .invalid → S.Bad n)
      split
      · exact ⟨hs, hs'⟩
      next hne =>
        exact ⟨fun u h => (by cases h), fun _ => .top (.conflict (hs v rfl) (ht w rfl) hne)⟩

lemma justified_pass {cur : ι → Flat α} {m n : ι} {f : α → Option α} (h : Justified S cur m)
    (hedge : S.edge m n f) :
    (∀ v, pass f (cur m) = .value v → S.Val n v) ∧ (pass f (cur m) = .invalid → S.Bad n) := by
  cases hm : cur m with
  | unknown => exact ⟨fun v hv => (by cases hv), fun hv => (by cases hv)⟩
  | invalid => exact ⟨fun v hv => (by cases hv), fun _ => .edge (h.invalid hm) hedge⟩
  | value u =>
    have hu := h.value u hm
    unfold pass
    dsimp only
    cases hf : f u with
    | none => exact ⟨fun v hv => (by cases hv), fun _ => .top (.stuck hu hedge hf)⟩
    | some w => exact ⟨fun v hv => (by cases hv; exact .edge hu hedge hf), fun hv => (by cases hv)⟩

variable {p : ι → Prop} {cur : ι → Flat α}

/-- On a set of nodes that nothing outside leads into, an assignment takes up all that initial
states and edges say. -/
structure Closed (S : System ι α) (p : ι → Prop) (cur : ι → Flat α) : Prop where
  initial : ∀ n, p n → Le (S.initial n) (cur n)
  edge : ∀ m n f, p n → S.edge m n f → p m ∧ Le (pass f (cur m)) (cur n)

lemma Closed.val (h : Closed S p cur) {n : ι} {v : α} (hv : S.Val n v) (hn : p n) :
    Le (.value v) (cur n) := by
  induction hv with
  | @initial n v hi => exact hi ▸ h.initial n hn
  | @edge m n f u v _ hedge hf ih =>
    have hpass := (h.edge m n f hn hedge).2
    rcases ih (h.edge m n f hn hedge).1 with hm | hm
    · rw [hm] at hpass
      unfold pass at hpass
      dsimp only at hpass
      rw [hf] at hpass
      exact hpass
    · rw [hm] at hpass
      exact .inr hpass

lemma Closed.top (h : Closed S p cur) {n : ι} (ht : S.Top n) (hn : p n) : cur n = .invalid := by
  induction ht with
  | @initial n hi =>
    have hle := h.initial n hn
    rw [hi] at hle
    exact hle
  | @conflict n v w hv hw hne =>
    rcases h.val hv hn with hc | hc
    · rcases h.val hw hn with hc' | hc'
      · rw [hc] at hc'
        injection hc' with hvw
        exact absurd hvw hne
      · exact hc'
    · exact hc
  | @stuck m n f u hv hedge hf =>
    obtain ⟨hm, hpass⟩ := h.edge m n f hn hedge
    rcases h.val hv hm with hc | hc
    · rw [hc] at hpass
      unfold pass at hpass
      dsimp only at hpass
      rw [hf] at hpass
      exact hpass
    · rw [hc] at hpass
      exact hpass
  | @edge m n f _ hedge ih =>
    obtain ⟨hm, hpass⟩ := h.edge m n f hn hedge
    rw [ih hm] at hpass
    exact hpass

theorem Closed.silent (h : Closed S p cur) {n : ι} (hn : p n) (hc : cur n = .unknown) :
    ∀ v, ¬S.Val n v := by
  intro v hv
  rcases h.val hv hn with h' | h'
  · rw [hc] at h'
    cases h'
  · rw [hc] at h'
    cases h'

structure Solution (S : System ι α) (p : ι → Prop) (cur : ι → Flat α) : Prop where
  closed : Closed S p cur
  justified : ∀ n, p n → Justified S cur n
  decided : ∀ n, p n → cur n ≠ .unknown

lemma Solution.value_iff (h : Solution S p cur) {n : ι} (hn : p n) {v : α} :
    cur n = .value v ↔ S.Val n v ∧ ¬S.Bad n := by
  have hbad : ∀ {k}, S.Bad k → p k → cur k = .invalid := by
    intro k hk
    induction hk with
    | top ht => exact h.closed.top ht
    | @silent k hs =>
      intro hpk
      cases hc : cur k with
      | unknown => exact absurd hc (h.decided k hpk)
      | invalid => rfl
      | value v => exact absurd ((h.justified k hpk).value v hc) (hs v)
    | @edge m k f _ hedge ih =>
      intro hpk
      obtain ⟨hm, hpass⟩ := h.closed.edge m k f hpk hedge
      rw [ih hm] at hpass
      exact hpass
  constructor
  · intro hc
    refine ⟨(h.justified n hn).value v hc, ?_⟩
    intro hb
    rw [hbad hb hn] at hc
    cases hc
  · intro hv
    rcases h.closed.val hv.1 hn with hc | hc
    · exact hc
    · exact absurd ((h.justified n hn).invalid hc) hv.2

/-- Two systems say the same about a set of nodes that nothing outside leads into. -/
structure Agree (p : ι → Prop) (S T : System ι α) : Prop where
  initial : ∀ n, p n → S.initial n = T.initial n
  edge : ∀ m n f, p n → (S.edge m n f ↔ T.edge m n f)
  inside : ∀ m n f, p n → S.edge m n f → p m

lemma Agree.symm {T : System ι α} (h : Agree p S T) : Agree p T S where
  initial n hn := (h.initial n hn).symm
  edge m n f hn := (h.edge m n f hn).symm
  inside m n f hn hedge := h.inside m n f hn ((h.edge m n f hn).mpr hedge)

variable {T : System ι α}

variable (h : Agree p S T)
include h

lemma Agree.val {n : ι} {v : α} (hv : S.Val n v) (hn : p n) : T.Val n v := by
  induction hv with
  | @initial n v hi => exact .initial (h.initial n hn ▸ hi)
  | @edge m n f u v _ hedge hf ih =>
    exact .edge (ih (h.inside m n f hn hedge)) ((h.edge m n f hn).mp hedge) hf

lemma Agree.top {n : ι} (ht : S.Top n) (hn : p n) : T.Top n := by
  induction ht with
  | @initial n hi => exact .initial (h.initial n hn ▸ hi)
  | conflict hv hw hne => exact .conflict (h.val hv hn) (h.val hw hn) hne
  | @stuck m n f u hv hedge hf =>
    exact .stuck (h.val hv (h.inside m n f hn hedge)) ((h.edge m n f hn).mp hedge) hf
  | @edge m n f _ hedge ih =>
    exact .edge (ih (h.inside m n f hn hedge)) ((h.edge m n f hn).mp hedge)

lemma Agree.bad {n : ι} (hb : S.Bad n) (hn : p n) : T.Bad n := by
  induction hb with
  | top ht => exact .top (h.top ht hn)
  | silent hs => exact .silent fun v hv => hs v (h.symm.val hv hn)
  | @edge m n f _ hedge ih =>
    exact .edge (ih (h.inside m n f hn hedge)) ((h.edge m n f hn).mp hedge)

lemma Agree.justified {n : ι} (hj : Justified S cur n) (hn : p n) : Justified T cur n :=
  ⟨fun v hv => h.val (hj.value v hv) hn, fun hi => h.bad (hj.invalid hi) hn⟩

omit h

theorem Solution.of_agree (h : Solution S p cur) (hinitial : ∀ n, p n → S.initial n = T.initial n)
    (hedge : ∀ m n f, p n → (S.edge m n f ↔ T.edge m n f)) : Solution T p cur := by
  have hagree : Agree p S T := ⟨hinitial, hedge, fun m n f hn he => (h.closed.edge m n f hn he).1⟩
  refine ⟨⟨?_, ?_⟩, ?_, h.decided⟩
  · intro n hn
    rw [← hinitial n hn]
    exact h.closed.initial n hn
  · intro m n f hn he
    exact h.closed.edge m n f hn ((hedge m n f hn).mpr he)
  · intro n hn
    exact hagree.justified (h.justified n hn) hn

end System

end Flat

end NeverD.Lib
