import Mathlib.Algebra.Order.BigOperators.Group.Finset
import NeverD.Ir.ConstantPropagation

namespace NeverD.Ir
open List
open Option (some bind_eq_some_iff bind_eq_bind bind_some)

variable {v : MedVar} {budget : Nat} {inputs : List MedVar} {found : Known}

def Alike (a b : MedVar) : Prop := b.isConst = true ∧ a.constVal = b.constVal ∧ a.size = b.size

namespace Alike

variable {a b c : MedVar}

lemma refl (h : a.isConst = true) : Alike a a := ⟨h, rfl, rfl⟩

lemma trans (hab : Alike a b) (hbc : Alike b c) : Alike a c :=
  ⟨hbc.1, hab.2.1.trans hbc.2.1, hab.2.2.trans hbc.2.2⟩

lemma of_same (ha : a.isConst = true) (h : a.same b = true) : Alike a b := by
  have hkind : a.kind = .const := of_decide_eq_true ha
  unfold MedVar.same at h
  rw [if_pos hkind] at h
  split at h
  · cases h
  next hne =>
    have hb : b.kind = .const := (not_not.mp hne).symm.trans hkind
    have h := of_decide_eq_true h
    exact ⟨decide_eq_true hb, h.1, h.2.1⟩

end Alike

lemma isConst_viewOfConstant {view : NdOp} {viewOffset : BitVec 64} {input value : MedVar}
    {size : Nat}
    (h : viewOfConstant view viewOffset input size = some value) :
    value.isConst = true ∧ value.size = size := by
  unfold viewOfConstant at h
  split at h
  · cases h
  · cases h
    exact ⟨rfl, rfl⟩

variable {nodes : List ConstantNode} {states : List Known} {n : ConstantNode}

variable {i : Nat} {k : Known}

lemma definition_spec (h : definition nodes v = some i) :
    i < nodes.length ∧ (node nodes i).output.key = v.key := by
  obtain ⟨hlt, hkey, _⟩ := findIdx?_eq_some_iff_getElem.mp h
  refine ⟨hlt, ?_⟩
  unfold node
  rw [getD_eq_getElem?_getD, getElem?_eq_getElem hlt]
  exact of_decide_eq_true hkey

lemma meetInputs_pending (h : (meetInputs nodes states n inputs found).2.state = .pending) :
    found.state = .pending ∧ ∀ v ∈ inputs, (seen nodes states v).state = .pending := by
  induction inputs generalizing found with
  | nil => exact ⟨h, by simp⟩
  | cons v rest ih =>
    unfold meetInputs at h
    split at h
    · cases h
    · split at h
      · cases h
      next hseen =>
        have hrest := ih h
        exact ⟨hrest.1, forall_mem_cons.mpr ⟨hseen, hrest.2⟩⟩
      · split at h
        · cases h
        · split at h
          · cases h
          · cases (ih h).1

lemma meetInputs_constant (hseen : ∀ v ∈ inputs, (seen nodes states v).state = .constant →
      (seen nodes states v).value.isConst = true ∧ (seen nodes states v).value.size = v.size)
    (hfound : found.state = .constant → found.value.isConst = true ∧
    found.value.size = n.output.size)
    (h : (meetInputs nodes states n inputs found).2.state = .constant) :
    ((meetInputs nodes states n inputs found).2.value.isConst = true ∧
      (meetInputs nodes states n inputs found).2.value.size = n.output.size) ∧
      (found.state = .constant →
      Alike found.value (meetInputs nodes states n inputs found).2.value) ∧
      ∀ v ∈ inputs, (n.view = .copy → v.size = n.output.size) ∧
        ((seen nodes states v).state = .pending ∨
        (seen nodes states v).state = .constant ∧ ∃ value, viewed n (seen nodes states v).value =
          some value ∧ Alike value (meetInputs nodes states n inputs found).2.value) := by
  induction inputs generalizing found with
  | nil => exact ⟨hfound h, fun hc => .refl (hfound hc).1, by simp⟩
  | cons v rest ih =>
    have hrestSeen := fun w (hw : w ∈ rest) => hseen w (mem_cons_of_mem _ hw)
    unfold meetInputs at h ⊢
    split at h
    · cases h
    next hsize =>
      rw [if_neg hsize]
      have hcopy : n.view = .copy → v.size = n.output.size :=
        fun hc => not_not.mp fun hne => hsize ⟨hc, hne⟩
      split at h
      · cases h
      next hpending =>
        have hrest := ih hrestSeen hfound h
        exact ⟨hrest.1, hrest.2.1, forall_mem_cons.mpr ⟨⟨hcopy, .inl hpending⟩, hrest.2.2⟩⟩
      next hconstant =>
        split at h
        · cases h
        next value hvalue =>
          split at h
          · cases h
          next hsame =>
            rw [if_neg hsame]
            have hconst : value.isConst = true ∧ value.size = n.output.size := by
              unfold viewed at hvalue
              split at hvalue
              next hview =>
                have hv := hseen v mem_cons_self hconstant
                rw [← some.inj hvalue]
                exact ⟨hv.1, hv.2.trans (hcopy hview)⟩
              · exact isConst_viewOfConstant hvalue
            have hrest := ih hrestSeen (fun _ => hconst) h
            refine ⟨hrest.1, ?_, forall_mem_cons.mpr
              ⟨⟨hcopy, .inr ⟨hconstant, value, hvalue, hrest.2.1 rfl⟩⟩, hrest.2.2⟩⟩
            intro hc
            have hstill : found.value.same value = true := by
              cases hs : found.value.same value with
              | true => rfl
              | false => exact absurd ⟨hc, hs⟩ hsame
            exact (Alike.of_same (hfound hc).1 hstill).trans (hrest.2.1 rfl)

lemma meetInputs_cost (inputs : List MedVar) (found : Known) :
    (meetInputs nodes states n inputs found).1 ≤ inputs.length := by
  induction inputs generalizing found with
  | nil => exact le_rfl
  | cons v rest ih =>
    unfold meetInputs
    split
    · exact Nat.succ_le_succ (Nat.zero_le _)
    · split
      · exact Nat.succ_le_succ (Nat.zero_le _)
      · exact Nat.succ_le_succ (ih _)
      · split
        · exact Nat.succ_le_succ (Nat.zero_le _)
        · split
          · exact Nat.succ_le_succ (Nat.zero_le _)
          · exact Nat.succ_le_succ (ih _)

lemma meetInputs_congr {other : List Known}
    (h : ∀ v ∈ inputs, seen nodes other v = seen nodes states v) :
    meetInputs nodes other n inputs found = meetInputs nodes states n inputs found := by
  induction inputs generalizing found with
  | nil => rfl
  | cons v rest ih =>
    have hv := h v mem_cons_self
    have hrest : ∀ found, meetInputs nodes other n rest found =
        meetInputs nodes states n rest found :=
      fun _ => ih fun w hw => h w (mem_cons_of_mem _ hw)
    unfold meetInputs
    simp only [hv, hrest]

lemma mem_ordered : i ∈ ordered nodes ↔ i < nodes.length := by
  unfold ordered
  rw [mem_insertionSort, mem_range]

lemma mem_users {m : Nat} : m ∈ users nodes i ↔
    m < nodes.length ∧ ∃ v ∈ (node nodes m).inputs, v.isConst = false ∧
      definition nodes v = some i := by
  unfold users
  rw [mem_flatMap]
  constructor
  · rintro ⟨k, hk, hm⟩
    obtain ⟨v, hv, rfl⟩ := mem_map.mp hm
    obtain ⟨hmem, hdef⟩ := mem_filter.mp hv
    exact ⟨mem_ordered.mp hk, v, hmem, of_decide_eq_true hdef⟩
  · rintro ⟨hlt, v, hv, hdef⟩
    exact ⟨m, mem_ordered.mpr hlt, mem_map.mpr ⟨v, mem_filter.mpr ⟨hv, decide_eq_true hdef⟩, rfl⟩⟩

lemma mem_foldl_enqueue {work more : List Nat} : i ∈ more.foldl enqueue work ↔ i ∈ work ∨
    i ∈ more := by
  induction more generalizing work with
  | nil => simp
  | cons m more ih =>
    rw [foldl_cons, ih]
    unfold enqueue
    split
    next hm =>
      rw [mem_cons]
      constructor
      · exact fun h => h.imp_right .inr
      · rintro (h | h | h)
        · exact .inl h
        · exact .inl (h ▸ hm)
        · exact .inr h
    · rw [mem_append, mem_singleton, mem_cons, or_assoc]

lemma length_foldl_enqueue (more work : List Nat) :
    (more.foldl enqueue work).length ≤ work.length + more.length := by
  induction more generalizing work with
  | nil => exact le_rfl
  | cons m more ih =>
    rw [foldl_cons, length_cons]
    have h : (enqueue work m).length ≤ work.length + 1 := by
      unfold enqueue
      split
      · exact Nat.le_succ _
      · rw [length_append, length_singleton]
    exact (ih _).trans (by omega)

lemma known_set_self (h : i < states.length) : known (states.set i k) i = k := by
  unfold known
  rw [getD_eq_getElem?_getD, getElem?_set_self h]
  rfl

lemma known_set_ne {j : Nat} (h : i ≠ j) : known (states.set i k) j = known states j := by
  unfold known
  rw [getD_eq_getElem?_getD, getElem?_set_ne h, ← getD_eq_getElem?_getD]

lemma seen_congr {other : List Known}
    (h : ∀ i, v.isConst = false → definition nodes v = some i → known other i = known states i) :
    seen nodes other v = seen nodes states v := by
  unfold seen
  by_cases hv : v.isConst = true
  · rw [if_pos hv, if_pos hv]
  · rw [if_neg hv, if_neg hv]
    cases hdef : definition nodes v with
    | none => rfl
    | some i =>
      dsimp only
      rw [h i (Bool.eq_false_iff.mpr hv) hdef]

lemma seen_set {m : Nat} (hm : m < nodes.length) (huser : m ∉ users nodes i) :
    ∀ v ∈ (node nodes m).inputs, seen nodes (states.set i k) v = seen nodes states v := by
  intro v hv
  apply seen_congr
  intro j hconst hdef
  apply known_set_ne
  rintro rfl
  exact huser (mem_users.mpr ⟨hm, v, hv, hconst, hdef⟩)

def met (nodes : List ConstantNode) (states : List Known) (i : Nat) : Known :=
  (meetInputs nodes states (node nodes i) (node nodes i).inputs ⟨.pending, {}⟩).2

def Agrees (nodes : List ConstantNode) (states : List Known) (i : Nat) : Prop :=
  (met nodes states i).state = (known states i).state ∧
    ((known states i).state = .constant → Alike (known states i).value (met nodes states i).value)

lemma met_set {m : Nat} (hm : m < nodes.length) (huser : m ∉ users nodes i) :
    met nodes (states.set i k) m = met nodes states m := by
  unfold met
  rw [meetInputs_congr (seen_set hm huser)]

lemma Agrees.set {m : Nat} (h : Agrees nodes states m) (hm : m < nodes.length) (hne : i ≠ m)
    (huser : m ∉ users nodes i) : Agrees nodes (states.set i k) m := by
  unfold Agrees
  rw [met_set hm huser, known_set_ne hne]
  exact h

inductive Seeded (nodes : List ConstantNode) : Key → Prop
  | literal {i : Nat} {v : MedVar} : i < nodes.length → v ∈ (node nodes i).inputs →
      v.isConst = true → Seeded nodes (node nodes i).output.key
  | through {i : Nat} {v : MedVar} : i < nodes.length → v ∈ (node nodes i).inputs →
      v.isConst = false → Seeded nodes v.key → Seeded nodes (node nodes i).output.key

structure Invariant (nodes : List ConstantNode) (p : Propagation) : Prop where
  length : p.states.length = nodes.length
  inside : ∀ i ∈ p.work, i < nodes.length
  values : ∀ i < nodes.length, (known p.states i).state = .constant →
    (known p.states i).value.isConst = true ∧
    (known p.states i).value.size = (node nodes i).output.size
  start : ∀ i < nodes.length, (node nodes i).start = .varying → (known p.states i).state = .varying
  inputs : ∀ i < nodes.length, (node nodes i).inputs = [] → (known p.states i).state = .varying
  /-- A constant came from an operand, and nothing is forgotten. -/
  fed : ∀ i < nodes.length, (known p.states i).state = .constant →
    ∃ v ∈ (node nodes i).inputs, (seen nodes p.states v).state ≠ .pending
  seeded : ∀ i < nodes.length, (known p.states i).state = .constant →
    Seeded nodes (node nodes i).output.key
  settled : ∀ i < nodes.length, i ∈ p.work ∨ (known p.states i).state = .varying ∨
    Agrees nodes p.states i

def Knowledge.height : Knowledge → Nat
  | .pending => 2
  | .constant => 1
  | .varying => 0

lemma seen_constant {p : Propagation} (h : Invariant nodes p)
    (hv : (seen nodes p.states v).state = .constant) :
    (seen nodes p.states v).value.isConst = true ∧ (seen nodes p.states v).value.size = v.size := by
  unfold seen at hv ⊢
  split at hv
  next hconst =>
    rw [if_pos hconst]
    exact ⟨hconst, rfl⟩
  next hconst =>
    rw [if_neg hconst]
    split at hv
    · cases hv
    next i hdef =>
      split at hv
      · cases hv
      next hsize =>
        have hsize := not_not.mp hsize
        rw [if_neg (not_not.mpr hsize)]
        have hvalue := h.values i (definition_spec hdef).1 hv
        exact ⟨hvalue.1, hvalue.2.trans hsize⟩

lemma seeded_of_seen {p : Propagation} (h : Invariant nodes p)
    (hv : (seen nodes p.states v).state = .constant) (hvar : v.isConst = false) :
    Seeded nodes v.key := by
  unfold seen at hv
  rw [if_neg (by rw [hvar]; exact Bool.false_ne_true)] at hv
  split at hv
  · cases hv
  next i hdef =>
    obtain ⟨hi, hkey⟩ := definition_spec hdef
    split at hv
    · cases hv
    · exact hkey ▸ h.seeded i hi hv

lemma seeded_of_input {p : Propagation} (h : Invariant nodes p) (hi : i < nodes.length)
    (hmem : v ∈ (node nodes i).inputs) (hv : (seen nodes p.states v).state = .constant) :
    Seeded nodes (node nodes i).output.key := by
  cases hconst : v.isConst with
  | true => exact .literal hi hmem hconst
  | false => exact .through hi hmem hconst (seeded_of_seen h hv hconst)

lemma seen_set_ne_pending (hlen : states.length = nodes.length)
    (hk : k.state ≠ .pending) (h : (seen nodes states v).state ≠ .pending) :
    (seen nodes (states.set i k) v).state ≠ .pending := by
  by_cases hdef : v.isConst = false ∧ definition nodes v = some i
  · unfold seen
    rw [if_neg (by rw [hdef.1]; exact Bool.false_ne_true), hdef.2]
    dsimp only
    split
    · simp
    · rw [known_set_self (hlen ▸ (definition_spec hdef.2).1)]
      exact hk
  · rw [seen_congr fun j hconst hj => known_set_ne fun heq => hdef ⟨hconst, by rw [heq]; exact hj⟩]
    exact h

namespace Invariant

variable {p : Propagation} {i : Nat} {k : Known} {work : List Nat}

theorem update (h : Invariant nodes p) (hi : i < nodes.length)
    (hwork : ∀ j ∈ p.work, j = i ∨ j ∈ work)
    (hinside : ∀ j ∈ work, j < nodes.length)
    (hheight : k.state.height < (known p.states i).state.height)
    (hvalue : k.state = .constant → k.value.isConst = true ∧
    k.value.size = (node nodes i).output.size)
    (hfed : k.state = .constant → ∃ v ∈ (node nodes i).inputs, (seen nodes p.states v).state =
    .constant) (hagrees : k.state = .varying ∨ met nodes p.states i = k) (budget : Nat) :
    Invariant nodes { states := p.states.set i k, work := (users nodes i).foldl enqueue work,
                      budget := budget } := by
  have hlt : i < p.states.length := h.length ▸ hi
  have hpending : k.state ≠ .pending := by
    intro hk
    rw [hk] at hheight
    cases hs : (known p.states i).state with
    | pending => rw [hs] at hheight; exact lt_irrefl _ hheight
    | constant | varying => rw [hs] at hheight; exact absurd hheight (by decide)
  have hvarying : (known p.states i).state = .varying → k.state = .varying := by
    intro hs
    rw [hs] at hheight
    exact absurd hheight (Nat.not_lt_zero _)
  constructor
  · exact (length_set ..).trans h.length
  · intro j hj
    rcases mem_foldl_enqueue.mp hj with hj | hj
    · exact hinside j hj
    · exact (mem_users.mp hj).1
  · intro j hj hc
    by_cases hij : i = j
    · subst hij
      rw [known_set_self hlt] at hc ⊢
      exact hvalue hc
    · rw [known_set_ne hij] at hc ⊢
      exact h.values j hj hc
  · intro j hj hs
    by_cases hij : i = j
    · subst hij
      rw [known_set_self hlt]
      exact hvarying (h.start i hi hs)
    · rw [known_set_ne hij]
      exact h.start j hj hs
  · intro j hj hs
    by_cases hij : i = j
    · subst hij
      rw [known_set_self hlt]
      exact hvarying (h.inputs i hi hs)
    · rw [known_set_ne hij]
      exact h.inputs j hj hs
  · intro j hj hc
    have hold : ∃ v ∈ (node nodes j).inputs, (seen nodes p.states v).state ≠ .pending := by
      by_cases hij : i = j
      · subst hij
        rw [known_set_self hlt] at hc
        obtain ⟨v, hv, hseen⟩ := hfed hc
        exact ⟨v, hv, by simp [hseen]⟩
      · rw [known_set_ne hij] at hc
        exact h.fed j hj hc
    obtain ⟨v, hv, hseen⟩ := hold
    exact ⟨v, hv, seen_set_ne_pending h.length hpending hseen⟩
  · intro j hj hc
    by_cases hij : i = j
    · subst hij
      rw [known_set_self hlt] at hc
      obtain ⟨v, hv, hseen⟩ := hfed hc
      exact seeded_of_input h hi hv hseen
    · rw [known_set_ne hij] at hc
      exact h.seeded j hj hc
  · intro j hj
    by_cases huser : j ∈ users nodes i
    · exact .inl (mem_foldl_enqueue.mpr (.inr huser))
    · by_cases hij : i = j
      · subst hij
        refine .inr ?_
        unfold Agrees
        rw [known_set_self hlt, met_set hj huser]
        rcases hagrees with hagrees | hagrees
        · exact .inl hagrees
        · exact .inr ⟨congrArg Known.state hagrees,
            fun hc => by rw [hagrees]; exact .refl (hvalue hc).1⟩
      · rcases h.settled j hj with hs | hs | hs
        · exact .inl (mem_foldl_enqueue.mpr (.inl ((hwork j hs).resolve_left (Ne.symm hij))))
        · refine .inr (.inl ?_)
          rw [known_set_ne hij]
          exact hs
        · exact .inr (.inr (hs.set hj hij huser))

end Invariant

/-- The nodes that wait, and those that the changes which are still possible can bring back. -/
def potential (nodes : List ConstantNode) (p : Propagation) : Nat :=
  p.work.length + ∑ i ∈ Finset.range nodes.length,
    (known p.states i).state.height * (users nodes i).length

variable {p : Propagation}

lemma potential_update {i : Nat} {k : Known} (hi : i < nodes.length)
    (hlen : p.states.length = nodes.length)
    (hheight : k.state.height < (known p.states i).state.height)
    (work : List Nat) (budget budget' : Nat) :
    potential nodes { states := p.states.set i k, work := (users nodes i).foldl enqueue work,
                      budget := budget } ≤
      potential nodes { p with work := work, budget := budget' } := by
  have hmem := Finset.mem_range.mpr hi
  have hrest : ∑ j ∈ (Finset.range nodes.length).erase i,
      (known (p.states.set i k) j).state.height * (users nodes j).length =
      ∑ j ∈ (Finset.range nodes.length).erase i,
        (known p.states j).state.height * (users nodes j).length := by
    apply Finset.sum_congr rfl
    intro j hj
    rw [known_set_ne (Finset.ne_of_mem_erase hj).symm]
  have hpush := length_foldl_enqueue (users nodes i) work
  have hmul : (k.state.height + 1) * (users nodes i).length ≤
      (known p.states i).state.height * (users nodes i).length := Nat.mul_le_mul_right _ hheight
  unfold potential
  dsimp only
  rw [← Finset.add_sum_erase _ _ hmem, hrest, known_set_self (hlen ▸ hi),
    ← Finset.add_sum_erase _ (fun j => (known p.states j).state.height * (users nodes j).length)
    hmem]
  rw [Nat.succ_mul] at hmul
  omega

lemma spend_eq_some {cost left : Nat} (h : spend budget cost = some left) :
    left + cost = budget := by
  unfold spend at h
  split at h
  · injection h with h
    omega
  · cases h

structure Visited (nodes : List ConstantNode) (p q : Propagation) (n : Nat) : Prop where
  invariant : Invariant nodes q
  potential : potential nodes q < potential nodes p
  cost : p.budget ≤ q.budget + (1 + (node nodes n).inputs.length)
  budget : q.budget < p.budget
  decided : (∀ i < nodes.length, (known p.states i).state ≠ .pending) →
    ∀ i < nodes.length, (known q.states i).state ≠ .pending

lemma meetNode_snd (nodes : List ConstantNode) (states : List Known) (i : Nat) :
    (meetNode nodes states i).2 = met nodes states i ∨
    (known states i).state = .constant ∧ (meetNode nodes states i).2.state = .varying := by
  unfold meetNode
  dsimp only
  split
  next h => exact .inr ⟨h.1, rfl⟩
  · exact .inl rfl

lemma meetNode_fst (nodes : List ConstantNode) (states : List Known) (i : Nat) :
    (meetNode nodes states i).1 ≤ (node nodes i).inputs.length := by
  unfold meetNode
  dsimp only
  split
  · exact meetInputs_cost _ _
  · exact meetInputs_cost _ _

lemma Invariant.met_spec (h : Invariant nodes p) {i : Nat} (hi : i < nodes.length) :
    ((met nodes p.states i).state = .constant →
      (met nodes p.states i).value.isConst = true ∧
      (met nodes p.states i).value.size = (node nodes i).output.size) ∧
      ((met nodes p.states i).state = .pending → (known p.states i).state ≠ .constant ∧
        ∀ v ∈ (node nodes i).inputs, (seen nodes p.states v).state = .pending) := by
  constructor
  · intro hc
    exact (meetInputs_constant (fun v _ hv => seen_constant h hv) (fun hk => by cases hk) hc).1
  · intro hp
    have hall := (meetInputs_pending hp).2
    refine ⟨?_, hall⟩
    intro hc
    obtain ⟨v, hv, hne⟩ := h.fed i hi hc
    exact hne (hall v hv)

lemma met_fed {i : Nat} (hc : (met nodes states i).state = .constant) :
    ∃ v ∈ (node nodes i).inputs, (seen nodes states v).state = .constant := by
  by_contra hno
  have hall : ∀ v ∈ (node nodes i).inputs, (seen nodes states v).state ≠ .constant :=
    fun v hv hc => hno ⟨v, hv, hc⟩
  have hnone : ∀ (inputs : List MedVar) (found : Known),
      (∀ v ∈ inputs, (seen nodes states v).state ≠ .constant) →
      (meetInputs nodes states (node nodes i) inputs found).2.state = .constant →
        found.state = .constant := by
    intro inputs
    induction inputs with
    | nil => exact fun _ _ h => h
    | cons v rest ih =>
      intro found hall h
      unfold meetInputs at h
      split at h
      · cases h
      · split at h
        · cases h
        · exact ih found (fun w hw => hall w (mem_cons_of_mem _ hw)) h
        next hseen => exact absurd hseen (hall v mem_cons_self)
  cases hnone _ _ hall hc

lemma visitNode_spec {q : Propagation} {n : Nat} {rest : List Nat} (h : Invariant nodes p)
    (hwork : p.work = n :: rest)
    (hv : visitNode nodes p n rest = some q) : Visited nodes p q n := by
  have hn : n < nodes.length := h.inside n (hwork ▸ mem_cons_self)
  have hsub : ∀ j ∈ p.work, j = n ∨ j ∈ rest := fun j hj => mem_cons.mp (hwork ▸ hj)
  have hinside : ∀ j ∈ rest, j < nodes.length :=
    fun j hj => h.inside j (hwork ▸ mem_cons_of_mem _ hj)
  have hpop : ∀ budget, potential nodes { p with work := rest, budget := budget } + 1 =
      potential nodes p := by
    intro budget
    unfold potential
    dsimp only
    rw [hwork, length_cons]
    omega
  -- A node that stays as it was is settled without the worklist.
  have hstay : ∀ budget, (known p.states n).state = .varying ∨ Agrees nodes p.states n →
      Invariant nodes { p with work := rest, budget := budget } := by
    intro budget hsettled
    refine { h with inside := hinside, settled := ?_ }
    intro i hi
    rcases h.settled i hi with hs | hs
    · rcases hsub i hs with rfl | hs
      · exact .inr hsettled
      · exact .inl hs
    · exact .inr hs
  obtain ⟨budget, hspend, hv⟩ := bind_eq_some_iff.mp hv
  have hbudget := spend_eq_some hspend
  split at hv
  next hvarying =>
    cases hv
    exact ⟨hstay _ (.inl hvarying), by
      have := hpop budget; omega, by dsimp only; omega, by dsimp only; omega, fun hd => hd⟩
  next hvarying =>
    obtain ⟨left, hspend', hv⟩ := bind_eq_some_iff.mp hv
    have hbudget' := spend_eq_some hspend'
    have hcost := meetNode_fst nodes p.states n
    have hmet := h.met_spec hn
    have hinputs : (node nodes n).inputs ≠ [] := fun hnil => hvarying (h.inputs n hn hnil)
    split at hv
    next hsame =>
      cases hv
      refine ⟨hstay _ (.inr ?_), by
        have := hpop left; omega, by dsimp only; omega, by dsimp only; omega, fun hd => hd⟩
      rcases meetNode_snd nodes p.states n with heq | ⟨_, hs⟩
      · rw [heq] at hsame
        refine ⟨hsame, ?_⟩
        intro hc
        have hsame' : (known p.states n).value.same (met nodes p.states n).value = true := by
          cases hs : (known p.states n).value.same (met nodes p.states n).value with
          | true => rfl
          | false =>
            have hnode : meetNode nodes p.states n = ((meetNode nodes p.states n).1,
                met nodes p.states n) :=
              Prod.ext rfl heq
            unfold meetNode at hnode
            rw [if_pos ⟨hc, hsame.trans hc, hs⟩] at hnode
            have := congrArg (fun x => x.2.state) hnode
            rw [hsame, hc] at this
            cases this
        exact .of_same (h.values n hn hc).1 hsame'
      · exact absurd (hsame ▸ hs) hvarying
    next hchange =>
      cases hv
      have hstates : (meetNode nodes p.states n).2.state = .varying ∨
          (meetNode nodes p.states n).2 = met nodes p.states n :=
        (meetNode_snd nodes p.states n).symm.imp_left And.right
      have hheight : (meetNode nodes p.states n).2.state.height <
          (known p.states n).state.height := by
        rcases hstates with hs | hs
        · rw [hs]
          cases hk : (known p.states n).state with
          | pending => decide
          | constant => decide
          | varying => exact absurd hk hvarying
        · rw [hs] at hchange ⊢
          cases hk : (known p.states n).state with
          | varying => exact absurd hk hvarying
          | pending =>
            cases hm : (met nodes p.states n).state with
            | pending => exact absurd (hm.trans hk.symm) hchange
            | constant => decide
            | varying => decide
          | constant =>
            cases hm : (met nodes p.states n).state with
            | pending => exact absurd hk (hmet.2 hm).1
            | constant => exact absurd (hm.trans hk.symm) hchange
            | varying => decide
      have hagrees : (meetNode nodes p.states n).2.state = .varying ∨
          met nodes p.states n = (meetNode nodes p.states n).2 :=
        hstates.imp_right Eq.symm
      have hconstant : (meetNode nodes p.states n).2.state = .constant →
          (meetNode nodes p.states n).2 = met nodes p.states n := by
        intro hc
        rcases hstates with hs | hs
        · rw [hs] at hc
          cases hc
        · exact hs
      refine ⟨h.update hn hsub hinside hheight ?_ ?_ hagrees left,
        ?_, by dsimp only; omega, by dsimp only; omega, ?_⟩
      · intro hc
        have heq := hconstant hc
        rw [heq] at hc ⊢
        exact hmet.1 hc
      · intro hc
        have heq := hconstant hc
        rw [heq] at hc
        exact met_fed hc
      · have := potential_update hn h.length hheight rest left budget
        have := hpop budget
        omega
      · intro hd i hi
        by_cases hin : n = i
        · subst hin
          rw [known_set_self (h.length ▸ hn)]
          intro hp
          have hs : (meetNode nodes p.states n).2 = met nodes p.states n := by
            rcases hstates with hs | hs
            · rw [hs] at hp
              cases hp
            · exact hs
          rw [hs] at hp
          obtain ⟨v, hv⟩ := exists_mem_of_ne_nil _ hinputs
          have hseen := (hmet.2 hp).2 v hv
          unfold seen at hseen
          split at hseen
          · cases hseen
          · split at hseen
            · cases hseen
            next j hdef =>
              split at hseen
              · cases hseen
              · exact hd j (definition_spec hdef).1 hseen
        · rw [known_set_ne hin]
          exact hd i hi

lemma drain_spec {fuel : Nat} {q : Propagation} (h : Invariant nodes p)
    (hd : drain nodes fuel p = some q) :
    Invariant nodes q ∧ q.work = [] ∧ ((∀ i < nodes.length, (known p.states i).state ≠ .pending) →
      ∀ i < nodes.length, (known q.states i).state ≠ .pending) := by
  induction fuel generalizing p with
  | zero =>
    unfold drain at hd
    split at hd
    next hwork =>
      cases hd
      exact ⟨h, hwork, fun hdec => hdec⟩
    · cases hd
  | succ fuel ih =>
    unfold drain at hd
    split at hd
    next hwork =>
      cases hd
      exact ⟨h, hwork, fun hdec => hdec⟩
    next n rest hwork =>
      obtain ⟨r, hr, hd⟩ := bind_eq_some_iff.mp hd
      have hvisit := visitNode_spec h hwork hr
      have hrest := ih hvisit.invariant hd
      exact ⟨hrest.1, hrest.2.1, fun hdec => hrest.2.2 (hvisit.decided hdec)⟩

/-- The budget pays for every visit that can still come, with something left over. -/
def Affords (nodes : List ConstantNode) (most extra : Nat) (p : Propagation) : Prop :=
  potential nodes p * (1 + most) + extra ≤ p.budget

lemma visitNode_exists {n : Nat} {rest : List Nat}
    (hbudget : 1 + (node nodes n).inputs.length ≤ p.budget) :
    ∃ q, visitNode nodes p n rest = some q := by
  have hcost := meetNode_fst nodes p.states n
  unfold visitNode spend
  rw [if_pos (by omega), bind_eq_bind, bind_some]
  split
  · exact ⟨_, rfl⟩
  · dsimp only
    rw [if_pos (by omega), bind_some]
    split
    · exact ⟨_, rfl⟩
    · exact ⟨_, rfl⟩

lemma drain_exists {most extra fuel : Nat} (h : Invariant nodes p)
    (hmost : ∀ i < nodes.length, (node nodes i).inputs.length ≤ most)
    (hafford : Affords nodes most extra p)
    (hfuel : potential nodes p ≤ fuel) : ∃ q, drain nodes fuel p = some q ∧
    Affords nodes most extra q := by
  induction fuel generalizing p with
  | zero =>
    have hwork : p.work = [] := by
      apply eq_nil_of_length_eq_zero
      unfold potential at hfuel
      omega
    exact ⟨p, if_pos hwork, hafford⟩
  | succ fuel ih =>
    unfold drain
    cases hwork : p.work with
    | nil => exact ⟨p, rfl, hafford⟩
    | cons n rest =>
      have hn := hmost n (h.inside n (hwork ▸ mem_cons_self))
      have hpositive : 0 < potential nodes p := by
        unfold potential
        rw [hwork, length_cons]
        omega
      unfold Affords at hafford
      have hone : 1 * (1 + most) ≤ potential nodes p * (1 + most) :=
        Nat.mul_le_mul_right _ hpositive
      obtain ⟨r, hr⟩ : ∃ r, visitNode nodes p n rest = some r := visitNode_exists (by omega)
      have hvisit := visitNode_spec h hwork hr
      have hless : (potential nodes r + 1) * (1 + most) ≤ potential nodes p * (1 + most) :=
        Nat.mul_le_mul_right _ hvisit.potential
      have hcost := hvisit.cost
      rw [Nat.succ_mul] at hless
      dsimp only
      rw [hr, bind_some]
      exact ih hvisit.invariant (by unfold Affords; omega) (by have := hvisit.potential; omega)

lemma closePending_spec (h : Invariant nodes p) {i : Nat} (hi : i < nodes.length) :
    Invariant nodes (closePending nodes p i) ∧
      potential nodes (closePending nodes p i) ≤ potential nodes p ∧
      (closePending nodes p i).budget = p.budget ∧ (known (closePending nodes p i).states i).state ≠
      .pending ∧
      ∀ j, (known p.states j).state ≠ .pending → (known (closePending nodes p i).states j).state ≠
      .pending := by
  unfold closePending
  split
  next hpending =>
    have hheight : (Knowledge.varying).height < (known p.states i).state.height := by
      rw [hpending]
      decide
    have hset : (known (p.states.set i ⟨.varying, (known p.states i).value⟩) i).state =
        .varying := by
      rw [known_set_self (h.length ▸ hi)]
    refine ⟨?_, ?_, rfl, ?_, ?_⟩
    · exact h.update hi (fun j hj => .inr hj) h.inside hheight (fun hc => by cases hc)
        (fun hc => by cases hc) (.inl rfl) p.budget
    · exact potential_update hi h.length hheight p.work p.budget p.budget
    · rw [hset]
      simp
    · intro j hj
      by_cases hij : i = j
      · rw [← hij, hset]
        simp
      · rw [known_set_ne hij]
        exact hj
  next hpending => exact ⟨h, le_rfl, rfl, hpending, fun j hj => hj⟩

lemma foldl_closePending {l : List Nat} (hl : ∀ i ∈ l, i < nodes.length) (h : Invariant nodes p) :
    Invariant nodes (l.foldl (closePending nodes) p) ∧
      potential nodes (l.foldl (closePending nodes) p) ≤ potential nodes p ∧
      (l.foldl (closePending nodes) p).budget = p.budget ∧
      (∀ i ∈ l, (known (l.foldl (closePending nodes) p).states i).state ≠ .pending) ∧
      ∀ j, (known p.states j).state ≠ .pending →
      (known (l.foldl (closePending nodes) p).states j).state ≠ .pending := by
  induction l generalizing p with
  | nil => exact ⟨h, le_rfl, rfl, by simp, fun _ hj => hj⟩
  | cons i l ih =>
    obtain ⟨hinv, hpot, hbudget, hi, hkept⟩ := closePending_spec h (hl i mem_cons_self)
    obtain ⟨hinv', hpot', hbudget', hl', hkept'⟩ :=
      ih (fun j hj => hl j (mem_cons_of_mem _ hj)) hinv
    rw [foldl_cons]
    exact ⟨hinv', hpot'.trans hpot, hbudget'.trans hbudget, forall_mem_cons.mpr ⟨hkept' i hi, hl'⟩,
      fun j hj => hkept' j (hkept j hj)⟩

/-- A node starts opaque, or pending with operands to learn from. -/
def WellStarted (nodes : List ConstantNode) : Prop :=
  ∀ n ∈ nodes, n.start = .varying ∨ (n.start = .pending ∧ n.inputs ≠ [])

lemma known_startStates {i : Nat} (hi : i < nodes.length) :
    known (startStates nodes) i = ⟨(node nodes i).start, {}⟩ ∧ node nodes i ∈ nodes := by
  unfold known startStates node
  rw [getD_eq_getElem?_getD, getElem?_map, getD_eq_getElem?_getD, getElem?_eq_getElem hi]
  exact ⟨rfl, getElem_mem hi⟩

lemma start_invariant (h : WellStarted nodes) (budget : Nat) :
    Invariant nodes { states := startStates nodes, work := ordered nodes, budget := budget } := by
  have hnot : ∀ i < nodes.length, (known (startStates nodes) i).state ≠ .constant := by
    intro i hi hc
    obtain ⟨hk, hmem⟩ := known_startStates hi
    rw [hk] at hc
    rcases h _ hmem with hs | hs
    · rw [hs] at hc
      cases hc
    · rw [hs.1] at hc
      cases hc
  constructor
  · exact length_map ..
  · exact fun i hi => mem_ordered.mp hi
  · exact fun i hi hc => absurd hc (hnot i hi)
  · intro i hi hs
    rw [(known_startStates hi).1]
    exact hs
  · intro i hi hnil
    obtain ⟨hk, hmem⟩ := known_startStates hi
    rw [hk]
    exact (h _ hmem).resolve_right fun hs => hs.2 hnil
  · exact fun i hi hc => absurd hc (hnot i hi)
  · exact fun i hi hc => absurd hc (hnot i hi)
  · exact fun i hi => .inl (mem_ordered.mpr hi)

lemma solve_spec (h : WellStarted nodes) (hs : solve nodes budget = some p) :
    Invariant nodes p ∧ p.work = [] ∧ ∀ i < nodes.length, (known p.states i).state ≠ .pending := by
  obtain ⟨left, _, hs⟩ := bind_eq_some_iff.mp hs
  obtain ⟨first, hfirst, hs⟩ := bind_eq_some_iff.mp hs
  have hinv := (drain_spec (start_invariant h left) hfirst).1
  have hclosed := foldl_closePending (fun i hi => mem_ordered.mp hi) hinv
  have hsecond := drain_spec hclosed.1 hs
  exact ⟨hsecond.1, hsecond.2.1, hsecond.2.2 fun i hi => hclosed.2.2.2.1 i (mem_ordered.mpr hi)⟩

def solveBudget (nodes : List ConstantNode) (most extra : Nat) : Nat :=
  (nodes.map fun n => n.inputs.length).sum +
    (potential nodes { states := startStates nodes, work := ordered nodes, budget := 0 } *
      (1 + most) + extra)

lemma solve_exists (h : WellStarted nodes) {most extra : Nat}
    (hmost : ∀ i < nodes.length, (node nodes i).inputs.length ≤ most)
    (hbudget : solveBudget nodes most extra ≤ budget) :
    ∃ p, solve nodes budget = some p ∧ extra ≤ p.budget := by
  unfold solveBudget at hbudget
  unfold solve spend
  rw [if_pos (by omega), bind_eq_bind, bind_some]
  have hfuel : ∀ {p : Propagation}, Affords nodes most extra p → potential nodes p ≤ p.budget := by
    intro p hp
    unfold Affords at hp
    have := Nat.le_mul_of_pos_right (potential nodes p) (show 0 < 1 + most by omega)
    omega
  have hstart : Affords nodes most extra
      { states := startStates nodes, work := ordered nodes,
        budget := budget - (nodes.map fun n => n.inputs.length).sum } := by
    show potential nodes { states := startStates nodes, work := ordered nodes, budget := 0 } *
      (1 + most) + extra ≤ _
    dsimp only
    omega
  obtain ⟨first, hfirst, hafford⟩ := drain_exists (start_invariant h _) hmost hstart (hfuel hstart)
  have hclosed := foldl_closePending (fun i hi => mem_ordered.mp hi)
    (drain_spec (start_invariant h _) hfirst).1
  have hsecond : Affords nodes most extra ((ordered nodes).foldl (closePending nodes) first) := by
    unfold Affords at hafford ⊢
    rw [hclosed.2.2.1]
    have := Nat.mul_le_mul_right (1 + most) hclosed.2.1
    omega
  obtain ⟨p, hp, hleft⟩ := drain_exists hclosed.1 hmost hsecond (hfuel hsecond)
  refine ⟨p, ?_, ?_⟩
  · rw [hfirst]
    exact hp
  · unfold Affords at hleft
    omega

/-- What the nodes that wait and those that are not marked yet may cost. -/
def viewCost (nodes : List ConstantNode) (marked work : List Nat) : Nat :=
  (work.map fun n => 1 + (users nodes n).length).sum +
    ∑ n ∈ Finset.range nodes.length \ marked.toFinset, (1 + (users nodes n).length)

lemma viewCost_mark {marked fresh : List Nat} (work : List Nat) (hnodup : fresh.Nodup)
    (hapart : ∀ n ∈ fresh, n ∉ marked) (hlt : ∀ n ∈ fresh, n < nodes.length) :
    viewCost nodes (marked ++ fresh) (work ++ fresh) = viewCost nodes marked work := by
  have hsub : fresh.toFinset ⊆ Finset.range nodes.length \ marked.toFinset := by
    intro n hn
    rw [mem_toFinset] at hn
    rw [Finset.mem_sdiff, Finset.mem_range, mem_toFinset]
    exact ⟨hlt n hn, hapart n hn⟩
  have hrest : Finset.range nodes.length \ (marked ++ fresh).toFinset =
      (Finset.range nodes.length \ marked.toFinset) \ fresh.toFinset := by
    rw [toFinset_append, sdiff_sdiff_left]
    rfl
  have hsum := Finset.sum_sdiff (f := fun n => 1 + (users nodes n).length) hsub
  rw [sum_toFinset _ hnodup] at hsum
  unfold viewCost
  rw [hrest, map_append, sum_append]
  omega

lemma foldl_fresh (marked l : List Nat) {fresh : List Nat} (hnodup : fresh.Nodup)
    (hapart : ∀ n ∈ fresh, n ∉ marked) :
    (l.foldl (fun fresh m => if m ∈ marked ∨ m ∈ fresh then fresh else fresh ++ [m]) fresh).Nodup ∧
      ∀ n ∈ l.foldl (fun fresh m => if m ∈ marked ∨ m ∈ fresh then fresh else fresh ++ [m]) fresh,
        n ∉ marked ∧ (n ∈ l ∨ n ∈ fresh) := by
  induction l generalizing fresh with
  | nil => exact ⟨hnodup, fun n hn => ⟨hapart n hn, .inr hn⟩⟩
  | cons m l ih =>
    rw [foldl_cons]
    by_cases hm : m ∈ marked ∨ m ∈ fresh
    · rw [if_pos hm]
      have h := ih hnodup hapart
      exact ⟨h.1, fun n hn => ⟨(h.2 n hn).1, (h.2 n hn).2.imp_left (mem_cons_of_mem _)⟩⟩
    · rw [if_neg hm]
      rw [not_or] at hm
      have hnodup' : (fresh ++ [m]).Nodup :=
        List.Nodup.append hnodup (nodup_singleton m) (disjoint_singleton.mpr hm.2)
      have hapart' : ∀ n ∈ fresh ++ [m], n ∉ marked := by
        intro n hn
        rcases mem_append.mp hn with hn | hn
        · exact hapart n hn
        · exact mem_singleton.mp hn ▸ hm.1
      have h := ih hnodup' hapart'
      refine ⟨h.1, fun n hn => ⟨(h.2 n hn).1, ?_⟩⟩
      rcases (h.2 n hn).2 with hl | hf
      · exact .inl (mem_cons_of_mem _ hl)
      · rcases mem_append.mp hf with hf | hf
        · exact .inr hf
        · exact .inl (mem_singleton.mp hf ▸ mem_cons_self)

lemma markViews_exists {fuel : Nat} {marked work : List Nat}
    (hbudget : viewCost nodes marked work ≤ budget)
    (hfuel : viewCost nodes marked work ≤ fuel) :
    ∃ views, markViews nodes fuel marked work budget = some views := by
  induction fuel generalizing marked work budget with
  | zero =>
    have hwork : work = [] := by
      cases work with
      | nil => rfl
      | cons n rest =>
        unfold viewCost at hfuel
        rw [map_cons, sum_cons] at hfuel
        omega
    exact ⟨marked, if_pos hwork⟩
  | succ fuel ih =>
    cases work with
    | nil => exact ⟨marked, rfl⟩
    | cons n rest =>
      have hfresh := foldl_fresh marked (users nodes n) nodup_nil (by simp)
      unfold markViews spend
      have hpop : viewCost nodes marked (n :: rest) = 1 + (users nodes n).length +
          viewCost nodes marked rest := by
        unfold viewCost
        rw [map_cons, sum_cons, add_assoc]
      have hlt : ∀ m ∈ (users nodes n).foldl (fun fresh m => if m ∈ marked ∨ m ∈ fresh then fresh
          else fresh ++ [m]) [],
          m < nodes.length :=
            fun m hm => (mem_users.mp ((hfresh.2 m hm).2.resolve_right not_mem_nil)).1
      have hsame := viewCost_mark rest hfresh.1 (fun m hm => (hfresh.2 m hm).1) hlt
      rw [if_pos (by omega), bind_eq_bind, bind_some]
      exact ih (by omega) (by omega)

end NeverD.Ir
