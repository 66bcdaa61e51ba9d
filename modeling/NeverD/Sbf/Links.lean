import NeverD.Sbf.Plan

namespace NeverD.Sbf
open List Nat

def SequenceLink.Within (k : SequenceLink) (r : StructuredControlFlow) : Prop :=
  ∀ i ∈ k.owner, i < r.nodes.length

lemma SequenceLink.Within.mono {k : SequenceLink} {s r : StructuredControlFlow} (h : k.Within s)
    (hsize : s.nodes.length ≤ r.nodes.length) : k.Within r :=
  fun i hi => Nat.lt_of_lt_of_le (h i hi) hsize

def StructuredNode.Same (a b : StructuredNode) : Prop :=
  a.kind = b.kind ∧ a.block = b.block ∧ a.conditionTrueEntersBody = b.conditionTrueEntersBody

lemma StructuredNode.Same.trans {a b c : StructuredNode} (h : a.Same b) (h' : b.Same c) :
    a.Same c :=
  ⟨h.1.trans h'.1, h.2.1.trans h'.2.1, h.2.2.trans h'.2.2⟩

namespace StructuredControlFlow

variable {r r' : StructuredControlFlow} {k : SequenceLink}

/-- All links lead to later nodes, and each node has exactly one link: the nodes form a tree. -/
structure Forest (r : StructuredControlFlow) : Prop where
  later : ∀ k j, r.read k = some j → j < r.nodes.length ∧ ∀ i ∈ k.owner, i < j
  one : ∀ j < r.nodes.length, ∃! k, r.read k = some j

section

variable {i : Nat} {node : StructuredNode} (h : r.nodes[i]? = some node)

include h

lemma read_next : r.read (.next i) = node.next := by
  rw [read, h]
  rfl

lemma read_body : r.read (.body i) = node.body := by
  rw [read, h]
  rfl

lemma read_alternative : r.read (.alternative i) = node.alternative := by
  rw [read, h]
  rfl

end

lemma read_of_not_within (h : ¬ k.Within r) : r.read k = none := by
  unfold SequenceLink.Within at h
  rw [not_forall] at h
  obtain ⟨i, h⟩ := h
  rw [Classical.not_imp] at h
  obtain ⟨hi, hlen⟩ := h
  have hnone : r.nodes[i]? = none := getElem?_eq_none (Nat.le_of_not_lt hlen)
  cases k with
  | entry => cases hi
  | next owner | body owner | alternative owner =>
    cases hi
    rw [read, hnone]
    rfl

lemma length_write (r : StructuredControlFlow) (first : Nat) (k : SequenceLink) :
    (r.write first k).nodes.length = r.nodes.length := by
  cases k with
  | entry => rfl
  | next owner => exact length_modify ..
  | body owner => exact length_modify ..
  | alternative owner => exact length_modify ..

variable {node : StructuredNode} {f : StructuredNode → StructuredNode}
    {g : StructuredNode → Option Nat}

lemma write_same (r : StructuredControlFlow) (first : Nat) (k : SequenceLink) {i : Nat}
    (hi : r.nodes[i]? = some node) : ∃ node', (r.write first k).nodes[i]? = some node' ∧
    node'.Same node := by
  -- A node is only modified at a link.
  have hmodify : ∀ (owner : Nat) (f : StructuredNode → StructuredNode),
      (∀ node, (f node).Same node) →
      ∃ node', (r.nodes.modify owner f)[i]? = some node' ∧ node'.Same node := by
    intro owner f hf
    by_cases heq : owner = i
    · refine ⟨f node, ?_, hf node⟩
      rw [heq, getElem?_modify_eq, hi]
      rfl
    · refine ⟨node, ?_, rfl, rfl, rfl⟩
      rw [getElem?_modify_ne _ _ heq, hi]
  cases k with
  | entry => exact ⟨node, hi, rfl, rfl, rfl⟩
  | next owner | body owner | alternative owner => exact hmodify owner _ fun _ => ⟨rfl, rfl, rfl⟩

lemma bind_modify_of_ne {owner i : Nat}
    (h : owner ≠ i) : ((r.nodes.modify owner f)[i]?).bind g = (r.nodes[i]?).bind g := by
  rw [getElem?_modify_ne _ _ h]

lemma bind_modify_of_same {owner i : Nat}
    (h : ∀ node, g (f node) = g node) :
    ((r.nodes.modify owner f)[i]?).bind g = (r.nodes[i]?).bind g := by
  by_cases heq : owner = i
  · rw [heq, getElem?_modify_eq]
    cases r.nodes[i]? with
    | none => rfl
    | some node => exact h node
  · exact bind_modify_of_ne heq

lemma bind_modify_self {i first : Nat} (hi : i < r.nodes.length)
    (h : ∀ node, g (f node) = some first) : ((r.nodes.modify i f)[i]?).bind g = some first := by
  rw [getElem?_modify_eq, getElem?_eq_getElem hi]
  exact h _

lemma read_write_self (hk : k.Within r) (first : Nat) : (r.write first k).read k = some first := by
  cases k with
  | entry => rfl
  | next owner | body owner | alternative owner =>
    exact bind_modify_self (hk owner rfl) fun _ => rfl

lemma read_write_of_ne {k' : SequenceLink} (h : k' ≠ k) (first : Nat) :
    (r.write first k).read k' = r.read k' := by
  cases k with
  | entry =>
    cases k' with
    | entry => exact absurd rfl h
    | next i => rfl
    | body i => rfl
    | alternative i => rfl
  | next owner =>
    cases k' with
    | entry => rfl
    | next i => exact bind_modify_of_ne fun heq => h (by rw [heq])
    | body i | alternative i => exact bind_modify_of_same fun _ => rfl
  | body owner =>
    cases k' with
    | entry => rfl
    | next i | alternative i => exact bind_modify_of_same fun _ => rfl
    | body i => exact bind_modify_of_ne fun heq => h (by rw [heq])
  | alternative owner =>
    cases k' with
    | entry => rfl
    | next i | body i => exact bind_modify_of_same fun _ => rfl
    | alternative i => exact bind_modify_of_ne fun heq => h (by rw [heq])

structure Appended (r r' : StructuredControlFlow) (k : SequenceLink) (node : StructuredNode) :
    Prop where
  size : r'.nodes.length = r.nodes.length + 1
  new : ∃ node' : StructuredNode, r'.nodes[r.nodes.length]? = some node' ∧ node'.Same node
  free : r.read k = none
  linked : r'.read k = some r.nodes.length
  old : ∀ (i : Nat) (node : StructuredNode), r.nodes[i]? = some node →
    ∃ node' : StructuredNode, r'.nodes[i]? = some node' ∧ node'.Same node
  links : ∀ k', k'.Within r → k' ≠ k → r'.read k' = r.read k'
  fresh : ∀ k', k'.owner = some r.nodes.length → r'.read k' = none

lemma read_push {depth : Nat} (hk : k.Within r) :
    ({ r with nodes := r.nodes ++ [node], maximumDepth := depth } : StructuredControlFlow).read k =
    r.read k := by
  cases k with
  | entry => rfl
  | next owner | body owner | alternative owner =>
    rw [read, read, getElem?_append_left (hk owner rfl)]

lemma read_pushed {depth : Nat} (hk : k.owner = some r.nodes.length)
    (hn : node.next = none) (hb : node.body = none) (ha : node.alternative = none) :
    ({ r with nodes := r.nodes ++ [node], maximumDepth := depth } : StructuredControlFlow).read k =
    none := by
  cases k with
  | entry => cases hk
  | next owner =>
    cases hk
    rw [read, getElem?_concat_length]
    exact hn
  | body owner =>
    cases hk
    rw [read, getElem?_concat_length]
    exact hb
  | alternative owner =>
    cases hk
    rw [read, getElem?_concat_length]
    exact ha

lemma Appended.forest (h : Appended r r' k node) (hk : k.Within r) (hr : r.Forest) : r'.Forest := by
  -- Every link that is set is an old one, or the new one.
  have hcases : ∀ k' j, r'.read k' = some j → (k' = k ∧ j = r.nodes.length) ∨
      r.read k' = some j := by
    intro k' j hread
    by_cases heq : k' = k
    · rw [heq, h.linked] at hread
      cases hread
      exact Or.inl ⟨heq, rfl⟩
    · right
      by_cases hwithin : k'.Within r
      · rwa [h.links k' hwithin heq] at hread
      · by_cases hwithin' : k'.Within r'
        · have howner : k'.owner = some r.nodes.length := by
            unfold SequenceLink.Within at hwithin hwithin'
            cases hown : k'.owner with
            | none =>
              rw [hown] at hwithin
              exact absurd (fun i hi => nomatch hi) hwithin
            | some i =>
              rw [hown] at hwithin hwithin'
              have hlt := hwithin' i rfl
              have hge : ¬ i < r.nodes.length := fun hlt => hwithin fun j hj => by
                cases hj
                exact hlt
              have hsize := h.size
              congr 1
              omega
          rw [h.fresh k' howner] at hread
          cases hread
        · rw [read_of_not_within hwithin'] at hread
          cases hread
  refine ⟨?_, ?_⟩
  · intro k' j hread
    rw [h.size]
    rcases hcases k' j hread with ⟨rfl, rfl⟩ | hold
    · exact ⟨lt_succ_self _, hk⟩
    · exact ⟨lt_succ_of_lt (hr.later k' j hold).1, (hr.later k' j hold).2⟩
  · intro j hj
    rw [h.size] at hj
    by_cases hnew : j = r.nodes.length
    · rw [hnew]
      refine ⟨k, h.linked, ?_⟩
      intro k' hread
      rcases hcases k' _ hread with ⟨heq, -⟩ | hold
      · exact heq
      · exact absurd (hr.later k' _ hold).1 (Nat.lt_irrefl _)
    · obtain ⟨k₀, hread, hunique⟩ := hr.one j (by omega)
      have hne : k₀ ≠ k := by
        intro heq
        have hread' : r.read k₀ = some j := hread
        rw [heq, h.free] at hread'
        cases hread'
      have hwithin : k₀.Within r := by
        by_contra hno
        have hread' : r.read k₀ = some j := hread
        rw [read_of_not_within hno] at hread'
        cases hread'
      refine ⟨k₀, (h.links k₀ hwithin hne).trans hread, ?_⟩
      intro k' hread'
      rcases hcases k' j hread' with ⟨-, heq⟩ | hold
      · exact absurd heq hnew
      · exact hunique k' hold

structure Extends (s r : StructuredControlFlow) (K : SequenceLink → Prop) : Prop where
  size : s.nodes.length ≤ r.nodes.length
  data : ∀ (i : Nat) (node : StructuredNode), s.nodes[i]? = some node →
    ∃ node' : StructuredNode, r.nodes[i]? = some node' ∧ node'.Same node
  links : ∀ k, k.Within s → ¬ K k → r.read k = s.read k

lemma Extends.refl (s : StructuredControlFlow) (K : SequenceLink → Prop) : Extends s s K :=
  ⟨Nat.le_refl _, fun _ node hi => ⟨node, hi, rfl, rfl, rfl⟩, fun _ _ _ => rfl⟩

lemma Extends.trans {a b c : StructuredControlFlow} {K K' J : SequenceLink → Prop}
    (h : Extends a b K)
    (h' : Extends b c K') (hJ : ∀ k, k.Within a → K k ∨ K' k → J k) : Extends a c J := by
  refine ⟨Nat.le_trans h.size h'.size, ?_, ?_⟩
  · intro i node hi
    obtain ⟨node', hi', hs⟩ := h.data i node hi
    obtain ⟨node'', hi'', hs'⟩ := h'.data i node' hi'
    exact ⟨node'', hi'', hs'.trans hs⟩
  · intro k hk hno
    rw [h'.links k (hk.mono h.size) fun hk' => hno (hJ k hk (Or.inr hk')),
      h.links k hk fun hk' => hno (hJ k hk (Or.inl hk'))]

lemma Appended.extension (h : Appended r r' k node) : Extends r r' (· = k) :=
  ⟨by rw [h.size]; exact le_succ _, h.old, h.links⟩

end StructuredControlFlow

end NeverD.Sbf
