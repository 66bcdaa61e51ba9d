import NeverD.Sbf.Links
import Mathlib.Data.List.Nodup

namespace NeverD.Sbf
open List Option BuildTask Structurer

lemma foldl_recordUnique_ambiguous (values : List Nat) :
    values.foldl recordUnique .ambiguous = .ambiguous := by
  induction values with
  | nil => rfl
  | cons v values ih => exact ih

lemma foldl_recordUnique {values : List Nat} {v : Nat}
    (h : values.foldl recordUnique .noIndex = .unique v) : values = [v] := by
  cases values with
  | nil => cases h
  | cons a rest =>
    cases rest with
    | nil =>
      cases h
      rfl
    | cons b rest =>
      rw [foldl_cons, foldl_cons] at h
      have hamb : recordUnique (recordUnique .noIndex a) b = .ambiguous := rfl
      rw [hamb, foldl_recordUnique_ambiguous] at h
      cases h

lemma findSome_of_filterMap {edges : List CFGEdge} {d : Nat} {q : Nat → Bool} (hq : q d = true)
    (h : edges.filterMap CFGEdge.target = [d]) :
    (edges.findSome? fun e => e.target.filter q) = some d := by
  induction edges with
  | nil => cases h
  | cons e edges ih =>
    rw [findSome?_cons]
    cases ht : e.target with
    | none =>
      rw [filterMap_cons_none ht] at h
      exact ih h
    | some v =>
      rw [filterMap_cons_some ht, List.cons.injEq] at h
      rw [filter_some, h.1, if_pos hq]

namespace SBFProgram

variable {p : SBFProgram} {block d : Nat}

lemma target_of_successor {kind : EdgeKind} (h : p.successor block kind = some d) :
    p.target block kind = some d := by
  unfold successor at h
  split at h
  next v hindex =>
    split at h
    next hlt =>
      cases h
      exact findSome_of_filterMap (decide_eq_true hlt) (foldl_recordUnique hindex)
    · cases h
  · cases h

lemma follow_of_branch {t : MedInstruction} (ht : p.terminator block = some t)
    (hc : isConditional t.op = true)
    (outcome : Bool) : p.follow block outcome = p.target block (if outcome then .branchTaken
      else .fallthrough) := by
  unfold follow
  rw [ht]
  dsimp only
  rw [if_pos hc]

lemma follow_of_single {t : MedInstruction} {b : BasicBlock} (ht : p.terminator block = some t)
    (hc : isConditional t.op = false) (he : t.op ≠ .exit) (hb : p.low.blocks[block]? = some b)
    (hs : b.successors = [d]) (outcome : Bool) : p.follow block outcome = some d := by
  unfold follow
  rw [ht, hb]
  dsimp only
  rw [hc, if_neg (by decide), if_neg he, map_some, hs]

end SBFProgram

structure Structurer.Counted (s : Structurer) : Prop where
  nodes : s.result.nodes.map StructuredNode.block = s.emitted.reverse
  nodup : s.emitted.Nodup

section

variable {p : SBFProgram} {s s' : Structurer} {block : Nat}

lemma markEmitted_spec (h : s.markEmitted p block = some s') :
    s'.result = s.result ∧ s'.emitted = block :: s.emitted ∧ block ∉ s.emitted ∧
      block < p.low.blocks.length := by
  unfold markEmitted at h
  split at h
  · cases h
  rename_i hc
  rw [not_or, Nat.not_le] at hc
  split at h
  · cases h
    exact ⟨rfl, rfl, hc.2, hc.1⟩
  split at h
  · cases h
  split at h
  · cases h
  · cases h
    exact ⟨rfl, rfl, hc.2, hc.1⟩

variable {link : SequenceLink} {depth index : Nat} {tail : Option Nat} {node : StructuredNode}

lemma append_spec (hk : (tail.elim link .next).Within s.result) (hn : node.next = none)
    (hb : node.body = none)
    (ha : node.alternative = none) (h : s.append link depth tail node = some (s', index)) :
    index = s.result.nodes.length ∧ s'.emitted = s.emitted ∧
      s'.result.nodes.map StructuredNode.block = s.result.nodes.map StructuredNode.block ++
      [node.block] ∧
      StructuredControlFlow.Appended s.result s'.result (tail.elim link .next) node := by
  generalize hkey : tail.elim link .next = k at hk
  unfold Structurer.append at h
  rw [hkey] at h
  dsimp only at h
  unfold Structurer.attach at h
  split at h
  · cases h
  rename_i hc
  rw [not_or] at hc
  cases h
  have hfree := hc.2
  rw [Bool.not_eq_true, isSome_eq_false_iff, isNone_iff_eq_none,
    StructuredControlFlow.read_push hk] at hfree
  have hpushed : ∀ k : SequenceLink, k.Within s.result →
      k.Within { s.result with
          nodes := s.result.nodes ++ [node], maximumDepth := max s.result.maximumDepth depth } := by
    intro k hk
    apply hk.mono
    rw [length_append]
    exact Nat.le_add_right ..
  refine ⟨rfl, rfl, ?_, ?_, ?_, hfree, ?_, ?_, ?_, ?_⟩
  · -- The blocks of the nodes do not depend on the links.
    apply ext_getElem?
    intro i
    rw [← map_singleton, ← map_append, getElem?_map, getElem?_map]
    cases hi : (s.result.nodes ++ [node])[i]? with
    | none =>
      have hlen := List.getElem?_eq_none_iff.mp hi
      rw [getElem?_eq_none (by rw [StructuredControlFlow.length_write]; exact hlen)]
    | some x =>
      obtain ⟨x', hx', hsame⟩ := StructuredControlFlow.write_same
        { s.result with
            nodes := s.result.nodes ++ [node], maximumDepth := max s.result.maximumDepth depth }
        s.result.nodes.length k hi
      rw [hx']
      exact congrArg some hsame.2.1
  · rw [StructuredControlFlow.length_write, length_append]
    rfl
  · exact StructuredControlFlow.write_same _ _ _ getElem?_concat_length
  · exact StructuredControlFlow.read_write_self (hpushed k hk) _
  · intro i x hi
    apply StructuredControlFlow.write_same
    rw [getElem?_append_left (List.getElem?_eq_some_iff.mp hi).1]
    exact hi
  · intro k' hk' hne
    rw [StructuredControlFlow.read_write_of_ne hne, StructuredControlFlow.read_push hk']
  · intro k' howner
    have hne : k' ≠ k := by
      intro heq
      exact Nat.lt_irrefl _ (hk _ (heq ▸ howner))
    rw [StructuredControlFlow.read_write_of_ne hne]
    exact StructuredControlFlow.read_pushed howner hn hb ha

lemma emit_spec {s₁ : Structurer} (hk : (tail.elim link .next).Within s.result)
    (hn : node.next = none)
    (hb : node.body = none) (ha : node.alternative = none)
    (hm : s.markEmitted p node.block = some s₁)
    (h : s₁.append link depth tail node = some (s', index)) :
    index = s.result.nodes.length ∧ (s.Counted → s'.Counted) ∧
      StructuredControlFlow.Appended s.result s'.result (tail.elim link .next) node := by
  obtain ⟨hres, hemitted, hnew, -⟩ := markEmitted_spec hm
  rw [← hres] at hk
  obtain ⟨hindex, hemit', hmap, happ⟩ := append_spec hk hn hb ha h
  rw [hres] at hindex hmap happ
  refine ⟨hindex, ?_, happ⟩
  intro hc
  refine ⟨?_, ?_⟩
  · rw [hmap, hc.nodes, hemit', hemitted, reverse_cons]
  · rw [hemit', hemitted]
    exact nodup_cons.mpr ⟨hnew, hc.nodup⟩

end

def BuildTask.link? : BuildTask → Option SequenceLink
  | .sequence _ _ _ link _ => some link
  | .validateLoop _ => none

def BuildTask.Holds (p : SBFProgram) (r : StructuredControlFlow) : BuildTask → Prop
  | .sequence current stop _ link _ => StructuredControlFlow.Follows p r (r.read link) current stop
  | .validateLoop _ => True

open StructuredControlFlow

structure Built (p : SBFProgram) (s s' : Structurer) (tasks : List BuildTask) (k : SequenceLink)
    (c : Nat) (stop : Option Nat) : Prop where
  counted : s.Counted → s'.Counted
  forest : s.result.Forest → s'.result.Forest
  extension : Extends s.result s'.result (· = k)
  nodup : (tasks.filterMap BuildTask.link?).Nodup
  links : ∀ l ∈ tasks.filterMap BuildTask.link?, l.Within s'.result ∧ ¬ l.Within s.result ∧
    s'.result.read l = none
  follows : ∀ r K, Extends s'.result r K →
    (∀ l, K l → l ∈ tasks.filterMap BuildTask.link? ∨ (l.Within s.result ∧ l ≠ k)) →
    (∀ t ∈ tasks, t.Holds p r) → Follows p r (r.read k) c stop

variable {p : SBFProgram} {s s' : Structurer} {tasks : List BuildTask} {stop : Option Nat}
  {allowed : Option Region} {link : SequenceLink} {depth : Nat} {tail : Option Nat}

/-- A link that was closed before is still what it was when it was set. -/
theorem Built.read_of_appended {k : SequenceLink} {node : StructuredNode} {s₁ : Structurer}
    (happ : Appended s.result s₁.result k node) (hk : k.Within s.result) {r : StructuredControlFlow}
    {K : SequenceLink → Prop} (hext : Extends s₁.result r K) (hno : ¬ K k) :
    r.read k = some s.result.nodes.length := by
  rw [hext.links k (hk.mono happ.extension.size) hno, happ.linked]

lemma not_within_of_owner {l : SequenceLink} {r : StructuredControlFlow}
    (h : l.owner = some r.nodes.length) : ¬ l.Within r := fun hw => Nat.lt_irrefl _ (hw _ h)

theorem built_of_appended {k : SequenceLink} {node : StructuredNode}
    (happ : Appended s.result s'.result k node)
    (hk : k.Within s.result) (hcount : s.Counted → s'.Counted)
    (howner : ∀ l ∈ tasks.filterMap link?, l.owner = some s.result.nodes.length)
    (hnodup : (tasks.filterMap link?).Nodup)
    (hfollows : ∀ r (node' : StructuredNode), r.nodes[s.result.nodes.length]? = some node' →
      node'.Same node →
      (∀ t ∈ tasks, t.Holds p r) → Follows p r (some s.result.nodes.length) node.block stop) :
    Built p s s' tasks k node.block stop := by
  refine ⟨hcount, happ.forest hk, happ.extension, hnodup, ?_, ?_⟩
  · intro l hl
    have hown := howner l hl
    refine ⟨?_, not_within_of_owner hown, happ.fresh l hown⟩
    intro i hi
    rw [mem_def, hown] at hi
    cases hi
    rw [happ.size]
    exact Nat.lt_succ_self _
  · intro r K hext hK hholds
    have hno : ¬ K k := by
      intro hkk
      rcases hK k hkk with hin | ⟨-, hne⟩
      · exact not_within_of_owner (howner k hin) hk
      · exact hne rfl
    rw [Built.read_of_appended happ hk hext hno]
    obtain ⟨node₁, hnode₁, hsame₁⟩ := happ.new
    obtain ⟨node', hnode', hsame'⟩ := hext.data _ node₁ hnode₁
    exact hfollows r node' hnode' (hsame'.trans hsame₁) hholds

lemma buildLoop_built {header loopRegion : Nat} {loop : Region}
    (hk : (tail.elim link .next).Within s.result)
    (h : buildLoop p s header stop allowed link depth tail loopRegion loop = some (s', tasks)) :
    Built p s s' tasks (tail.elim link .next) header stop := by
  unfold buildLoop at h
  split at h
  next terminator taken fall ht htaken hfall =>
    split at h
    · cases h
    rename_i hcond
    rw [not_or, not_not] at hcond
    dsimp only at h
    split at h
    · cases h
    by_cases hallow : allows p allowed (if p.high.loopContains loop taken then fall else taken) =
      true
    swap
    · rw [if_pos hallow] at h
      cases h
    rw [if_neg (not_not.mpr hallow)] at h
    simp only [bind_eq_bind, bind_eq_some_iff] at h
    obtain ⟨s₁, hmark, ⟨s₂, index⟩, happend, hres⟩ := h
    cases hres
    obtain ⟨rfl, hcount, happ⟩ := emit_spec hk rfl rfl rfl hmark happend
    have hb := SBFProgram.branches_eq ht
    rw [hcond.1] at hb
    have hfollow := SBFProgram.follow_of_branch ht hcond.1
    have hft := (hfollow true).trans (SBFProgram.target_of_successor htaken)
    have hff := (hfollow false).trans (SBFProgram.target_of_successor hfall)
    refine built_of_appended happ hk hcount ?_ ?_ ?_
    · intro l hl
      simp only [link?, filterMap_cons, filterMap_nil, mem_cons, not_mem_nil, or_false] at hl
      rcases hl with rfl | rfl
      · rfl
      · rfl
    · show [SequenceLink.body s.result.nodes.length, .next s.result.nodes.length].Nodup
      simp
    · intro r node' hnode' ⟨hkind, hblock, hcte⟩ hholds
      dsimp only at hkind hblock hcte
      have hbody : Follows p r (r.read (.body s.result.nodes.length)) _ (some header) :=
        hholds _ mem_cons_self
      have hnext : Follows p r (r.read (.next s.result.nodes.length)) _ stop :=
        hholds _ (mem_cons_of_mem _ (mem_cons_of_mem _ mem_cons_self))
      rw [read_body hnode'] at hbody
      rw [read_next hnode'] at hnext
      dsimp only
      rw [← hblock] at hb hft hff hbody ⊢
      cases hin : p.high.loopContains loop taken with
      | true =>
        rw [hin] at hcte hbody hnext
        exact .loop hnode' hkind hb (by rw [hcte]; exact hft) (by rw [hcte]; exact hff) hbody hnext
      | false =>
        rw [hin] at hcte hbody hnext
        exact .loop hnode' hkind hb (by rw [hcte]; exact hff) (by rw [hcte]; exact hft) hbody hnext
  · cases h

lemma buildIf_built {header : Nat} {region : Region} (hk : (tail.elim link .next).Within s.result)
    (h : buildIf p s header stop allowed link depth tail region = some (s', tasks)) :
    Built p s s' tasks (tail.elim link .next) header stop := by
  unfold buildIf at h
  split at h
  next terminator taken fall ht htaken hfall =>
    split at h
    · cases h
    rename_i hcond
    rw [not_or, not_not, not_not] at hcond
    split at h
    · cases h
    simp only [bind_eq_bind, bind_eq_some_iff] at h
    obtain ⟨s₁, hmark, ⟨s₂, index⟩, happend, hres⟩ := h
    cases hres
    obtain ⟨rfl, hcount, happ⟩ := emit_spec hk rfl rfl rfl hmark happend
    have hb := SBFProgram.branches_eq ht
    rw [hcond.2] at hb
    have hfollow := SBFProgram.follow_of_branch ht hcond.2
    have hft := (hfollow true).trans (SBFProgram.target_of_successor htaken)
    have hff := (hfollow false).trans (SBFProgram.target_of_successor hfall)
    refine built_of_appended happ hk hcount ?_ ?_ ?_
    · intro l hl
      cases hexit : region.exitBlock with
      | none =>
        rw [hexit] at hl
        simp only [link?, toList_none, map_nil, append_nil, filterMap_cons,
          filterMap_nil, mem_cons, not_mem_nil, or_false] at hl
        rcases hl with rfl | rfl
        · rfl
        · rfl
      | some x =>
        rw [hexit] at hl
        simp only [link?, toList_some, map_cons, map_nil, cons_append, nil_append,
          filterMap_cons, filterMap_nil, mem_cons, not_mem_nil, or_false] at hl
        rcases hl with rfl | rfl | rfl
        · rfl
        · rfl
        · rfl
    · cases region.exitBlock with
      | none => simp [link?]
      | some x => simp [link?]
    · intro r node' hnode' ⟨hkind, hblock, _⟩ hholds
      dsimp only at hkind hblock
      have hbody : Follows p r (r.read (.body s.result.nodes.length)) taken region.exitBlock :=
        hholds _ (mem_append_left _ mem_cons_self)
      have halt : Follows p r (r.read (.alternative s.result.nodes.length)) fall region.exitBlock :=
        hholds _ (mem_append_left _ (mem_cons_of_mem _ mem_cons_self))
      rw [read_body hnode'] at hbody
      rw [read_alternative hnode'] at halt
      dsimp only
      rw [← hblock] at hb hft hff ⊢
      refine .ifNode hnode' hkind hb hft hff hbody halt ?_
      intro x hx
      have hin : BuildTask.sequence x stop allowed (.next s.result.nodes.length) depth ∈
          region.exitBlock.toList.map fun x =>
          .sequence x stop allowed (.next s.result.nodes.length) depth := by
        rw [hx]
        exact mem_cons_self
      have hnext : Follows p r (r.read (.next s.result.nodes.length)) x stop :=
        hholds _ (mem_append_right _ hin)
      rwa [read_next hnode'] at hnext
  · cases h

end NeverD.Sbf
