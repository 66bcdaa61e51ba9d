import NeverD.Sbf.Builder

namespace NeverD.Sbf
open StructuredControlFlow List Option

section

variable {p : SBFProgram} {s s' : Structurer} {tasks : List BuildTask} {stop : Option Nat}
  {allowed : Option Region} {link : SequenceLink} {depth : Nat} {tail : Option Nat}

lemma Built.cons {s₁ : Structurer} {k : SequenceLink} {node : StructuredNode} {d : Nat}
    (happ : Appended s.result s₁.result k node) (hk : k.Within s.result)
    (hcount : s.Counted → s₁.Counted)
    (hkind : node.kind = .block) (he : p.exits node.block = false)
    (hb : p.branches node.block = false) (hd : ∀ outcome, p.follow node.block outcome = some d)
    (hrest : Built p s₁ s' tasks (.next s.result.nodes.length) d stop) :
    Built p s s' tasks k node.block stop := by
  have hne : k ≠ .next s.result.nodes.length := by
    intro heq
    exact not_within_of_owner (by rw [heq]; rfl) hk
  have hold : ∀ {l : SequenceLink}, l.Within s.result → l ≠ .next s.result.nodes.length := by
    intro l hl heq
    exact not_within_of_owner (by rw [heq]; rfl) hl
  refine ⟨fun hc => hrest.counted (hcount hc), fun hf => hrest.forest (happ.forest hk hf), ?_,
    hrest.nodup, ?_, ?_⟩
  · refine happ.extension.trans hrest.extension ?_
    intro l hl hor
    exact hor.elim id fun heq => absurd heq (hold hl)
  · intro l hl
    obtain ⟨hin, hout, hnone⟩ := hrest.links l hl
    exact ⟨hin, fun hw => hout (hw.mono happ.extension.size), hnone⟩
  · intro r K hext hK hholds
    have hK' : ∀ l, K l → l ∈ tasks.filterMap BuildTask.link? ∨
        (l.Within s₁.result ∧ l ≠ .next s.result.nodes.length) := by
      intro l hl
      exact (hK l hl).imp_right fun hw => ⟨hw.1.mono happ.extension.size, hold hw.1⟩
    have hnext := hrest.follows r K hext hK' hholds
    have hno : ¬ K k := by
      intro hkk
      rcases hK k hkk with hin | ⟨-, hne⟩
      · exact (hrest.links k hin).2.1 (hk.mono happ.extension.size)
      · exact hne rfl
    have hall : Extends s₁.result r (fun l => K l ∨ l = .next s.result.nodes.length) :=
      hrest.extension.trans hext fun l _ hor => hor.symm
    rw [Built.read_of_appended happ hk hall fun hor => hor.elim hno hne]
    obtain ⟨node₁, hnode₁, hsame₁⟩ := happ.new
    obtain ⟨node', hnode', hsame'⟩ := hall.data _ node₁ hnode₁
    obtain ⟨hk', hblock, -⟩ := hsame'.trans hsame₁
    rw [read_next hnode'] at hnext
    rw [← hblock] at he hb hd ⊢
    exact .block hnode' (hk'.trans hkind) he hb hd hnext

lemma buildSequence_built {fuel current : Nat} (hk : (tail.elim link .next).Within s.result)
    (hfree : s.result.read (tail.elim link .next) = none)
    (h : Structurer.buildSequence p stop allowed link depth fuel current tail s =
      some (some (s', tasks))) : Built p s s' tasks (tail.elim link .next) current stop := by
  induction fuel generalizing current tail s with
  | zero => cases h
  | succ fuel ih =>
    rw [Structurer.buildSequence] at h
    split at h
    next hstop =>
      cases h
      refine ⟨id, id, .refl _ _, nodup_nil, fun l hl => (nomatch hl), ?_⟩
      intro r K hext hK _
      have hno : ¬ K (tail.elim link .next) :=
        fun hkk => (hK _ hkk).elim (fun hin => nomatch hin) fun hw => hw.2 rfl
      rw [hext.links _ hk hno, hfree, hstop]
      exact .stop
    split at h
    · cases h
    rename_i block hblock
    split at h
    · cases h
    split at h
    · exact buildLoop_built hk (some.inj h)
    split at h
    · cases h
    rename_i terminator hterm
    split at h
    · split at h
      · cases h
      · exact buildIf_built hk (some.inj h)
    rename_i hcond
    rw [Bool.not_eq_true] at hcond
    split at h
    · cases h
    rename_i s₂ index hemit
    obtain ⟨s₁, hmark, happend⟩ := bind_eq_some_iff.mp hemit
    obtain ⟨rfl, hcount, happ⟩ := emit_spec hk rfl rfl rfl hmark happend
    have hexits : p.exits current = decide (terminator.op = .exit) := by
      unfold SBFProgram.exits
      rw [hterm]
      rfl
    split at h
    · -- An exit ends the sequence, and nothing is left to do.
      rename_i hop
      rw [Option.some.injEq] at h
      split at h
      · cases h
        refine built_of_appended happ hk hcount (fun l hl => (nomatch hl)) nodup_nil ?_
        intro r node' hnode' ⟨hkind, hsame, _⟩ _
        dsimp only at hkind hsame ⊢
        rw [← hsame] at hexits ⊢
        exact .exit hnode' hkind (hexits.trans (decide_eq_true hop))
      · cases h
    next hop =>
      split at h
      next d hsucc =>
        have hnone : s₂.result.read (.next s.result.nodes.length) = none := happ.fresh _ rfl
        have hwithin : (SequenceLink.next s.result.nodes.length).Within s₂.result := by
          intro i hi
          cases hi
          rw [happ.size]
          exact Nat.lt_succ_self _
        have hrest : Built p s₂ s' tasks (.next s.result.nodes.length) d stop :=
          ih (show ((some s.result.nodes.length).elim link .next).Within s₂.result from hwithin)
            hnone h
        exact hrest.cons happ hk hcount rfl (hexits.trans (decide_eq_false hop))
          ((SBFProgram.branches_eq hterm).trans hcond)
          (SBFProgram.follow_of_single hterm hcond hop hblock hsucc)
      · cases h

end

/-- The pending tasks own distinct links that are not set. -/
structure Pending (s : Structurer) (work : List BuildTask) : Prop where
  nodup : (work.filterMap BuildTask.link?).Nodup
  links : ∀ l ∈ work.filterMap BuildTask.link?, l.Within s.result ∧ s.result.read l = none

lemma validateLoop_same {p : SBFProgram} {s s' : Structurer} {loopRegion : Nat}
    (h : s.validateLoop p loopRegion = some s') :
    s'.result = s.result ∧ s'.emitted = s.emitted := by
  unfold Structurer.validateLoop at h
  split at h
  · cases h
  split at h
  · cases h
  dsimp only at h
  split at h
  · cases h
  split at h
  · cases h
    exact ⟨rfl, rfl⟩
  split at h
  · cases h
  split at h
  · cases h
  · cases h
    exact ⟨rfl, rfl⟩

lemma Pending.step {p : SBFProgram} {s s' : Structurer} {tasks work : List BuildTask}
    {current depth : Nat} {stop : Option Nat} {allowed : Option Region} {link : SequenceLink}
    (h : Pending s (.sequence current stop allowed link depth :: work))
    (hb : Built p s s' tasks link current stop) : Pending s' (tasks ++ work) := by
  obtain ⟨hlink, hnodup⟩ := nodup_cons.mp h.nodup
  have hwork : ∀ l ∈ work.filterMap BuildTask.link?, l.Within s.result ∧ s.result.read l = none :=
    fun l hl =>
    h.links l (mem_cons_of_mem link hl)
  refine ⟨?_, ?_⟩
  · rw [filterMap_append]
    refine nodup_append.mpr ⟨hb.nodup, hnodup, ?_⟩
    intro l hl l' hl' heq
    exact (hb.links l hl).2.1 (heq ▸ (hwork l' hl').1)
  · intro l hl
    rw [filterMap_append] at hl
    rcases mem_append.mp hl with hl | hl
    · exact ⟨(hb.links l hl).1, (hb.links l hl).2.2⟩
    · obtain ⟨hin, hnone⟩ := hwork l hl
      refine ⟨hin.mono hb.extension.size, ?_⟩
      rw [hb.extension.links l hin fun heq => hlink (heq ▸ hl), hnone]

structure Finished (p : SBFProgram) (s s' : Structurer) (work : List BuildTask) : Prop where
  counted : s.Counted → s'.Counted
  forest : s.result.Forest → s'.result.Forest
  extension : Extends s.result s'.result (· ∈ work.filterMap BuildTask.link?)
  holds : ∀ t ∈ work, t.Holds p s'.result

lemma run_finished {p : SBFProgram} {fuel : Nat} {s s' : Structurer} {work : List BuildTask}
    (hp : Pending s work) (h : Structurer.run p fuel s work = some (some s')) :
    Finished p s s' work := by
  induction fuel generalizing s work with
  | zero =>
    cases work with
    | nil =>
      cases h
      exact ⟨id, id, .refl _ _, forall_mem_nil _⟩
    | cons t work => cases h
  | succ fuel ih =>
    cases work with
    | nil =>
      cases h
      exact ⟨id, id, .refl _ _, forall_mem_nil _⟩
    | cons t work =>
      cases t with
      | validateLoop loopRegion =>
        rw [Structurer.run] at h
        split at h
        · cases h
        rename_i s₁ hvalid
        obtain ⟨hres, hemitted⟩ := validateLoop_same hvalid
        have hp₁ : Pending s₁ work := ⟨hp.nodup, hres ▸ hp.links⟩
        obtain ⟨hcount, hforest, hext, hholds⟩ := ih hp₁ h
        rw [hres] at hforest hext
        refine ⟨?_, hforest, hext, forall_mem_cons.mpr ⟨trivial, hholds⟩⟩
        intro hc
        apply hcount
        refine ⟨?_, ?_⟩
        · rw [hres, hemitted]
          exact hc.nodes
        · rw [hemitted]
          exact hc.nodup
      | sequence current stop allowed link depth =>
        rw [Structurer.run] at h
        split at h
        · cases h
        · cases h
        rename_i e hseq
        obtain ⟨s₁, tasks⟩ := e
        obtain ⟨hwithin, hfree⟩ := hp.links link mem_cons_self
        have hb : Built p s s₁ tasks link current stop :=
          buildSequence_built (show ((none : Option Nat).elim link .next).Within s.result from
            hwithin) hfree hseq
        obtain ⟨hcount, hforest, hext, hholds⟩ := ih (hp.step hb) h
        have hlink := (nodup_cons.mp hp.nodup).1
        refine ⟨fun hc => hcount (hb.counted hc), fun hf => hforest (hb.forest hf), ?_, ?_⟩
        · refine hb.extension.trans hext ?_
          intro l hl hor
          rcases hor with rfl | hin
          · exact mem_cons_self
          · rw [filterMap_append] at hin
            rcases mem_append.mp hin with hin | hin
            · exact absurd hl (hb.links l hin).2.1
            · exact mem_cons_of_mem _ hin
        · refine forall_mem_cons.mpr ⟨?_, fun t ht => hholds t (mem_append_right _ ht)⟩
          refine hb.follows _ _ hext ?_ fun t ht => hholds t (mem_append_left _ ht)
          intro l hl
          rw [filterMap_append] at hl
          rcases mem_append.mp hl with hl | hl
          · exact .inl hl
          · exact .inr ⟨(hp.links l (mem_cons_of_mem link hl)).1, fun heq => hlink (heq ▸ hl)⟩

/-- A block that was emitted is the block of exactly one node. -/
theorem Structurer.Counted.one {s : Structurer} (h : s.Counted) {block : Nat}
    (hb : block ∈ s.emitted) :
    ∃! i : Nat, s.result.nodes[i]?.map StructuredNode.block = some block := by
  have hmem : block ∈ s.result.nodes.map StructuredNode.block := by
    rw [h.nodes, mem_reverse]
    exact hb
  have hnodup : (s.result.nodes.map StructuredNode.block).Nodup := by
    rw [h.nodes]
    exact nodup_reverse.mpr h.nodup
  obtain ⟨i, hi, heq⟩ := mem_iff_getElem.mp hmem
  have hread : (s.result.nodes.map StructuredNode.block)[i]? = some block := by
    rw [getElem?_eq_getElem hi, heq]
  refine ⟨i, by rwa [getElem?_map] at hread, ?_⟩
  intro j hj
  rw [← getElem?_map] at hj
  exact (getElem?_inj (List.getElem?_eq_some_iff.mp hj).1 hnodup).mp (hj.trans hread.symm)

/-- A plan has each reachable block in one node, its links form a tree under the entry, and its
walk is the walk of the graph. -/
theorem buildStructuredControlFlow_faithful {p : SBFProgram} {plan : StructuredControlFlow}
    (h : buildStructuredControlFlow p = some plan) :
    (∀ b ∈ p.low.blocks, b.reachable = true → ∃! i : Nat, plan.nodes[i]?.map StructuredNode.block =
      some b.id) ∧ plan.Forest ∧ ∃ entry, p.entryBlock = some entry ∧
        ∀ n outcomes, plan.walk p n [plan.entry] outcomes = p.walk n entry.id outcomes := by
  unfold buildStructuredControlFlow at h
  split at h
  · cases h
  split at h
  · cases h
  split at h
  · cases h
  rename_i entry hentry
  split at h
  swap
  · cases h
  rename_i s hrun
  split at h
  · cases h
  rename_i hall
  split at h
  · cases h
  cases h
  have hpending : Pending {} [.sequence entry.id none none .entry 0] := by
    refine ⟨nodup_cons.mpr ⟨not_mem_nil, nodup_nil⟩, ?_⟩
    intro l hl
    rw [mem_singleton.mp hl]
    exact ⟨fun i hi => (nomatch hi), rfl⟩
  obtain ⟨hcount, hforest, -, hholds⟩ := run_finished hpending hrun
  have hcounted := hcount ⟨rfl, nodup_nil⟩
  have hempty : StructuredControlFlow.Forest {} := by
    refine ⟨?_, fun j hj => (nomatch hj)⟩
    intro k j hread
    cases k with
    | entry => cases hread
    | next owner => cases hread
    | body owner => cases hread
    | alternative owner => cases hread
  refine ⟨?_, hforest hempty, entry, hentry, ?_⟩
  · intro b hb hreach
    apply hcounted.one
    by_contra hno
    exact hall (any_eq_true.mpr ⟨b, hb, decide_eq_true ⟨hreach, hno⟩⟩)
  · intro n outcomes
    have hfirst : Follows p s.result s.result.entry entry.id none := hholds _ mem_cons_self
    exact walk_eq hfirst .never

def looped : SBFProgram where
  low := {
    entrySlot := 0
    slots := 6
    blocks := [⟨0, 0, 1, [1], true⟩, ⟨1, 1, 2, [2, 5], true⟩, ⟨2, 2, 3, [3, 4], true⟩,
      ⟨3, 3, 4, [4], true⟩, ⟨4, 4, 5, [1], true⟩, ⟨5, 5, 6, [], true⟩]
    edges := [⟨0, some 1, .fallthrough⟩, ⟨1, some 2, .branchTaken⟩, ⟨1, some 5, .fallthrough⟩,
      ⟨2, some 3, .branchTaken⟩, ⟨2, some 4, .fallthrough⟩, ⟨3, some 4, .fallthrough⟩,
      ⟨4, some 1, .branch⟩] }
  med := [⟨0, .mov, .none⟩, ⟨1, .uLt, .none⟩, ⟨2, .eq, .none⟩, ⟨3, .add, .none⟩, ⟨4, .jump, .none⟩,
    ⟨5, .exit, .none⟩]
  high := {
    functions := 1
    regions := [
      { kind := .loop, functionIndex := some 0, headerBlock := 1, exitBlock := some 5,
        loopSubtreeEnd := 1,
        blockCount := 4, latchCount := 1 },
      { kind := .ifRegion, headerBlock := 2, exitBlock := some 4 }]
    loopLatches := [4]
    blockLoops := [none, some 0, some 0, some 0, some 0, none] }

def loopedPlan : StructuredControlFlow where
  entry := some 0
  nodes := [{ kind := .block, block := 0, next := some 1 },
    { kind := .loop, block := 1, next := some 5, body := some 2 },
    { kind := .ifNode, block := 2, next := some 4, body := some 3 },
    { kind := .block, block := 3 },
    { kind := .block, block := 4 },
    { kind := .block, block := 5 }]
  maximumDepth := 2

theorem buildStructuredControlFlow_faithful_looped :
    buildStructuredControlFlow looped = some loopedPlan ∧ loopedPlan.Forest ∧
      ∀ n outcomes, loopedPlan.walk looped n [some 0] outcomes = looped.walk n 0 outcomes := by
  have hbuild : buildStructuredControlFlow looped = some loopedPlan := rfl
  obtain ⟨-, hforest, entry, hentry, hwalk⟩ := buildStructuredControlFlow_faithful hbuild
  cases hentry
  exact ⟨hbuild, hforest, hwalk⟩

end NeverD.Sbf
