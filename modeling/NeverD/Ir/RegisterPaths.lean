import NeverD.Ir.RegisterSites

namespace NeverD.Ir.RegisterFlow
open List

open NeverD.Lib

variable {i b : Nat}

section

def SameButPrevious (n n' : Node) : Prop :=
  n'.pc = n.pc ∧ n'.ops = n.ops ∧ n'.next = n.next ∧ n'.root = n.root ∧ n'.boundary = n.boundary

variable {nodes : List Node}

lemma node_of_lt (h : i < nodes.length) : node nodes i = nodes[i] := by
  unfold node
  rw [getD_eq_getElem?_getD, getElem?_eq_getElem h, Option.getD_some]

lemma node_of_ge (h : nodes.length ≤ i) : node nodes i = default := by
  unfold node
  rw [getD_eq_getElem?_getD, getElem?_eq_none h, Option.getD_none]

lemma node_modify (nodes : List Node) (k : Nat) (f : Node → Node) (i : Nat) :
    node (nodes.modify k f) i = if k = i ∧ i < nodes.length then f (node nodes i)
      else node nodes i := by
  unfold node
  rw [getD_eq_getElem?_getD, getD_eq_getElem?_getD, getElem?_modify]
  by_cases hi : i < nodes.length
  · rw [getElem?_eq_getElem hi]
    by_cases hk : k = i
    · rw [if_pos ⟨hk, hi⟩]
      simp [hk]
    · rw [if_neg fun h => hk h.1]
      simp [hk]
  · rw [getElem?_eq_none (not_lt.mp hi), if_neg fun h => hi h.2]
    split <;> rfl

lemma addPrevious_fold (i : Nat) (targets : List Nat) (nodes : List Node) :
    (targets.foldl (fun nodes n => nodes.modify n fun node =>
      { node with previous := node.previous ++ [i] }) nodes).length =
        nodes.length ∧
      ∀ k, SameButPrevious (node nodes k) (node (targets.foldl
        (fun nodes n => nodes.modify n fun node => { node with previous := node.previous ++ [i] })
        nodes) k) ∧
        ∀ j, j ∈ (node (targets.foldl
          (fun nodes n => nodes.modify n fun node => { node with previous := node.previous ++ [i] })
          nodes) k).previous ↔
          j ∈ (node nodes k).previous ∨ (j = i ∧ k ∈ targets ∧ k < nodes.length) := by
  induction targets generalizing nodes with
  | nil =>
    refine ⟨rfl, fun k => ⟨⟨rfl, rfl, rfl, rfl, rfl⟩,
      fun j => ⟨.inl, fun h => h.elim id fun hcon => ?_⟩⟩⟩
    cases hcon.2.1
  | cons t targets ih =>
    obtain ⟨hlen, hnodes⟩ :=
      ih (nodes.modify t fun node => { node with previous := node.previous ++ [i] })
    rw [foldl_cons]
    rw [length_modify] at hlen hnodes
    refine ⟨hlen, fun k => ?_⟩
    obtain ⟨hsame, hprev⟩ := hnodes k
    rw [node_modify] at hsame hprev
    by_cases hk : t = k ∧ k < nodes.length
    · rw [if_pos hk] at hsame hprev
      refine ⟨hsame, fun j => ?_⟩
      rw [hprev, mem_append, mem_singleton, mem_cons]
      constructor
      · intro h
        rcases h with (h | h) | h
        · exact .inl h
        · exact .inr ⟨h, .inl hk.1.symm, hk.2⟩
        · exact .inr ⟨h.1, .inr h.2.1, h.2.2⟩
      · intro h
        rcases h with h | h
        · exact .inl (.inl h)
        · exact .inl (.inr h.1)
    · rw [if_neg hk] at hsame hprev
      refine ⟨hsame, fun j => ?_⟩
      rw [hprev, mem_cons]
      constructor
      · intro h
        exact h.imp id fun hand => ⟨hand.1, .inr hand.2.1, hand.2.2⟩
      · intro h
        rcases h with h | ⟨hj, hmem, hlt⟩
        · exact .inl h
        · rcases hmem with hmem | hmem
          · exact absurd ⟨hmem.symm, hlt⟩ hk
          · exact .inr ⟨hj, hmem, hlt⟩

lemma addPrevious_range (nodes : List Node) (n : Nat) :
    ((List.range n).foldl addPrevious nodes).length = nodes.length ∧
      ∀ k, SameButPrevious (node nodes k) (node ((List.range n).foldl addPrevious nodes) k) ∧
        ∀ j, j ∈ (node ((List.range n).foldl addPrevious nodes) k).previous ↔
          j ∈ (node nodes k).previous ∨ (j < n ∧ k ∈ (node nodes j).next ∧ k < nodes.length) := by
  induction n with
  | zero =>
    refine ⟨rfl, fun k => ⟨⟨rfl, rfl, rfl, rfl, rfl⟩,
      fun j => ⟨.inl, fun h => h.elim id fun hcon => ?_⟩⟩⟩
    exact absurd hcon.1 (Nat.not_lt_zero _)
  | succ n ih =>
    obtain ⟨hlen, hnodes⟩ := ih
    rw [range_succ, foldl_append, foldl_cons, foldl_nil]
    obtain ⟨hlen', hnodes'⟩ :=
      addPrevious_fold n (node ((List.range n).foldl addPrevious nodes) n).next
      ((List.range n).foldl addPrevious nodes)
    refine ⟨hlen'.trans hlen, fun k => ?_⟩
    obtain ⟨hsame, hprev⟩ := hnodes k
    obtain ⟨hsame', hprev'⟩ := hnodes' k
    refine ⟨⟨hsame'.1.trans hsame.1, hsame'.2.1.trans hsame.2.1, hsame'.2.2.1.trans hsame.2.2.1,
      hsame'.2.2.2.1.trans hsame.2.2.2.1, hsame'.2.2.2.2.trans hsame.2.2.2.2⟩, fun j => ?_⟩
    have hnext := (hnodes n).1.2.2.1
    refine (hprev' j).trans ?_
    rw [hprev, hnext, hlen, or_assoc]
    apply or_congr Iff.rfl
    constructor
    · intro h
      rcases h with h | ⟨rfl, h⟩
      · exact ⟨Nat.lt_succ_of_lt h.1, h.2⟩
      · exact ⟨Nat.lt_succ_self _, h⟩
    · intro h
      rcases Nat.lt_succ_iff_lt_or_eq.mp h.1 with hlt | rfl
      · exact .inl ⟨hlt, h.2⟩
      · exact .inr ⟨rfl, h.2⟩

def Forward (nodes : List Node) : Prop := ∀ n ∈ nodes, n.previous = []

lemma forward_modify {nodes : List Node} (h : Forward nodes) (k : Nat) {f : Node → Node}
    (hf : ∀ n, (f n).previous = n.previous) : Forward (nodes.modify k f) := by
  intro n hn
  obtain ⟨i, hi, rfl⟩ := getElem_of_mem hn
  rw [getElem_modify]
  have hold := h _ (getElem_mem (by rw [length_modify] at hi; exact hi))
  split
  · rw [hf]
    exact hold
  · exact hold

lemma forward_snoc (h : Forward nodes) {n : Node} (hn : n.previous = []) :
    Forward (nodes ++ [n]) := by
  intro m hm
  rcases mem_append.mp hm with hm | hm
  · exact h m hm
  · rw [mem_singleton.mp hm]
    exact hn

lemma forward_foldl {α : Type} (f : List Node → α → List Node)
    (hf : ∀ nodes a, Forward nodes → Forward (f nodes a))
    (l : List α) (h : Forward nodes) : Forward (l.foldl f nodes) := by
  induction l generalizing nodes with
  | nil => exact h
  | cons a l ih => exact ih (hf nodes a h)

lemma foldlM_ok {α β : Type} {p : β → Prop} {f : β → α → Except String β}
    (hf : ∀ b a b', p b → f b a = .ok b' → p b')
    (l : List α) {b b' : β} (hb : p b) (h : l.foldlM f b = .ok b') : p b' := by
  induction l generalizing b with
  | nil =>
    injection h with h
    exact h ▸ hb
  | cons a l ih =>
    rw [foldlM_cons] at h
    cases hfa : f b a with
    | error e =>
      rw [hfa] at h
      cases h
    | ok c =>
      rw [hfa] at h
      exact ih (hf b a c hb hfa) h

lemma addOp_forward (id : Int) (g : Graph) (o : LowOp) (g' : Graph) (h : Forward g.nodes)
    (ho : addOp id g o = .ok g') : Forward g'.nodes := by
  unfold addOp at ho
  split at ho
  · cases ho
  · split at ho
    · split at ho
      · injection ho with ho
        rw [← ho]
        exact forward_modify h _ fun _ => rfl
      · split at ho
        · cases ho
        · injection ho with ho
          rw [← ho]
          exact forward_snoc h rfl
    · split at ho
      · cases ho
      · injection ho with ho
        rw [← ho]
        exact forward_snoc h rfl

lemma linkBlock_forward (f : LowFunc) (g : Graph) (b : LowBlock) (g' : Graph) (h : Forward g.nodes)
    (hl : linkBlock f g b = .ok g') : Forward g'.nodes := by
  have hmarked :=
    forward_foldl (fun nodes n => nodes.modify n fun node => { node with root := true })
    (fun nodes a hn => forward_modify hn a fun _ => rfl) (if isRootBlock f b then first f g b.id
      else []) h
  have hinner :=
    forward_foldl (fun nodes p => nodes.modify p.1 fun node =>
      { node with next := node.next ++ [p.2] })
    (fun nodes (a : Nat × Nat) hn =>
      @forward_modify nodes hn a.1 (fun node => { node with next := node.next ++ [a.2] }) fun _ =>
        rfl)
    ((g.blockNodes b.id).zip (g.blockNodes b.id).tail) hmarked
  unfold linkBlock at hl
  dsimp only at hl
  split at hl
  · injection hl with hl
    rw [← hl]
    exact hmarked
  · split at hl
    · cases hl
    · injection hl with hl
      rw [← hl]
      exact forward_modify hinner _ fun _ => rfl

lemma pcs_modify (nodes : List Node) (k : Nat) {f : Node → Node} (hf : ∀ n, (f n).pc = n.pc) :
    (nodes.modify k f).map (·.pc) = nodes.map (·.pc) := by
  apply ext_getElem
  · rw [length_map, length_map, length_modify]
  · intro i _ _
    rw [getElem_map, getElem_map, getElem_modify]
    split
    · exact hf _
    · rfl

lemma pcs_foldl {α : Type} (f : List Node → α → List Node)
    (hf : ∀ nodes a, (f nodes a).map (·.pc) = nodes.map (·.pc)) (l : List α) (nodes : List Node) :
    (l.foldl f nodes).map (·.pc) = nodes.map (·.pc) := by
  induction l generalizing nodes with
  | nil => rfl
  | cons a l ih => exact (ih (f nodes a)).trans (hf nodes a)

lemma linkBlock_pcs (f : LowFunc) (g : Graph) (b : LowBlock) (g' : Graph)
    (hl : linkBlock f g b = .ok g') : g'.nodes.map (·.pc) = g.nodes.map (·.pc) := by
  have hmarked := pcs_foldl (fun nodes n => nodes.modify n fun node => { node with root := true })
    (fun nodes a => pcs_modify nodes a fun _ => rfl) (if isRootBlock f b then first f g b.id
      else []) g.nodes
  have hinner :=
    pcs_foldl (fun nodes (p : Nat × Nat) => nodes.modify p.1 fun node =>
      { node with next := node.next ++ [p.2] })
    (fun nodes (a : Nat × Nat) =>
      @pcs_modify nodes a.1 (fun node => { node with next := node.next ++ [a.2] }) fun _ => rfl)
    ((g.blockNodes b.id).zip (g.blockNodes b.id).tail)
    ((if isRootBlock f b then first f g b.id else []).foldl
      (fun nodes n => nodes.modify n fun node => { node with root := true }) g.nodes)
  unfold linkBlock at hl
  dsimp only at hl
  split at hl
  · injection hl with hl
    rw [← hl]
    exact hmarked
  · split at hl
    · cases hl
    next targets _ =>
      injection hl with hl
      rw [← hl]
      exact (@pcs_modify _ _ (fun node => { node with next := node.next ++ targets }) fun _ =>
        rfl).trans (hinner.trans hmarked)

theorem buildNodes_spec {f : LowFunc} {pc : BitVec 64} (h : buildNodes f pc = .ok nodes) :
    (∃ i < nodes.length, (node nodes i).pc = pc) ∧
      ∀ i j, j < nodes.length →
        (i ∈ (node nodes j).previous ↔ i < nodes.length ∧ j ∈ (node nodes i).next) := by
  unfold buildNodes at h
  split at h
  · cases h
  next g hg =>
    have hforward : Forward g.nodes := by
      refine foldlM_ok (p := fun g : Graph => Forward g.nodes) ?_ f.blocks ?_ hg
      · intro b a b' hb hadd
        exact foldlM_ok (p := fun g : Graph => Forward g.nodes) (addOp_forward a.id) a.ops hb hadd
      · intro n hn
        cases hn
    split at h
    · cases h
    next hlimits =>
      split at h
      · cases h
      next g' hg' =>
        injection h with h
        have hforward' : Forward g'.nodes :=
          foldlM_ok (p := fun g : Graph => Forward g.nodes) (linkBlock_forward f)
            f.blocks hforward hg'
        have hpcs : g'.nodes.map (·.pc) = g.nodes.map (·.pc) :=
          foldlM_ok (p := fun k : Graph => k.nodes.map (·.pc) = g.nodes.map (·.pc))
            (fun b a b' hb hl => (linkBlock_pcs f b a b' hl).trans hb) f.blocks rfl hg'
        obtain ⟨hlen, hnodes⟩ := addPrevious_range g'.nodes g'.nodes.length
        rw [h] at hlen hnodes
        constructor
        · have hmem : pc ∈ g'.nodes.map (·.pc) := by
            rw [hpcs]
            by_contra hno
            apply hlimits
            refine .inr (all_eq_true.mpr fun n hn => decide_eq_true fun heq => hno ?_)
            exact mem_map.mpr ⟨n, hn, heq⟩
          obtain ⟨n, hn, hpc⟩ := mem_map.mp hmem
          obtain ⟨i, hi, hget⟩ := getElem_of_mem hn
          refine ⟨i, by rw [hlen]; exact hi, ?_⟩
          rw [(hnodes i).1.1]
          rw [node_of_lt hi, hget]
          exact hpc
        · intro i j hj
          have hempty : (node g'.nodes j).previous = [] := by
            rw [hlen] at hj
            rw [node_of_lt hj]
            exact hforward' _ (getElem_mem hj)
          rw [(hnodes j).2, hempty, (hnodes i).1.2.2.1, hlen]
          rw [hlen] at hj
          constructor
          · intro hor
            rcases hor with hor | hor
            · cases hor
            · exact ⟨hor.1, hor.2.1⟩
          · intro hand
            exact .inr ⟨hand.1, hand.2, hj⟩

end

section

variable (tri : TargetRegInfo) (r : NdVar) (nodes : List Node)

def Keeps (b i : Nat) : Prop := (node nodes i).boundary = false ∧ ¬(node nodes i).Writes tri r b

inductive Path (b : Nat) : Nat → Nat → Prop
  | edge {i j : Nat} : j ∈ (node nodes i).next → Path b i j
  | step {i j k : Nat} : j ∈ (node nodes i).next → Keeps tri r nodes b j → Path b j k → Path b i k

variable {tri r nodes}

lemma Path.snoc {j k : Nat} (h : Path tri r nodes b i j) (hj : Keeps tri r nodes b j)
    (hk : k ∈ (node nodes j).next) : Path tri r nodes b i k := by
  induction h with
  | edge hedge => exact .step hedge hj (.edge hk)
  | step hedge hkeep _ ih => exact .step hedge hkeep (ih hj hk)

theorem wanted_uses_iff {s : Nat} : Wanted tri r .uses nodes (node nodes s) i b ↔
    b < r.size ∧ Path tri r nodes b s i := by
  constructor
  · intro h
    induction h with
    | start hi hb => exact ⟨hb, .edge hi⟩
    | step _ hbound hwrites hj ih => exact ⟨ih.1, ih.2.snoc ⟨hbound, hwrites⟩ hj⟩
  · intro h
    obtain ⟨hb, hpath⟩ := h
    -- along the path, from an instruction of which the byte is wanted
    have hrest : ∀ {j i}, Path tri r nodes b j i → Wanted tri r .uses nodes (node nodes s) j b →
        Keeps tri r nodes b j → Wanted tri r .uses nodes (node nodes s) i b := by
      intro j i hpath
      induction hpath with
      | edge hedge => exact fun hw hk => .step hw hk.1 hk.2 hedge
      | step hedge hkeep _ ih => exact fun hw hk => ih (.step hw hk.1 hk.2 hedge) hkeep
    cases hpath with
    | edge hedge => exact .start hedge hb
    | step hedge hkeep hpath => exact hrest hpath (.start hedge hb) hkeep

theorem wanted_definitions_iff (hedges : ∀ i j, j < nodes.length → (i ∈ (node nodes j).previous ↔
      i < nodes.length ∧ j ∈ (node nodes i).next)) {s : Nat} (hs : s < nodes.length) :
    Wanted tri r .definitions nodes (node nodes s) i b ↔ b < r.size ∧ i < nodes.length ∧
      Path tri r nodes b i s := by
  constructor
  · intro h
    induction h with
    | start hi hb =>
      have hand := (hedges _ s hs).mp hi
      exact ⟨hb, hand.1, .edge hand.2⟩
    | @step i j b _ hbound hwrites hj ih =>
      have hand := (hedges j i ih.2.1).mp hj
      exact ⟨ih.1, hand.1, .step hand.2 ⟨hbound, hwrites⟩ ih.2.2⟩
  · intro h
    obtain ⟨hb, hi, hpath⟩ := h
    induction hpath with
    | edge hedge => exact .start ((hedges _ _ hs).mpr ⟨hi, hedge⟩) hb
    | @step i j k hedge hkeep hpath ih =>
      have hj : j < nodes.length := by
        by_contra hno
        -- an instruction that is not there has no edges
        have hnone : (node nodes j).next = [] := by
          rw [node_of_ge (not_lt.mp hno)]
          rfl
        cases hpath with
        | edge he => rw [hnone] at he; cases he
        | step he _ _ => rw [hnone] at he; cases he
      exact .step (ih hs hj) hkeep.1 hkeep.2 ((hedges i j hj).mpr ⟨hi, hedge⟩)

end

def Node.Reads (tri : TargetRegInfo) (r : NdVar) (n : Node) (b : Nat) : Prop :=
  readsFirst tri r n.ops b = true

section

variable {tri : TargetRegInfo} {r : NdVar}

lemma Node.Writes.lt {n : Node} (h : n.Writes tri r b) : b < r.size := by
  obtain ⟨o, -, ho⟩ := any_eq_true.mp h
  exact of_decide_eq_true (Bool.and_eq_true _ _ ▸ ho).1

lemma readsFirst_lt {ops : List LowOp} (h : readsFirst tri r ops b = true) : b < r.size := by
  induction ops with
  | nil => cases h
  | cons o ops ih =>
    unfold readsFirst at h
    rw [Bool.or_eq_true, Bool.and_eq_true] at h
    rcases h with h | h
    · unfold readsByte at h
      rw [Bool.and_eq_true] at h
      exact of_decide_eq_true h.1
    · exact ih h.2

lemma not_hasSite_empty {a : BitVec 64} {k : SiteKind} : ¬HasSite {} a k := by
  intro h
  obtain ⟨s, hs, -⟩ := h
  cases hs

lemma walking_start {kind : Kind} {nodes : List Node} {selected : Node} {start : Result}
    (hr : r.size ≤ 64) :
    Walking tri r kind nodes selected start ((beyond kind selected).reverse.map (·, allBytes r))
      [] start := by
  refine ⟨?_, ?_, ?_, ?_⟩
  · intro i live hor b hb
    rcases hor with hor | hor
    · obtain ⟨j, hj, heq⟩ := mem_map.mp hor
      injection heq with hji hlive
      subst hji hlive
      rw [getLsbD_allBytes hr] at hb
      exact .start (mem_reverse.mp hj) (of_decide_eq_true hb)
    · cases hor
  · intro i hi
    exact .inl (mem_map.mpr ⟨i, mem_reverse.mpr hi, rfl⟩)
  · intro i live hmem
    cases hmem
  · intro a k
    exact ⟨.inl, fun h => h.elim id fun hcon => by obtain ⟨i, live, hmem, -⟩ := hcon; cases hmem⟩

lemma queryRegisterFlow_nodes {f : LowFunc} {pc : BitVec 64} {kind : Kind} {out : Result}
    (h : queryRegisterFlow f tri pc r kind = .ok out) :
    ∃ nodes s, buildNodes f pc = .ok nodes ∧ s < nodes.length ∧ (node nodes s).pc = pc ∧
        (kind = .definitions →
        (∀ a, HasSite out a .definition ↔ ∃ i b, i < nodes.length ∧ (node nodes i).pc = a ∧
          (node nodes i).boundary = false ∧ (node nodes i).Writes tri r b ∧
            Path tri r nodes b i s) ∧
        ∀ a, HasSite out a .boundary ↔ (a = pc ∧ isEntry (node nodes s) = true) ∨
          ∃ i b, b < r.size ∧ i < nodes.length ∧ (node nodes i).pc = a ∧ Path tri r nodes b i s ∧
            ((node nodes i).boundary = true ∨
              (¬(node nodes i).Writes tri r b ∧ isEntry (node nodes i) = true))) ∧
      (kind = .uses → (∀ a, HasSite out a .use ↔ (node nodes s).boundary = false ∧
          ∃ i b, (node nodes i).pc = a ∧
          (node nodes i).boundary = false ∧ (node nodes i).Reads tri r b ∧ Path tri r nodes b s i) ∧
        ∀ a, HasSite out a .boundary ↔ (a = pc ∧ (node nodes s).boundary = true) ∨
          ((node nodes s).boundary = false ∧ ∃ i b, b < r.size ∧ (node nodes i).pc = a ∧
            (node nodes i).boundary = true ∧ Path tri r nodes b s i)) := by
  unfold queryRegisterFlow at h
  split at h
  · cases h
  rename_i hlimits
  have hsize : 0 < r.size := Nat.pos_of_ne_zero fun hzero => hlimits (.inr (.inl hzero))
  have hr : r.size ≤ 64 := not_lt.mp fun hlt => hlimits (.inr (.inr (.inl hlt)))
  split at h
  · cases h
  rename_i nodes hnodes
  obtain ⟨⟨i₀, hi₀, hpc₀⟩, hedges⟩ := buildNodes_spec hnodes
  have hex : ∃ n ∈ nodes, decide (n.pc = pc) = true := by
    rw [node_of_lt hi₀] at hpc₀
    exact ⟨nodes[i₀], getElem_mem hi₀, decide_eq_true hpc₀⟩
  have hs := findIdx_lt_length_of_exists hex
  have hpc : (node nodes (nodes.findIdx (·.pc = pc))).pc = pc := by
    rw [node_of_lt hs]
    exact of_decide_eq_true (findIdx_getElem (w := hs))
  refine ⟨nodes, nodes.findIdx (·.pc = pc), hnodes, hs, hpc, ?_, ?_⟩
  · intro hkind
    subst hkind
    have hsites := walk_sites hsize hr (walking_start hr) h
    constructor
    · intro a
      rw [hsites]
      constructor
      · intro hor
        rcases hor with hor | ⟨i, b, hw, ha, hemit⟩
        · split at hor
          · rcases hasSite_site.mp hor with hcon | hcon
            · exact absurd hcon not_hasSite_empty
            · cases hcon.2
          · exact absurd hor not_hasSite_empty
        · have hpath := (wanted_definitions_iff hedges hs).mp hw
          exact ⟨i, b, hpath.2.1, ha.symm, hemit.1, hemit.2.2, hpath.2.2⟩
      · intro hdef
        obtain ⟨i, b, hi, ha, hbound, hwrites, hpath⟩ := hdef
        exact .inr ⟨i, b, (wanted_definitions_iff hedges hs).mpr ⟨hwrites.lt, hi, hpath⟩, ha.symm,
          hbound, rfl, hwrites⟩
    · intro a
      rw [hsites]
      have hstart : HasSite (if isEntry (node nodes (nodes.findIdx (·.pc = pc))) = true then
          ({} : Result).site pc .boundary "Entry or exceptional register value is unknown" else {})
            a .boundary ↔
          a = pc ∧ isEntry (node nodes (nodes.findIdx (·.pc = pc))) = true := by
        split
        next hentry =>
          rw [hasSite_site]
          exact ⟨fun hor => ⟨(hor.resolve_left not_hasSite_empty).1, hentry⟩,
            fun hand => .inr ⟨hand.1, rfl⟩⟩
        next hentry =>
          exact ⟨fun hcon => absurd hcon not_hasSite_empty, fun hand => absurd hand.2 hentry⟩
      apply or_congr hstart
      constructor
      · intro hw
        obtain ⟨i, b, hw, ha, hemit⟩ := hw
        have hpath := (wanted_definitions_iff hedges hs).mp hw
        exact ⟨i, b, hpath.1, hpath.2.1, ha.symm, hpath.2.2, hemit.imp id fun hand => hand.2⟩
      · intro hw
        obtain ⟨i, b, hb, hi, ha, hpath, hemit⟩ := hw
        exact ⟨i, b, (wanted_definitions_iff hedges hs).mpr ⟨hb, hi, hpath⟩, ha.symm,
          hemit.imp id fun hand => ⟨rfl, hand⟩⟩
  · intro hkind
    subst hkind
    dsimp only at h
    split at h
    next hbound =>
      injection h with h
      have hbound' : (node nodes (nodes.findIdx (·.pc = pc))).boundary = true := hbound
      constructor
      · intro a
        rw [← h, hasSite_site, hbound']
        constructor
        · intro hor
          rcases hor with hcon | hcon
          · exact absurd hcon not_hasSite_empty
          · cases hcon.2
        · intro hand
          cases hand.1
      · intro a
        rw [← h, hasSite_site, hbound']
        constructor
        · intro hor
          exact .inl ⟨(hor.resolve_left not_hasSite_empty).1, rfl⟩
        · intro hor
          rcases hor with hand | hand
          · exact .inr ⟨hand.1, rfl⟩
          · cases hand.1
    next hbound =>
      have hbound' : (node nodes (nodes.findIdx (·.pc = pc))).boundary = false :=
        Bool.eq_false_of_not_eq_true hbound
      have hsites := walk_sites hsize hr (walking_start hr) h
      constructor
      · intro a
        rw [hsites]
        constructor
        · intro hor
          rcases hor with hcon | ⟨i, b, hw, ha, hemit⟩
          · exact absurd hcon not_hasSite_empty
          · exact ⟨hbound', i, b, ha.symm, hemit.1, hemit.2.2, (wanted_uses_iff.mp hw).2⟩
        · intro hand
          obtain ⟨-, i, b, ha, hb, hreads, hpath⟩ := hand
          exact .inr ⟨i, b, wanted_uses_iff.mpr ⟨readsFirst_lt hreads, hpath⟩, ha.symm, hb,
            rfl, hreads⟩
      · intro a
        rw [hsites, hbound']
        constructor
        · intro hor
          rcases hor with hcon | ⟨i, b, hw, ha, hemit⟩
          · exact absurd hcon not_hasSite_empty
          · have hpath := wanted_uses_iff.mp hw
            refine .inr ⟨rfl, i, b, hpath.1, ha.symm, ?_, hpath.2⟩
            rcases hemit with hemit | hemit
            · exact hemit
            · cases hemit.1
        · intro hor
          rcases hor with hand | hand
          · cases hand.2
          · obtain ⟨-, i, b, hb, ha, hbd, hpath⟩ := hand
            exact .inr ⟨i, b, wanted_uses_iff.mpr ⟨hb, hpath⟩, ha.symm, .inl hbd⟩

end

end NeverD.Ir.RegisterFlow
