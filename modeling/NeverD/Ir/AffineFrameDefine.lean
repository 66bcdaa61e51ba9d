import NeverD.Ir.AffineFrameSolver

namespace NeverD.Ir.AffineFrameState
open List Function Nat NeverD.Ir.Frame AffineFrameState

open NeverD.Lib

inductive Stands (s : AffineFrameState) : Result → Frame.Input → Prop
  | invalid : Stands s .invalid .invalid
  | value {c : Nat × Int} {d : Frame.Coordinate} : Shows s.anchors c d →
      Stands s (.value c) (.value d)
  | reference {n : Nat} : n < s.size → Stands s (.reference n) (.reference n)

structure Later (s s' : AffineFrameState) : Prop where
  anchors : s.anchors <+: s'.anchors
  size : s.size ≤ s'.size

lemma Later.refl (s : AffineFrameState) : Later s s := ⟨prefix_rfl, le_rfl⟩

lemma Later.trans {s t u : AffineFrameState} (h : Later s t) (h' : Later t u) : Later s u :=
  ⟨h.anchors.trans h'.anchors, h.size.trans h'.size⟩

lemma Grows.later {s s' : AffineFrameState} (h : Grows s s') : Later s s' :=
  ⟨h.anchors, le_of_eq h.size.symm⟩

lemma Stands.mono {s s' : AffineFrameState} (h : Later s s') {x : Result} {i : Input}
    (hx : Stands s x i) : Stands s' x i := by
  cases hx with
  | invalid => exact .invalid
  | value hc => exact .value (hc.mono h.anchors)
  | reference hn => exact .reference (lt_of_lt_of_le hn h.size)

variable {equations : List Frame.Equation} {s : AffineFrameState}
    {cur : Nat → Flat Frame.Coordinate}

lemma initial_snoc (eq : Equation) (n : Nat) : initial (equations ++ [eq]) n =
    if eq.target = n then eq.constants.foldl Flat.meet (initial equations n)
      else initial equations n := by
  unfold initial
  rw [filter_append, flatMap_append, foldl_append]
  by_cases hn : eq.target = n
  · have hone : [eq].filter (·.target = n) = [eq] := by simp [hn]
    rw [if_pos hn, hone, flatMap_cons, flatMap_nil, append_nil]
  · have hnone : [eq].filter (·.target = n) = [] := by simp [hn]
    rw [if_neg hn, hnone]
    rfl

lemma edge_snoc {eq : Equation} {m : Nat} {u : User} : Edge (equations ++ [eq]) m u ↔
    Edge equations m u ∨ (u = ⟨eq.target, eq.step⟩ ∧ .reference m ∈ eq.inputs) := by
  constructor
  · intro h
    obtain ⟨eq', heq', hu, hm⟩ := h
    rcases mem_append.mp heq' with heq' | heq'
    · exact .inl ⟨eq', heq', hu, hm⟩
    · rw [mem_singleton.mp heq'] at hu hm
      exact .inr ⟨hu, hm⟩
  · intro h
    rcases h with ⟨eq', heq', hu, hm⟩ | ⟨hu, hm⟩
    · exact ⟨eq', mem_append_left _ heq', hu, hm⟩
    · exact ⟨eq, mem_append_right _ (mem_singleton_self eq), hu, hm⟩

variable {e : FrameStep} {node : Nat}

theorem solution_snoc {k : Nat} {old new : List Input} (hnode : k ≤ node)
    (h : (system (equations ++ [⟨node, old, e⟩])).Solution (· < k) cur) :
    (system (equations ++ [⟨node, new, e⟩])).Solution (· < k) cur := by
  apply h.of_agree
  · intro n hn
    have hne : node ≠ n := ne_of_gt (lt_of_lt_of_le hn hnode)
    show initial _ n = initial _ n
    rw [initial_snoc, initial_snoc, if_neg hne, if_neg hne]
  · intro m n f hn
    have hne : node ≠ n := ne_of_gt (lt_of_lt_of_le hn hnode)
    rw [system_edge, system_edge]
    have hsame : ∀ u : User, u.node = n →
        (Edge (equations ++ [⟨node, old, e⟩]) m u ↔ Edge (equations ++ [⟨node, new, e⟩]) m u) := by
      intro u hu
      rw [edge_snoc, edge_snoc]
      constructor
      · intro hor
        rcases hor with hor | hor
        · exact .inl hor
        · exact absurd ((congrArg User.node hor.1).symm.trans hu) hne
      · intro hor
        rcases hor with hor | hor
        · exact .inl hor
        · exact absurd ((congrArg User.node hor.1).symm.trans hu) hne
    constructor
    · intro hu
      obtain ⟨u, hu, hun, hf⟩ := hu
      exact ⟨u, (hsame u hun).mp hu, hun, hf⟩
    · intro hu
      obtain ⟨u, hu, hun, hf⟩ := hu
      exact ⟨u, (hsame u hun).mpr hu, hun, hf⟩

lemma solution_zero (cur : Nat → Flat Coordinate) : (system equations).Solution (· < 0) cur :=
  ⟨⟨fun _ hn => absurd hn (Nat.not_lt_zero _), fun _ _ _ hn => absurd hn (Nat.not_lt_zero _)⟩,
    fun _ hn => absurd hn (Nat.not_lt_zero _), fun _ hn => absurd hn (Nat.not_lt_zero _)⟩

lemma Keeps.reference (h : Keeps s equations cur) : Keeps s.reference.1 equations cur ∧
    Later s s.reference.1 := by
  have hno : ∀ eq ∈ equations, eq.target ≠ s.size :=
    fun eq heq => Nat.ne_of_lt (h.stores.inside eq heq).1
  refine ⟨⟨⟨h.stores.interned, ?_, ?_, h.stores.legal, ?_, ?_⟩, ?_, ?_, ?_, h.solution, h.pending⟩,
    ⟨prefix_rfl, le_succ _⟩⟩
  · intro m u
    show u ∈ (Function.update s.nodes s.size {} m).users ↔ _
    by_cases hm : m = s.size
    · subst hm
      rw [update_self]
      constructor
      · intro hu
        cases hu
      · intro hu
        exact absurd (h.stores.edge_lt hu).1 (lt_irrefl _)
    · rw [update_of_ne hm]
      exact h.stores.users m u
  · intro n
    show Flat.Rel (Shows s.anchors) (Function.update s.nodes s.size {} n).initial _
    by_cases hn : n = s.size
    · subst hn
      rw [update_self, initial_undefined hno]
      exact .unknown
    · rw [update_of_ne hn]
      exact h.stores.initial n
  · intro eq heq
    have hin := h.stores.inside eq heq
    exact ⟨lt_succ_of_lt hin.1, fun m hm => lt_succ_of_lt (hin.2 m hm)⟩
  · intro n
    show (Function.update s.nodes s.size {} n).defined = true ↔ _
    by_cases hn : n = s.size
    · subst hn
      rw [update_self]
      constructor
      · intro hd
        cases hd
      · intro hd
        obtain ⟨eq, heq, htarget⟩ := hd
        exact absurd htarget (hno eq heq)
    · rw [update_of_ne hn]
      exact h.stores.defined n
  · intro n
    show Flat.Rel (Shows s.anchors) (Function.update s.nodes s.size {} n).current _
    by_cases hn : n = s.size
    · subst hn
      rw [update_self, h.outside s.size le_rfl]
      exact .unknown
    · rw [update_of_ne hn]
      exact h.current n
  · intro n hn
    exact h.outside n (le_of_succ_le hn)
  · exact h.solved.trans (le_succ _)

lemma Keeps.defineNode (h : Keeps s equations cur) (hnode : node < s.size) (he : e.Legal) :
    Keeps (s.defineNode node) (equations ++ [⟨node, [], e⟩]) cur ∧
      (s.defineNode node).solvedCount ≤ node ∧ Later s (s.defineNode node) := by
  have hedge : ∀ {m : Nat} {u : User}, Edge (equations ++ [⟨node, [], e⟩]) m u ↔
      Edge equations m u := by
    intro m u
    rw [edge_snoc]
    exact ⟨fun hor => hor.elim id fun hcon => (by cases hcon.2), .inl⟩
  have hinitial : ∀ n, Frame.initial (equations ++ [⟨node, [], e⟩]) n =
      Frame.initial equations n := by
    intro n
    rw [initial_snoc]
    split <;> rfl
  have hsame : ∀ n, ((s.defineNode node).nodes n).users = (s.nodes n).users ∧
      ((s.defineNode node).nodes n).initial = (s.nodes n).initial ∧
      ((s.defineNode node).nodes n).current = (s.nodes n).current ∧
      (((s.defineNode node).nodes n).defined = true ↔ (s.nodes n).defined = true ∨ n = node) := by
    have hnodes : (s.defineNode node).nodes = Function.update s.nodes node { s.nodes node with
        defined := true } := by
      unfold AffineFrameState.defineNode
      split <;> rfl
    intro n
    rw [hnodes]
    by_cases hn : n = node
    · subst hn
      rw [update_self]
      exact ⟨rfl, rfl, rfl, fun _ => .inr rfl, fun _ => rfl⟩
    · rw [update_of_ne hn]
      exact ⟨rfl, rfl, rfl, .inl, fun hor => hor.resolve_right hn⟩
  have hanchors : (s.defineNode node).anchors = s.anchors := by
    unfold AffineFrameState.defineNode
    split <;> rfl
  have hsize : (s.defineNode node).size = s.size := by
    unfold AffineFrameState.defineNode
    split <;> rfl
  have hstores : Stores (s.defineNode node) (equations ++ [⟨node, [], e⟩]) := by
    refine ⟨hanchors ▸ h.stores.interned, ?_, ?_, ?_, ?_, ?_⟩
    · intro m u
      rw [(hsame m).1, hedge]
      exact h.stores.users m u
    · intro n
      rw [(hsame n).2.1, hinitial, hanchors]
      exact h.stores.initial n
    · intro eq heq
      rcases mem_append.mp heq with heq | heq
      · exact h.stores.legal eq heq
      · rw [mem_singleton.mp heq]
        exact ⟨he, fun c hc => by cases hc⟩
    · intro eq heq
      rw [hsize]
      rcases mem_append.mp heq with heq | heq
      · exact h.stores.inside eq heq
      · rw [mem_singleton.mp heq]
        exact ⟨hnode, fun m hm => by cases hm⟩
    · intro n
      rw [(hsame n).2.2.2, h.stores.defined n]
      constructor
      · intro hor
        rcases hor with ⟨eq, heq, htarget⟩ | rfl
        · exact ⟨eq, mem_append_left _ heq, htarget⟩
        · exact ⟨⟨n, [], e⟩, mem_append_right _ (mem_singleton_self _), rfl⟩
      · intro hex
        obtain ⟨eq, heq, htarget⟩ := hex
        rcases mem_append.mp heq with heq | heq
        · exact .inl ⟨eq, heq, htarget⟩
        · rw [mem_singleton.mp heq] at htarget
          exact .inr htarget.symm
  have hcurrent : ∀ n, Flat.Rel (Shows (s.defineNode node).anchors)
      ((s.defineNode node).nodes n).current (cur n) := by
    intro n
    rw [(hsame n).2.2.1, hanchors]
    exact h.current n
  have houtside : ∀ n, (s.defineNode node).size ≤ n → cur n = .unknown := by
    intro n hn
    exact h.outside n (hsize ▸ hn)
  have hlater : Later s (s.defineNode node) := ⟨hanchors ▸ prefix_rfl, le_of_eq hsize.symm⟩
  by_cases hlt : node < s.solvedCount
  · -- a node that was queried: everything is solved again
    have hcount : (s.defineNode node).solvedCount = 0 ∧ (s.defineNode node).pending = [] := by
      unfold AffineFrameState.defineNode
      rw [if_pos hlt]
      exact ⟨rfl, rfl⟩
    refine ⟨⟨hstores, hcurrent, houtside, ?_, ?_, ?_⟩, ?_, hlater⟩
    · rw [hcount.1]
      exact Nat.zero_le _
    · rw [hcount.1]
      exact solution_zero cur
    · intro m u
      rw [hcount.1, hcount.2]
      exact ⟨fun hmem => (by cases hmem), fun hu => absurd hu.2.1 (Nat.not_lt_zero _)⟩
    · rw [hcount.1]
      exact Nat.zero_le _
  · have hcount : (s.defineNode node).solvedCount = s.solvedCount ∧
        (s.defineNode node).pending = s.pending := by
      unfold AffineFrameState.defineNode
      rw [if_neg hlt]
      exact ⟨rfl, rfl⟩
    refine ⟨⟨hstores, hcurrent, houtside, ?_, ?_, ?_⟩, ?_, hlater⟩
    · rw [hcount.1, hsize]
      exact h.solved
    · rw [hcount.1]
      apply h.solution.of_agree
      · intro n _
        exact (hinitial n).symm
      · intro m n f _
        rw [system_edge, system_edge]
        simp only [hedge]
    · intro m u
      rw [hcount.1, hcount.2, hedge]
      exact h.pending m u
    · rw [hcount.1]
      exact not_lt.mp hlt

lemma constants_snoc (node : Nat) (done : List Input) (i : Input) (e : FrameStep) :
    (⟨node, done ++ [i], e⟩ : Equation).constants =
      (⟨node, done, e⟩ : Equation).constants ++ (constantOf e i).toList := by
  unfold Equation.constants
  rw [filterMap_append]
  cases h : constantOf e i with
  | none => rw [filterMap_cons_none h]; rfl
  | some c => rw [filterMap_cons_some h]; rfl

variable {done : List Frame.Input} {i : Frame.Input}

lemma legal_snoc
    (h : ∀ eq ∈ equations ++ [⟨node, done, e⟩], Equation.Legal eq)
    (hi : ∀ c, i = .value c → c.1.Legal) :
    ∀ eq ∈ equations ++ [⟨node, done ++ [i], e⟩], Equation.Legal eq := by
  intro eq heq
  rcases mem_append.mp heq with heq | heq
  · exact h eq (mem_append_left _ heq)
  · have hold := h ⟨node, done, e⟩ (mem_append_right _ (mem_singleton_self _))
    rw [mem_singleton.mp heq]
    refine ⟨hold.1, ?_⟩
    intro c hc
    rcases mem_append.mp hc with hc | hc
    · exact hold.2 c hc
    · exact hi c (mem_singleton.mp hc).symm

lemma inside_snoc {size : Nat}
    (h : ∀ eq ∈ equations ++ [⟨node, done, e⟩], eq.target < size ∧ ∀ m, .reference m ∈ eq.inputs →
    m < size) (hi : ∀ m, i = .reference m → m < size) :
    ∀ eq ∈ equations ++ [⟨node, done ++ [i], e⟩], eq.target < size ∧ ∀ m, .reference m ∈ eq.inputs →
      m < size := by
  intro eq heq
  rcases mem_append.mp heq with heq | heq
  · exact h eq (mem_append_left _ heq)
  · have hold := h ⟨node, done, e⟩ (mem_append_right _ (mem_singleton_self _))
    rw [mem_singleton.mp heq]
    refine ⟨hold.1, ?_⟩
    intro m hm
    rcases mem_append.mp hm with hm | hm
    · exact hold.2 m hm
    · exact hi m (mem_singleton.mp hm).symm

lemma defined_snoc {n : Nat} {old new : List Input} :
    (∃ eq ∈ equations ++ [⟨node, old, e⟩], eq.target = n) ↔ ∃ eq ∈ equations ++ [⟨node, new, e⟩],
      eq.target = n := by
  simp only [mem_append, mem_singleton, or_and_right, exists_or, exists_eq_left]

lemma edge_more {m : Nat} {u : User} : Edge (equations ++ [⟨node, done ++ [i], e⟩]) m u ↔
      Edge (equations ++ [⟨node, done, e⟩]) m u ∨ (u = ⟨node, e⟩ ∧ i = .reference m) := by
  rw [edge_snoc, edge_snoc]
  rw [mem_append, mem_singleton]
  constructor
  · intro h
    rcases h with h | ⟨hu, h | h⟩
    · exact .inl (.inl h)
    · exact .inl (.inr ⟨hu, h⟩)
    · exact .inr ⟨hu, h.symm⟩
  · intro h
    rcases h with (h | ⟨hu, h⟩) | ⟨hu, h⟩
    · exact .inl h
    · exact .inr ⟨hu, .inl h⟩
    · exact .inr ⟨hu, .inr h.symm⟩

lemma Keeps.defineReference
    (h : Keeps s (equations ++ [⟨node, done, e⟩]) cur) (hnode : s.solvedCount ≤ node) {m : Nat}
    (hm : m < s.size) :
    Keeps (defineInput ⟨node, e⟩ s (.reference m))
      (equations ++ [⟨node, done ++ [.reference m], e⟩]) cur := by
  have hinitial : ∀ n, initial (equations ++ [⟨node, done ++ [.reference m], e⟩]) n =
      initial (equations ++ [⟨node, done, e⟩]) n := by
    intro n
    rw [initial_snoc, initial_snoc, constants_snoc]
    dsimp only [constantOf, Option.toList]
    rw [append_nil]
  have hnodes : ∀ n, ((defineInput ⟨node, e⟩ s (.reference m)).nodes n).initial =
      (s.nodes n).initial ∧
      ((defineInput ⟨node, e⟩ s (.reference m)).nodes n).current = (s.nodes n).current ∧
      ((defineInput ⟨node, e⟩ s (.reference m)).nodes n).defined = (s.nodes n).defined ∧
      ((defineInput ⟨node, e⟩ s (.reference m)).nodes n).users =
        if n = m then (s.nodes n).users ++ [⟨node, e⟩] else (s.nodes n).users := by
    intro n
    unfold defineInput
    dsimp only
    by_cases hn : n = m
    · subst hn
      rw [update_self, if_pos rfl]
      exact ⟨rfl, rfl, rfl, rfl⟩
    · rw [update_of_ne hn, if_neg hn]
      exact ⟨rfl, rfl, rfl, rfl⟩
  refine ⟨⟨h.stores.interned, ?_, ?_, legal_snoc h.stores.legal (fun c hc => by cases hc),
    inside_snoc h.stores.inside (fun k hk => by cases hk; exact hm), ?_⟩, ?_, h.outside, h.solved,
    solution_snoc hnode h.solution, ?_⟩
  · intro k u
    rw [(hnodes k).2.2.2, edge_more, ← h.stores.users k u]
    by_cases hk : k = m
    · subst hk
      rw [if_pos rfl, mem_append, mem_singleton]
      exact ⟨fun hor => hor.imp id fun hu => ⟨hu, rfl⟩, fun hor => hor.imp id fun hu => hu.1⟩
    · rw [if_neg hk]
      exact ⟨.inl, fun hor => hor.resolve_right fun hu => hk (by cases hu.2; rfl)⟩
  · intro n
    rw [(hnodes n).1, hinitial]
    exact h.stores.initial n
  · intro n
    rw [(hnodes n).2.2.1, h.stores.defined n]
    exact defined_snoc
  · intro n
    rw [(hnodes n).2.1]
    exact h.current n
  · intro k u
    rw [edge_more]
    show ⟨k, u⟩ ∈ (if m < s.solvedCount then s.pending ++ [⟨m, ⟨node, e⟩⟩] else s.pending) ↔
      _ ∧ k < s.solvedCount ∧ s.solvedCount ≤ u.node
    by_cases hlt : m < s.solvedCount
    · rw [if_pos hlt, mem_append, mem_singleton, h.pending k u]
      constructor
      · intro hor
        rcases hor with hor | hor
        · exact ⟨.inl hor.1, hor.2⟩
        · injection hor with hk hu
          subst hk hu
          exact ⟨.inr ⟨rfl, rfl⟩, hlt, hnode⟩
      · intro hand
        obtain ⟨hor | ⟨hu, hk⟩, hrest⟩ := hand
        · exact .inl ⟨hor, hrest⟩
        · injection hk with hk
          subst hk hu
          exact .inr rfl
    · rw [if_neg hlt, h.pending k u]
      constructor
      · intro hand
        exact ⟨.inl hand.1, hand.2⟩
      · intro hand
        obtain ⟨hor | ⟨hu, hk⟩, hrest⟩ := hand
        · exact ⟨hor, hrest⟩
        · cases hk
          exact absurd hrest.1 hlt

lemma Keeps.defineConstant
    (h : Keeps s (equations ++ [⟨node, done, e⟩]) cur) (hnode : s.solvedCount ≤ node) {x : Result}
    (hx : Stands s x i) (hi : ∀ m, x ≠ .reference m) :
    Keeps (defineInput ⟨node, e⟩ s x) (equations ++ [⟨node, done ++ [i], e⟩]) cur ∧
      s.anchors <+: (defineInput ⟨node, e⟩ s x).anchors := by
  have he : e.Legal := (h.stores.legal _ (mem_append_right _ (mem_singleton_self _))).1
  -- the constant and the state that the step begins with
  have hstate : ∃ t, Flat.Rel (Shows s.anchors) (stateOf x) t ∧ t ≠ .unknown ∧
      constantOf e i = some (.pass (transfer e) t) := by
    cases hx with
    | invalid => exact ⟨.invalid, .invalid, fun hcon => (by cases hcon), rfl⟩
    | value hc => exact ⟨.value _, .value hc, fun hcon => (by cases hcon), rfl⟩
    | reference hn => exact absurd rfl (hi _)
  have hnotref : ∀ m, i ≠ .reference m := by
    intro m hm
    cases hx with
    | invalid => cases hm
    | value hc => cases hm
    | reference hn => exact absurd rfl (hi _)
  have hlegal : ∀ c, i = .value c → c.1.Legal := by
    intro c hc
    cases hx with
    | invalid => cases hc
    | reference hn => cases hc
    | value hshow =>
      injection hc with hc
      rw [← hc, hshow.2]
      exact h.stores.interned.term_legal _ hshow.1
  obtain ⟨t, hrel, hne, hconst⟩ := hstate
  obtain ⟨hpre, hint, hstep⟩ := step_spec h.stores.interned hrel hne he
  have hdef : defineInput ⟨node, e⟩ s x = { s with
      anchors := (step s.anchors (stateOf x) e).1
      nodes := Function.update s.nodes node
        { s.nodes node with
            initial := (s.nodes node).initial.meet (step s.anchors (stateOf x) e).2 } } := by
    rw [← meet_fst]
    cases x with
    | invalid => rfl
    | value c => rfl
    | reference m => exact absurd rfl (hi m)
  rw [hdef]
  have hnodes : ∀ n, (Function.update s.nodes node { s.nodes node with
      initial := (s.nodes node).initial.meet (step s.anchors (stateOf x) e).2 } n).users =
        (s.nodes n).users ∧
      (Function.update s.nodes node { s.nodes node with
        initial := (s.nodes node).initial.meet (step s.anchors (stateOf x) e).2 } n).current =
          (s.nodes n).current ∧
      (Function.update s.nodes node { s.nodes node with
        initial := (s.nodes node).initial.meet (step s.anchors (stateOf x) e).2 } n).defined =
          (s.nodes n).defined := by
    intro n
    by_cases hn : n = node
    · subst hn
      rw [update_self]
      exact ⟨rfl, rfl, rfl⟩
    · rw [update_of_ne hn]
      exact ⟨rfl, rfl, rfl⟩
  have hedge : ∀ {m : Nat} {u : User}, Edge (equations ++ [⟨node, done ++ [i], e⟩]) m u ↔
      Edge (equations ++ [⟨node, done, e⟩]) m u := by
    intro m u
    rw [edge_more]
    exact ⟨fun hor => hor.resolve_right fun hcon => hnotref m hcon.2, .inl⟩
  refine ⟨⟨⟨hint, ?_, ?_, legal_snoc h.stores.legal hlegal,
    inside_snoc h.stores.inside (fun m hm => absurd hm (hnotref m)), ?_⟩, ?_, h.outside, h.solved,
    solution_snoc hnode h.solution, ?_⟩, hpre⟩
  · intro m u
    rw [(hnodes m).1, hedge]
    exact h.stores.users m u
  · intro n
    rw [initial_snoc, constants_snoc, hconst]
    have hinit := (h.stores.initial n).mono (Shows.mono hpre)
    rw [initial_snoc] at hinit
    by_cases hn : n = node
    · subst hn
      dsimp only at hinit ⊢
      rw [if_pos rfl] at hinit
      rw [update_self, if_pos rfl, foldl_append]
      exact hinit.meet hint.shows_iff hstep
    · dsimp only at hinit ⊢
      rw [if_neg fun heq => hn heq.symm] at hinit
      rw [update_of_ne hn, if_neg fun heq => hn heq.symm]
      exact hinit
  · intro n
    rw [(hnodes n).2.2, h.stores.defined n]
    exact defined_snoc
  · intro n
    rw [(hnodes n).2.1]
    exact (h.current n).mono (.mono hpre)
  · intro m u
    rw [hedge]
    exact h.pending m u

lemma Keeps.defineFold {xs : List Result} {is : List Input}
    (hxs : List.Forall₂ (Stands s) xs is) : ∀ {done : List Input},
      Keeps s (equations ++ [⟨node, done, e⟩]) cur → s.solvedCount ≤ node →
      Keeps (xs.foldl (defineInput ⟨node, e⟩) s) (equations ++ [⟨node, done ++ is, e⟩]) cur ∧
        Later s (xs.foldl (defineInput ⟨node, e⟩) s) ∧
          (xs.foldl (defineInput ⟨node, e⟩) s).size = s.size := by
  induction xs generalizing s is with
  | nil =>
    cases hxs
    intro done h _
    rw [append_nil]
    exact ⟨h, .refl s, rfl⟩
  | cons x xs ih =>
    cases hxs with
    | @cons _ i _ is hx hxs =>
      intro done h hnode
      have hone : Keeps (defineInput ⟨node, e⟩ s x) (equations ++ [⟨node, done ++ [i], e⟩]) cur ∧
          Later s (defineInput ⟨node, e⟩ s x) ∧ (defineInput ⟨node, e⟩ s x).size = s.size ∧
          (defineInput ⟨node, e⟩ s x).solvedCount = s.solvedCount := by
        cases x with
        | reference m =>
          cases hx with
          | reference hm =>
            exact ⟨h.defineReference hnode hm, ⟨prefix_rfl, le_rfl⟩, rfl, rfl⟩
        | invalid =>
          obtain ⟨hholds, hpre⟩ := h.defineConstant hnode hx fun m hm => by cases hm
          exact ⟨hholds, ⟨hpre, le_rfl⟩, rfl, rfl⟩
        | value c =>
          obtain ⟨hholds, hpre⟩ := h.defineConstant hnode hx fun m hm => by cases hm
          exact ⟨hholds, ⟨hpre, le_rfl⟩, rfl, rfl⟩
      obtain ⟨hholds, hlater, hsize, hcount⟩ := hone
      have hrest := ih (hxs.imp fun _ _ hst => hst.mono hlater) hholds (hcount ▸ hnode)
      rw [foldl_cons]
      have hlist : done ++ i :: is = done ++ [i] ++ is := by rw [append_assoc]; rfl
      rw [hlist]
      exact ⟨hrest.1, hlater.trans hrest.2.1, hrest.2.2.trans hsize⟩

lemma Keeps.defineInputs (h : Keeps s equations cur) (hnode : node < s.size)
    (hdefined : (s.nodes node).defined = false) (he : e.Legal) {xs : List Result}
    {is : List Frame.Input} (hxs : List.Forall₂ (Stands s) xs is) :
    ∃ s', s.defineInputs (.reference node) xs e = some (s', true) ∧
      Keeps s' (equations ++ [⟨node, is, e⟩]) cur ∧ Later s s' ∧ s'.size = s.size := by
  obtain ⟨hbegin, hcount, hlater⟩ := h.defineNode hnode he
  have hsize : (s.defineNode node).size = s.size := by
    unfold AffineFrameState.defineNode
    dsimp only
    split <;> rfl
  have hall := Keeps.defineFold (hxs.imp fun _ _ hst => hst.mono hlater) hbegin hcount
  refine ⟨_, ?_, hall.1, hlater.trans hall.2.1, hall.2.2.trans hsize⟩
  unfold AffineFrameState.defineInputs
  dsimp only
  rw [if_pos ⟨hnode, hdefined⟩]

/-- A query answers with the coordinate that the equations determine. -/
theorem Keeps.value (h : Keeps s equations cur) {n : Nat} (hn : n < s.size) :
    (∃ cur', Keeps (s.value (.reference n)).1 equations cur') ∧ Grows s (s.value (.reference n)).1 ∧
      ((∃ c d, (s.value (.reference n)).2 = .value c ∧
          Shows (s.value (.reference n)).1.anchors c d ∧ Frame.Determined equations n d) ∨
        ((s.value (.reference n)).2 = .invalid ∧ ∀ d, ¬Frame.Determined equations n d)) := by
  have hready : ∃ s' cur', s' = (if s.solvedCount ≤ n then s.solve else s) ∧
      Keeps s' equations cur' ∧ Grows s s' ∧ n < s'.solvedCount := by
    by_cases hlt : s.solvedCount ≤ n
    · obtain ⟨cur', hholds, hgrows⟩ := h.solve
      exact ⟨s.solve, cur', (if_pos hlt).symm, hholds, hgrows, hn⟩
    · exact ⟨s, cur, (if_neg hlt).symm, h, .refl h.stores.interned, not_le.mp hlt⟩
  obtain ⟨s', cur', hs', hholds, hgrows, hlt⟩ := hready
  have hiff := fun d => hholds.solution.value_iff hlt (v := d)
  have hrel := hholds.current n
  unfold AffineFrameState.value
  dsimp only
  rw [← hs']
  cases hc : (s'.nodes n).current with
  | unknown | invalid =>
    rw [hc] at hrel
    refine ⟨⟨cur', hholds⟩, hgrows, .inr ⟨rfl, ?_⟩⟩
    intro d hd
    rw [(hiff d).mpr hd] at hrel
    cases hrel
  | value c =>
    rw [hc] at hrel
    refine ⟨⟨cur', hholds⟩, hgrows, .inl ?_⟩
    cases hd : cur' n with
    | unknown | invalid =>
      rw [hd] at hrel
      cases hrel
    | value d =>
      rw [hd] at hrel
      cases hrel with
      | value hshow => exact ⟨c, d, rfl, hshow, (hiff d).mp hd⟩

end NeverD.Ir.AffineFrameState
