import Mathlib.Algebra.Order.BigOperators.Group.Finset
import Mathlib.Algebra.Group.Action.Defs
import NeverD.Ir.AffineFrameTable

namespace NeverD.Ir.AffineFrameState
open List Function Nat NeverD.Ir.Frame AffineFrameState

open NeverD.Lib

variable {n : Nat} {w : Work}

def Edge (equations : List Frame.Equation) (m : Nat) (u : User) : Prop :=
  ∃ eq ∈ equations, u = ⟨eq.target, eq.step⟩ ∧ .reference m ∈ eq.inputs

lemma system_edge {equations : List Equation} {m : Nat} {f : Coordinate → Option Coordinate} :
    (system equations).edge m n f ↔ ∃ u, Edge equations m u ∧ u.node = n ∧ f = transfer u.step := by
  constructor
  · intro h
    obtain ⟨eq, heq, htarget, hm, hf⟩ := h
    exact ⟨⟨eq.target, eq.step⟩, ⟨eq, heq, rfl, hm⟩, htarget, hf⟩
  · intro h
    obtain ⟨u, ⟨eq, heq, rfl, hm⟩, htarget, hf⟩ := h
    exact ⟨eq, heq, htarget, hm, hf⟩

structure Stores (s : AffineFrameState) (equations : List Frame.Equation) : Prop where
  interned : Interned s.anchors
  users : ∀ m u, u ∈ (s.nodes m).users ↔ Edge equations m u
  initial : ∀ n, Flat.Rel (Shows s.anchors) (s.nodes n).initial (Frame.initial equations n)
  legal : ∀ eq ∈ equations, eq.Legal
  inside : ∀ eq ∈ equations, eq.target < s.size ∧ ∀ m, .reference m ∈ eq.inputs → m < s.size
  defined : ∀ n, (s.nodes n).defined = true ↔ ∃ eq ∈ equations, eq.target = n

/-- What solving leaves of a state: only anchors and current states change. -/
structure Grows (s s' : AffineFrameState) : Prop where
  anchors : s.anchors <+: s'.anchors
  interned : Interned s'.anchors
  size : s'.size = s.size
  nodes : ∀ n, (s'.nodes n).users = (s.nodes n).users ∧ (s'.nodes n).initial = (s.nodes n).initial ∧
    (s'.nodes n).defined = (s.nodes n).defined

lemma Grows.refl {s : AffineFrameState} (h : Interned s.anchors) : Grows s s :=
  ⟨prefix_rfl, h, rfl, fun _ => ⟨rfl, rfl, rfl⟩⟩

lemma Grows.trans {s t u : AffineFrameState} (h : Grows s t) (h' : Grows t u) : Grows s u := by
  refine ⟨h.anchors.trans h'.anchors, h'.interned, h'.size.trans h.size, ?_⟩
  intro n
  have hn := h.nodes n
  have hn' := h'.nodes n
  exact ⟨hn'.1.trans hn.1, hn'.2.1.trans hn.2.1, hn'.2.2.trans hn.2.2⟩

lemma grows_setCurrent {s : AffineFrameState} {anchors : List Origin} (hpre : s.anchors <+: anchors)
    (h : Interned anchors)
    (n : Nat) (current : State) : Grows s ({ s with anchors := anchors }.setCurrent n current) := by
  refine ⟨hpre, h, rfl, ?_⟩
  intro k
  unfold setCurrent
  dsimp only
  by_cases hk : k = n
  · subst hk
    rw [update_self]
    exact ⟨rfl, rfl, rfl⟩
  · rw [update_of_ne hk]
    exact ⟨rfl, rfl, rfl⟩

variable {equations : List Frame.Equation}

variable {s : AffineFrameState} {t : Flat Frame.Coordinate}

lemma Stores.grows {s' : AffineFrameState} (h : Stores s equations) (hg : Grows s s') :
    Stores s' equations := by
  refine ⟨hg.interned, ?_, ?_, h.legal, ?_, ?_⟩
  · intro m u
    rw [(hg.nodes m).1]
    exact h.users m u
  · intro n
    rw [(hg.nodes n).2.1]
    exact (h.initial n).mono (.mono hg.anchors)
  · intro eq heq
    rw [hg.size]
    exact h.inside eq heq
  · intro n
    rw [(hg.nodes n).2.2]
    exact h.defined n

lemma Stores.edge_lt (h : Stores s equations) {m : Nat} {u : User} (hu : Edge equations m u) :
    m < s.size ∧ u.node < s.size ∧ u.step.Legal := by
  obtain ⟨eq, heq, rfl, hm⟩ := hu
  exact ⟨(h.inside eq heq).2 m hm, (h.inside eq heq).1, (h.legal eq heq).1⟩

/-- The work that is left: what nodes can still change, and the nodes in the queue. -/
def potential (size : Nat) (queue : List Nat) (cur : Nat → Flat Frame.Coordinate) : Nat :=
  queue.length + ∑ n ∈ Finset.range size, (cur n).height

/-- What the current states show is justified, and what an edge has not told its target is still in
the queue or among the rest of the edges. -/
structure Sweep (equations : List Frame.Equation) (w : Work) (rest : List (Nat × User))
    (cur : Nat → Flat Frame.Coordinate) : Prop where
  stores : Stores w.state equations
  current : ∀ n, Flat.Rel (Shows w.state.anchors) (w.state.nodes n).current (cur n)
  justified : ∀ n, (Frame.system equations).Justified cur n
  above : ∀ n, Flat.Le (Frame.initial equations n) (cur n)
  edges : ∀ m u, Edge equations m u →
    Flat.Le (Flat.pass (Frame.transfer u.step) (cur m)) (cur u.node) ∨ m ∈ w.queue ∨ (m, u) ∈ rest
  known : ∀ m ∈ w.queue, m < w.state.size ∧ cur m ≠ .unknown

structure Progress (w w' : Work) (cur cur' : Nat → Flat Frame.Coordinate) : Prop where
  grows : Grows w.state w'.state
  queue : ∀ k ∈ w.queue, k ∈ w'.queue
  moved : ∀ n, cur' n = cur n ∨ n ∈ w'.queue
  le : ∀ n, Flat.Le (cur n) (cur' n)
  outside : ∀ n, w.state.size ≤ n → cur' n = cur n
  potential : potential w'.state.size w'.queue cur' ≤ potential w.state.size w.queue cur

lemma Progress.refl (h : Interned w.state.anchors) (cur : Nat → Flat Coordinate) :
    Progress w w cur cur :=
  ⟨.refl h, fun _ hk => hk, fun _ => .inl rfl, fun n => .refl (cur n), fun _ _ => rfl, le_rfl⟩

variable {cur : Nat → Flat Frame.Coordinate}

lemma Progress.trans {w' w'' : Work} {cur' cur'' : Nat → Flat Coordinate}
    (h : Progress w w' cur cur') (h' : Progress w' w'' cur' cur'') : Progress w w'' cur cur'' := by
  refine ⟨h.grows.trans h'.grows, fun k hk => h'.queue k (h.queue k hk), ?_,
    fun n => (h.le n).trans (h'.le n),
    fun n hn => (h'.outside n (h.grows.size ▸ hn)).trans (h.outside n hn),
      h'.potential.trans h.potential⟩
  intro n
  rcases h'.moved n with hn | hn
  · rcases h.moved n with hn' | hn'
    · exact .inl (hn.trans hn')
    · exact .inr (h'.queue n hn')
  · exact .inr hn

lemma mem_enqueue {queue : List Nat} {k : Nat} : k ∈ enqueue queue n ↔ k ∈ queue ∨ k = n := by
  unfold enqueue
  split
  next hmem => exact ⟨.inl, fun h => h.elim id fun heq => heq ▸ hmem⟩
  · rw [mem_append, mem_singleton]

lemma length_enqueue (queue : List Nat) (n : Nat) :
    (enqueue queue n).length ≤ queue.length + 1 := by
  unfold enqueue
  split
  · exact le_succ _
  · rw [length_append]
    exact le_rfl

lemma ne_unknown_of_le {s : Flat Coordinate} (h : Flat.Le s t) (hs : s ≠ .unknown) :
    t ≠ .unknown := by
  intro ht
  rw [ht] at h
  cases s with
  | unknown => exact hs rfl
  | value v => rcases h with h | h <;> cases h
  | invalid => cases h

lemma sum_height_update {size k : Nat} (hk : k < size) {s : Flat Coordinate}
    (hlt : s.height < (cur k).height) :
    ∑ n ∈ Finset.range size, (Function.update cur k s n).height < ∑ n ∈ Finset.range size,
      (cur n).height := by
  apply Finset.sum_lt_sum
  · intro i _
    by_cases hi : i = k
    · subst hi
      rw [update_self]
      exact le_of_lt hlt
    · rw [update_of_ne hi]
  · refine ⟨k, Finset.mem_range.mpr hk, ?_⟩
    rw [update_self]
    exact hlt

lemma Sweep.change {rest rest' : List (Nat × User)}
    (h : Sweep equations w rest cur) (hn : n < w.state.size) {s : Flat Coordinate} {code : State}
    {anchors : List Origin} (hpre : w.state.anchors <+: anchors) (hint : Interned anchors)
    (hcode : Flat.Rel (Shows anchors) code s) (hle : Flat.Le (cur n) s)
    (hlt : s.height < (cur n).height)
    (hjust : (∀ v, s = .value v → (system equations).Val n v) ∧
    (s = .invalid → (system equations).Bad n))
    (hrest : ∀ m u, Edge equations m u → (m, u) ∈ rest → m = n ∨ m ∈ w.queue ∨ (m, u) ∈ rest' ∨
      Flat.Le (Flat.pass (transfer u.step) (cur m)) (Function.update cur n s u.node)) :
    Sweep equations ⟨{ w.state with anchors := anchors }.setCurrent n code, enqueue w.queue n⟩ rest'
        (Function.update cur n s) ∧
      Progress w ⟨{ w.state with anchors := anchors }.setCurrent n code, enqueue w.queue n⟩ cur
        (Function.update cur n s) := by
  have hgrows := grows_setCurrent hpre hint n code
  have hup : ∀ k, Flat.Le (cur k) (Function.update cur n s k) := by
    intro k
    by_cases hk : k = n
    · subst hk
      rw [update_self]
      exact hle
    · rw [update_of_ne hk]
      exact .refl _
  have hsne : s ≠ .unknown := by
    intro hs
    rw [hs] at hlt
    exact absurd hlt (Nat.not_lt_of_le (cur n).height_le)
  constructor
  · refine ⟨h.stores.grows hgrows, ?_, ?_, fun k => (h.above k).trans (hup k), ?_, ?_⟩
    · intro k
      unfold setCurrent
      dsimp only
      by_cases hk : k = n
      · subst hk
        rw [update_self, update_self]
        exact hcode
      · rw [update_of_ne hk, update_of_ne hk]
        exact (h.current k).mono (.mono hpre)
    · intro k
      by_cases hk : k = n
      · subst hk
        exact ⟨fun v hv => hjust.1 v (by rw [update_self] at hv; exact hv),
          fun hv => hjust.2 (by rw [update_self] at hv; exact hv)⟩
      · exact ⟨fun v hv => (h.justified k).value v (by rw [update_of_ne hk] at hv; exact hv),
          fun hv => (h.justified k).invalid (by rw [update_of_ne hk] at hv; exact hv)⟩
    · intro m u hu
      by_cases hm : m = n
      · exact .inr (.inl (mem_enqueue.mpr (.inr hm)))
      · rw [update_of_ne hm]
        rcases h.edges m u hu with he | he | he
        · exact .inl (he.trans (hup u.node))
        · exact .inr (.inl (mem_enqueue.mpr (.inl he)))
        · rcases hrest m u hu he with hr | hr | hr | hr
          · exact absurd hr hm
          · exact .inr (.inl (mem_enqueue.mpr (.inl hr)))
          · exact .inr (.inr hr)
          · exact .inl hr
    · intro m hm
      rcases mem_enqueue.mp hm with hm | hm
      · exact ⟨(h.known m hm).1, ne_unknown_of_le (hup m) (h.known m hm).2⟩
      · subst hm
        rw [update_self]
        exact ⟨hn, hsne⟩
  · refine ⟨hgrows, fun k hk => mem_enqueue.mpr (.inl hk), ?_, hup, ?_, ?_⟩
    · intro k
      by_cases hk : k = n
      · exact .inr (mem_enqueue.mpr (.inr hk))
      · exact .inl (update_of_ne hk _ _)
    · intro k hk
      have hne : k ≠ n := ne_of_gt (lt_of_lt_of_le hn hk)
      exact update_of_ne hne _ _
    · have hsum := sum_height_update hn hlt
      have hlen := length_enqueue w.queue n
      unfold potential
      show (enqueue w.queue n).length + ∑ k ∈ Finset.range w.state.size,
        (Function.update cur n s k).height ≤ _
      omega

theorem Sweep.propagateEdge {m : Nat} {u : User} {rest : List (Nat × User)}
    (h : Sweep equations w ((m, u) :: rest) cur) (hu : Edge equations m u)
    {source : State} (hsource : Flat.Rel (Shows w.state.anchors) source t) (ht : t ≠ .unknown)
    (hjust : (Frame.system equations).Justified (fun _ => t) m) (hcur : cur m = t ∨ m ∈ w.queue) :
    ∃ cur', Sweep equations (propagateEdge w source u) rest cur' ∧
      Progress w (propagateEdge w source u) cur cur' := by
  have hlt := h.stores.edge_lt hu
  obtain ⟨hpre, hint, hrel⟩ := step_spec h.stores.interned hsource ht hlt.2.2
  have hold := (h.current u.node).mono (Shows.mono hpre)
  have hmeet := hold.meet hint.shows_iff hrel
  have hne := hold.meet_ne hint.shows_iff hrel
  have hjoin := Flat.System.justified_meet (h.justified u.node).value (h.justified u.node).invalid
    (Flat.System.justified_pass hjust (system_edge.mpr ⟨u, hu, rfl, rfl⟩)).1
    (Flat.System.justified_pass hjust (system_edge.mpr ⟨u, hu, rfl, rfl⟩)).2
  have htold := Flat.le_meet_right (cur u.node) (Flat.pass (Frame.transfer u.step) t)
  unfold AffineFrameState.propagateEdge
  dsimp only
  rw [meet_fst]
  by_cases hchange : (cur u.node).meet (Flat.pass (Frame.transfer u.step) t) ≠ cur u.node
  · rw [if_pos ((meet_snd _ _).mpr (hne.mpr hchange))]
    refine ⟨_, h.change hlt.2.1 hpre hint hmeet (Flat.le_meet_left _ _)
      (Flat.height_meet_lt hchange) hjoin ?_⟩
    intro m' u' _ hmem
    rcases mem_cons.mp hmem with heq | hmem
    · injection heq with hm' hu'
      subst hm' hu'
      rcases hcur with hc | hc
      · rw [hc, update_self]
        exact .inr (.inr (.inr htold))
      · exact .inr (.inl hc)
    · exact .inr (.inr (.inl hmem))
  · have hsame := Classical.not_not.mp hchange
    rw [if_neg fun hflag => hchange (hne.mp ((meet_snd _ _).mp hflag))]
    have hgrows := grows_setCurrent hpre hint u.node
      ((w.state.nodes u.node).current.meet (step w.state.anchors source u.step).2)
    refine ⟨cur, ⟨h.stores.grows hgrows, ?_, h.justified, h.above, ?_, h.known⟩,
      ⟨hgrows, fun _ hk => hk, fun _ => .inl rfl, fun n => .refl (cur n), fun _ _ => rfl, le_rfl⟩⟩
    · intro k
      unfold setCurrent
      dsimp only
      by_cases hk : k = u.node
      · subst hk
        rw [update_self]
        rw [hsame] at hmeet
        exact hmeet
      · rw [update_of_ne hk]
        exact (h.current k).mono (Shows.mono hpre)
    · intro m' u' hu'
      rcases h.edges m' u' hu' with he | he | he
      · exact .inl he
      · exact .inr (.inl he)
      · rcases mem_cons.mp he with heq | he
        · injection heq with hm' huu
          subst hm' huu
          rcases hcur with hc | hc
          · rw [hsame] at htold
            rw [hc]
            exact .inl htold
          · exact .inr (.inl hc)
        · exact .inr (.inr he)

theorem Sweep.users {m : Nat} {source : State} (ht : t ≠ .unknown)
    (hjust : (Frame.system equations).Justified (fun _ => t) m) (us : List User) :
    ∀ {w : Work} {cur : Nat → Flat Frame.Coordinate}, Sweep equations w (us.map (m, ·)) cur →
      (∀ u ∈ us, Edge equations m u) → Flat.Rel (Shows w.state.anchors) source t →
      (cur m = t ∨ m ∈ w.queue) →
      ∃ cur', Sweep equations (us.foldl (fun w u => AffineFrameState.propagateEdge w source u) w)
        [] cur' ∧
        Progress w (us.foldl (fun w u => AffineFrameState.propagateEdge w source u) w)
        cur cur' := by
  induction us with
  | nil =>
    intro w cur h _ _ _
    exact ⟨cur, h, .refl h.stores.interned cur⟩
  | cons u us ih =>
    intro w cur h hus hsource hcur
    obtain ⟨cur', hsweep, hprogress⟩ :=
      Sweep.propagateEdge h (hus u (mem_cons_self ..)) hsource ht hjust hcur
    have hcur' : cur' m = t ∨ m ∈ (AffineFrameState.propagateEdge w source u).queue := by
      rcases hprogress.moved m with hm | hm
      · rcases hcur with hc | hc
        · exact .inl (hm.trans hc)
        · exact .inr (hprogress.queue m hc)
      · exact .inr hm
    obtain ⟨cur'', hsweep', hprogress'⟩ := ih hsweep (fun v hv => hus v (mem_cons_of_mem _ hv))
      (hsource.mono (.mono hprogress.grows.anchors)) hcur'
    exact ⟨cur'', hsweep', hprogress.trans hprogress'⟩

lemma Sweep.propagate (fuel : Nat) : ∀ {w : Work} {cur : Nat → Flat Frame.Coordinate},
      Sweep equations w [] cur → potential w.state.size w.queue cur ≤ fuel →
      ∃ cur', Sweep equations (propagate fuel w) [] cur' ∧ (propagate fuel w).queue = [] ∧
        Grows w.state (propagate fuel w).state ∧ (∀ n, Flat.Le (cur n) (cur' n)) ∧
        (∀ n, w.state.size ≤ n → cur' n = cur n) ∧
        potential w.state.size [] cur' ≤ potential w.state.size w.queue cur := by
  induction fuel with
  | zero =>
    intro w cur h hfuel
    have hlen : w.queue.length = 0 := by
      unfold potential at hfuel
      omega
    have hqueue := length_eq_zero_iff.mp hlen
    exact ⟨cur, h, hqueue, .refl h.stores.interned, fun n => .refl (cur n),
      fun _ _ => rfl, by rw [hqueue]⟩
  | succ fuel ih =>
    intro w cur h hfuel
    unfold AffineFrameState.propagate
    cases hqueue : w.queue with
    | nil =>
      exact ⟨cur, h, hqueue, .refl h.stores.interned, fun n => .refl (cur n), fun _ _ => rfl,
        le_rfl⟩
    | cons index queue =>
      have hpop : Sweep equations { w with queue := queue }
          ((w.state.nodes index).users.map (index, ·)) cur := by
        refine ⟨h.stores, h.current, h.justified, h.above, ?_, ?_⟩
        · intro m u hu
          rcases h.edges m u hu with he | he | he
          · exact .inl he
          · rw [hqueue] at he
            rcases mem_cons.mp he with heq | he
            · subst heq
              exact .inr (.inr (mem_map.mpr ⟨u, (h.stores.users m u).mpr hu, rfl⟩))
            · exact .inr (.inl he)
          · cases he
        · intro m hm
          exact h.known m (by rw [hqueue]; exact mem_cons_of_mem _ hm)
      have hknown := h.known index (by rw [hqueue]; exact mem_cons_self ..)
      have hjust : (Frame.system equations).Justified (fun _ => cur index) index :=
        ⟨(h.justified index).value, (h.justified index).invalid⟩
      obtain ⟨cur', hsweep, hprogress⟩ :=
        Sweep.users hknown.2 hjust (w.state.nodes index).users hpop
        (fun u hu => (h.stores.users index u).mp hu) (h.current index) (.inl rfl)
      have hsize := hprogress.grows.size
      have hless := hprogress.potential
      have hcount : potential w.state.size (index :: queue) cur = potential w.state.size queue cur +
          1 := by
        unfold potential
        rw [length_cons]
        omega
      rw [hqueue, hcount] at hfuel
      obtain ⟨cur'', hsweep', hempty, hgrows, hle, hout, hpot⟩ :=
        ih hsweep (by dsimp only at hless; omega)
      refine ⟨cur'', hsweep', hempty, hprogress.grows.trans hgrows,
        fun n => (hprogress.le n).trans (hle n),
        fun n hn => (hout n (hsize ▸ hn)).trans (hprogress.outside n hn), ?_⟩
      rw [hsize] at hpot hless
      rw [hcount]
      exact (hpot.trans hless).trans (le_succ _)

lemma Sweep.pending (ps : List PendingEdge) :
    ∀ {w : Work} {cur : Nat → Flat Coordinate},
      Sweep equations w (ps.map fun p => (p.source, p.target)) cur →
      (∀ p ∈ ps, Edge equations p.source p.target ∧ cur p.source ≠ .unknown) →
      ∃ cur', Sweep equations (ps.foldl propagatePending w) [] cur' ∧
      Progress w (ps.foldl propagatePending w) cur cur' := by
  induction ps with
  | nil =>
    intro w cur h _
    exact ⟨cur, h, .refl h.stores.interned cur⟩
  | cons p ps ih =>
    intro w cur h hps
    obtain ⟨hedge, hknown⟩ := hps p (mem_cons_self ..)
    have hjust : (system equations).Justified (fun _ => cur p.source) p.source :=
      ⟨(h.justified p.source).value, (h.justified p.source).invalid⟩
    obtain ⟨cur', hsweep, hprogress⟩ :=
      Sweep.propagateEdge h hedge (h.current p.source) hknown hjust (.inl rfl)
    obtain ⟨cur'', hsweep', hprogress'⟩ := ih hsweep fun q hq =>
      ⟨(hps q (mem_cons_of_mem _ hq)).1,
        ne_unknown_of_le (hprogress.le q.source) (hps q (mem_cons_of_mem _ hq)).2⟩
    exact ⟨cur'', hsweep', hprogress.trans hprogress'⟩

lemma Sweep.invalidate (l : List Nat) : ∀ {w : Work} {cur : Nat → Flat Coordinate},
      Sweep equations w [] cur →
      (∀ n, n < w.state.size → cur n = .unknown → (system equations).Bad n) →
      (∀ n ∈ l, n < w.state.size) →
      ∃ cur', Sweep equations (l.foldl invalidateNode w) [] cur' ∧
        Progress w (l.foldl invalidateNode w) cur cur' ∧ ∀ n ∈ l, cur' n ≠ .unknown := by
  induction l with
  | nil =>
    intro w cur h _ _
    exact ⟨cur, h, .refl h.stores.interned cur, fun n hn => by cases hn⟩
  | cons n l ih =>
    intro w cur h hbad hl
    have hn := hl n (mem_cons_self ..)
    have hstep : ∃ cur', Sweep equations (invalidateNode w n) [] cur' ∧
        Progress w (invalidateNode w n) cur cur' ∧ cur' n ≠ .unknown := by
      unfold invalidateNode
      have hrel := h.current n
      by_cases hc : cur n = .unknown
      · rw [hc] at hrel
        have hcode : (w.state.nodes n).current = .unknown := by
          generalize (w.state.nodes n).current = c at hrel ⊢
          cases hrel
          rfl
        rw [if_pos hcode]
        have hlt : (.invalid : Flat Coordinate).height < (cur n).height := by
          rw [hc]
          exact Nat.zero_lt_two
        have hboth : Sweep equations ⟨w.state.setCurrent n .invalid, enqueue w.queue n⟩ []
            (Function.update cur n .invalid) ∧
            Progress w ⟨w.state.setCurrent n .invalid, enqueue w.queue n⟩ cur
              (Function.update cur n .invalid) :=
          h.change hn prefix_rfl h.stores.interned .invalid (.invalid _) hlt
            ⟨fun v hv => (by cases hv), fun _ => hbad n hn hc⟩
          (fun m u _ hmem => by cases hmem)
        refine ⟨_, hboth.1, hboth.2, ?_⟩
        rw [update_self]
        exact fun hcon => by cases hcon
      · have hcode : (w.state.nodes n).current ≠ .unknown := by
          intro hcode
          rw [hcode] at hrel
          cases hr : cur n with
          | unknown => exact hc hr
          | value v =>
            rw [hr] at hrel
            cases hrel
          | invalid =>
            rw [hr] at hrel
            cases hrel
        rw [if_neg hcode]
        exact ⟨cur, h, .refl h.stores.interned cur, hc⟩
    obtain ⟨cur', hsweep, hprogress, hknown⟩ := hstep
    have hsize := hprogress.grows.size
    obtain ⟨cur'', hsweep', hprogress', hall⟩ := ih hsweep (fun k hk hc => by
        refine hbad k (by rw [← hsize]; exact hk) ?_
        by_cases hcon : cur k = .unknown
        · exact hcon
        · exact absurd hc (ne_unknown_of_le (hprogress.le k) hcon))
      (fun k hk => by rw [hsize]; exact hl k (mem_cons_of_mem _ hk))
    refine ⟨cur'', hsweep', hprogress.trans hprogress', ?_⟩
    intro k hk
    rcases mem_cons.mp hk with rfl | hk
    · exact ne_unknown_of_le (hprogress'.le k) hknown
    · exact hall k hk

theorem Sweep.closed {w : Work} {cur : Nat → Flat Coordinate} (h : Sweep equations w [] cur)
    (hqueue : w.queue = []) : (system equations).Closed (· < w.state.size) cur := by
  refine ⟨fun n _ => h.above n, ?_⟩
  intro m n f _ hedge
  obtain ⟨u, hu, rfl, rfl⟩ := system_edge.mp hedge
  refine ⟨(h.stores.edge_lt hu).1, ?_⟩
  rcases h.edges m u hu with he | he | he
  · exact he
  · rw [hqueue] at he
    cases he
  · cases he

/-- The equations, and below the solved count their solution. New edges of solved nodes are
pending. -/
structure Keeps (s : AffineFrameState) (equations : List Frame.Equation)
    (cur : Nat → Flat Frame.Coordinate) : Prop where
  stores : Stores s equations
  current : ∀ n, Flat.Rel (Shows s.anchors) (s.nodes n).current (cur n)
  outside : ∀ n, s.size ≤ n → cur n = .unknown
  solved : s.solvedCount ≤ s.size
  solution : (Frame.system equations).Solution (· < s.solvedCount) cur
  pending : ∀ m u, ⟨m, u⟩ ∈ s.pending ↔ Edge equations m u ∧ m < s.solvedCount ∧
    s.solvedCount ≤ u.node

lemma resetNode_fold (l : List Nat) (w : Work) : (∀ n, (l.foldl resetNode w).state.nodes n =
      if n ∈ l then { w.state.nodes n with current := (w.state.nodes n).initial }
        else w.state.nodes n) ∧
    (l.foldl resetNode w).state.anchors = w.state.anchors ∧
      (l.foldl resetNode w).state.size = w.state.size ∧
    (∀ n, n ∈ (l.foldl resetNode w).queue ↔ n ∈ w.queue ∨
      (n ∈ l ∧ (w.state.nodes n).initial ≠ .unknown)) ∧
    (l.foldl resetNode w).queue.length ≤ w.queue.length + l.length := by
  induction l generalizing w with
  | nil => exact ⟨fun n => (if_neg not_mem_nil).symm, rfl, rfl, fun n => by simp, le_rfl⟩
  | cons k l ih =>
    obtain ⟨hnodes, hanchors, hsize, hqueue, hlen⟩ := ih (resetNode w k)
    rw [foldl_cons]
    have hstep : ∀ n, (resetNode w k).state.nodes n =
        if n = k then { w.state.nodes n with current := (w.state.nodes n).initial }
        else w.state.nodes n := by
      intro n
      unfold resetNode setCurrent
      dsimp only
      by_cases hn : n = k
      · subst hn
        rw [update_self, if_pos rfl]
      · rw [update_of_ne hn, if_neg hn]
    have hinitial : ∀ n, ((resetNode w k).state.nodes n).initial = (w.state.nodes n).initial := by
      intro n
      rw [hstep]
      split <;> rfl
    refine ⟨?_, hanchors, hsize, ?_, ?_⟩
    · intro n
      rw [hnodes, hstep]
      by_cases hn : n = k
      · subst hn
        rw [if_pos rfl, if_pos (mem_cons_self ..)]
        split <;> rfl
      · rw [if_neg hn]
        by_cases hl : n ∈ l
        · rw [if_pos hl, if_pos (mem_cons_of_mem _ hl)]
        · rw [if_neg hl, if_neg fun hmem => (mem_cons.mp hmem).elim hn hl]
    · intro n
      rw [hqueue, hinitial]
      have hk : n ∈ (resetNode w k).queue ↔ n ∈ w.queue ∨
          (n = k ∧ (w.state.nodes n).initial ≠ .unknown) := by
        unfold resetNode
        dsimp only
        split
        next hun =>
          constructor
          · exact .inl
          · intro h
            rcases h with h | ⟨rfl, h⟩
            · exact h
            · exact absurd hun h
        next hun =>
          rw [mem_enqueue]
          constructor
          · intro h
            rcases h with h | rfl
            · exact .inl h
            · exact .inr ⟨rfl, hun⟩
          · intro h
            rcases h with h | h
            · exact .inl h
            · exact .inr h.1
      rw [hk, mem_cons]
      tauto
    · have hone : (resetNode w k).queue.length ≤ w.queue.length + 1 := by
        unfold resetNode
        dsimp only
        split
        · exact le_succ _
        · exact length_enqueue _ _
      rw [length_cons]
      omega

lemma mem_unsolved (h : s.solvedCount ≤ s.size) : n ∈ s.unsolved ↔ s.solvedCount ≤ n ∧
    n < s.size := by
  unfold unsolved
  rw [mem_map]
  constructor
  · intro hn
    obtain ⟨i, hi, rfl⟩ := hn
    have := mem_range.mp hi
    omega
  · intro hn
    exact ⟨n - s.solvedCount, mem_range.mpr (by omega), by omega⟩

lemma initial_undefined (h : ∀ eq ∈ equations, eq.target ≠ n) : initial equations n = .unknown := by
  unfold initial
  rw [filter_eq_nil_iff.mpr fun eq heq hd => h eq heq (of_decide_eq_true hd)]
  rfl

theorem Keeps.sweep (h : Keeps s equations cur) :
    ∃ cur', Sweep equations (s.unsolved.foldl resetNode ⟨s, []⟩)
      (s.pending.map fun p => (p.source, p.target)) cur' ∧
      Grows s (s.unsolved.foldl resetNode ⟨s, []⟩).state ∧
      (∀ n, n < s.solvedCount → cur' n = cur n) ∧ (∀ n, s.size ≤ n → cur' n = .unknown) ∧
      potential s.size (s.unsolved.foldl resetNode ⟨s, []⟩).queue cur' ≤ 3 * s.size := by
  obtain ⟨hnodes, hanchors, hsize, hqueue, hlen⟩ := resetNode_fold s.unsolved ⟨s, []⟩
  have hgrows : Grows s (s.unsolved.foldl resetNode ⟨s, []⟩).state := by
    refine ⟨hanchors ▸ prefix_rfl, hanchors ▸ h.stores.interned, hsize, ?_⟩
    intro n
    rw [hnodes]
    split <;> exact ⟨rfl, rfl, rfl⟩
  have hundefined : ∀ n, s.size ≤ n → initial equations n = .unknown := by
    intro n hn
    apply initial_undefined
    intro eq heq htarget
    have := (h.stores.inside eq heq).1
    omega
  let cur' := fun n => if n < s.solvedCount then cur n else initial equations n
  have hold : ∀ n, n < s.solvedCount → cur' n = cur n := fun n hn => if_pos hn
  have hnew : ∀ n, ¬n < s.solvedCount → cur' n = initial equations n := fun n hn => if_neg hn
  refine ⟨cur', ⟨h.stores.grows hgrows, ?_, ?_, ?_, ?_, ?_⟩, hgrows, hold, ?_, ?_⟩
  · intro n
    rw [hanchors, hnodes]
    by_cases hn : n < s.solvedCount
    · rw [hold n hn, if_neg fun hmem => by have := (mem_unsolved h.solved).mp hmem; omega]
      exact h.current n
    · rw [hnew n hn]
      by_cases hin : n < s.size
      · rw [if_pos ((mem_unsolved h.solved).mpr ⟨not_lt.mp hn, hin⟩)]
        exact h.stores.initial n
      · rw [if_neg fun hmem => hin ((mem_unsolved h.solved).mp hmem).2,
          hundefined n (not_lt.mp hin), ← h.outside n (not_lt.mp hin)]
        exact h.current n
  · intro n
    by_cases hn : n < s.solvedCount
    · have hj := h.solution.justified n hn
      exact ⟨fun v hv => hj.value v ((hold n hn).symm.trans hv),
        fun hv => hj.invalid ((hold n hn).symm.trans hv)⟩
    · exact ⟨fun v hv => .initial ((hnew n hn).symm.trans hv),
        fun hv => .top (.initial ((hnew n hn).symm.trans hv))⟩
  · intro n
    by_cases hn : n < s.solvedCount
    · rw [hold n hn]
      exact h.solution.closed.initial n hn
    · rw [hnew n hn]
      exact .refl _
  · intro m u hu
    by_cases hn : u.node < s.solvedCount
    · obtain ⟨hm, hle⟩ := h.solution.closed.edge m u.node _ hn (system_edge.mpr ⟨u, hu, rfl, rfl⟩)
      rw [hold m hm, hold u.node hn]
      exact .inl hle
    · by_cases hm : m < s.solvedCount
      · have hmem := (h.pending m u).mpr ⟨hu, hm, not_lt.mp hn⟩
        exact .inr (.inr (mem_map.mpr ⟨⟨m, u⟩, hmem, rfl⟩))
      · rw [hnew m hm]
        -- a node with nothing to tell, or one in the queue
        have hrel := h.stores.initial m
        cases hi : initial equations m with
        | unknown => exact .inl trivial
        | value v =>
          refine .inr
            (.inl ((hqueue m).mpr (.inr ⟨(mem_unsolved h.solved).mpr ⟨not_lt.mp hm, ?_⟩, ?_⟩)))
          · exact (h.stores.edge_lt hu).1
          · intro hcon
            rw [hi, hcon] at hrel
            cases hrel
        | invalid =>
          refine .inr
            (.inl ((hqueue m).mpr (.inr ⟨(mem_unsolved h.solved).mpr ⟨not_lt.mp hm, ?_⟩, ?_⟩)))
          · exact (h.stores.edge_lt hu).1
          · intro hcon
            rw [hi, hcon] at hrel
            cases hrel
  · intro m hm
    rcases (hqueue m).mp hm with hm | ⟨hmem, hne⟩
    · cases hm
    · have hmem := (mem_unsolved h.solved).mp hmem
      refine ⟨by rw [hsize]; exact hmem.2, ?_⟩
      rw [hnew m (Nat.not_lt_of_le hmem.1)]
      intro hcon
      have hrel := h.stores.initial m
      rw [hcon] at hrel
      generalize (s.nodes m).initial = c at hrel hne
      cases hrel
      exact hne rfl
  · intro n hn
    have hle := h.solved
    rw [hnew n (by omega)]
    exact hundefined n hn
  · have hsum : ∑ n ∈ Finset.range s.size, (cur' n).height ≤ (Finset.range s.size).card • 2 :=
      Finset.sum_le_card_nsmul _ _ _ fun n _ => (cur' n).height_le
    rw [Finset.card_range, smul_eq_mul] at hsum
    have hcount : s.unsolved.length = s.size - s.solvedCount := by
      unfold unsolved
      rw [length_map, length_range]
    rw [hcount, length_nil] at hlen
    unfold potential
    omega

theorem Keeps.solve (h : Keeps s equations cur) : ∃ cur', Keeps s.solve equations cur' ∧
    Grows s s.solve := by
  obtain ⟨cur₀, hsweep₀, hgrows₀, hold, hout₀, hpot₀⟩ := h.sweep
  have hsize₀ := hgrows₀.size
  obtain ⟨cur₁, hsweep₁, hprogress₁⟩ := Sweep.pending s.pending hsweep₀ (by
    intro p hp
    obtain ⟨hedge, hlt, -⟩ := (h.pending p.source p.target).mp hp
    refine ⟨hedge, ?_⟩
    rw [hold p.source hlt]
    exact h.solution.decided p.source hlt)
  have hsize₁ := hprogress₁.grows.size.trans hsize₀
  have hpot₁ := hprogress₁.potential
  rw [hsize₀, hsize₁] at hpot₁
  obtain ⟨cur₂, hsweep₂, hqueue₂, hgrows₂, hle₂, hout₂, hpot₂⟩ :=
    Sweep.propagate (3 * s.size) hsweep₁ (by rw [hsize₁]; exact hpot₁.trans hpot₀)
  have hsize₂ := hgrows₂.size.trans hsize₁
  rw [hsize₁] at hpot₂ hout₂
  have hclosed := hsweep₂.closed hqueue₂
  obtain ⟨cur₃, hsweep₃, hprogress₃, hknown₃⟩ := Sweep.invalidate s.unsolved hsweep₂
    (fun n hn hc => .silent (hclosed.silent hn hc))
    (fun n hn => by rw [hsize₂]; exact ((mem_unsolved h.solved).mp hn).2)
  have hsize₃ := hprogress₃.grows.size.trans hsize₂
  have hpot₃ := hprogress₃.potential
  rw [hsize₂, hsize₃, hqueue₂] at hpot₃
  obtain ⟨cur₄, hsweep₄, hqueue₄, hgrows₄, hle₄, hout₄, -⟩ := Sweep.propagate (3 * s.size) hsweep₃
    (by rw [hsize₃]; exact hpot₃.trans (hpot₂.trans (hpot₁.trans hpot₀)))
  have hsize₄ := hgrows₄.size.trans hsize₃
  have hgrows : Grows s s.solve := by
    have hall :=
      (((hgrows₀.trans hprogress₁.grows).trans hgrows₂).trans hprogress₃.grows).trans hgrows₄
    exact ⟨hall.anchors, hall.interned, hall.size, hall.nodes⟩
  refine ⟨cur₄, ⟨h.stores.grows hgrows, hsweep₄.current, ?_, ?_, ⟨?_, ?_, ?_⟩, ?_⟩, hgrows⟩
  · intro n hn
    rw [hgrows.size] at hn
    rw [hout₄ n (by rw [hsize₃]; exact hn), hprogress₃.outside n (by rw [hsize₂]; exact hn),
      hout₂ n hn, hprogress₁.outside n (by rw [hsize₀]; exact hn)]
    exact hout₀ n hn
  · rw [hgrows.size]
    exact le_rfl
  · have hclosed₄ := hsweep₄.closed hqueue₄
    rw [hsize₄] at hclosed₄
    exact hclosed₄
  · exact fun n _ => hsweep₄.justified n
  · intro n hn
    apply ne_unknown_of_le (hle₄ n)
    by_cases hlt : n < s.solvedCount
    · apply ne_unknown_of_le (hprogress₃.le n)
      apply ne_unknown_of_le (hle₂ n)
      apply ne_unknown_of_le (hprogress₁.le n)
      rw [hold n hlt]
      exact h.solution.decided n hlt
    · exact hknown₃ n ((mem_unsolved h.solved).mpr ⟨not_lt.mp hlt, hn⟩)
  · intro m u
    constructor
    · intro hmem
      cases hmem
    · intro hu
      have hlt := (h.stores.edge_lt hu.1).2.1
      exact absurd hlt (Nat.not_lt_of_le hu.2.2)

end NeverD.Ir.AffineFrameState
