import NeverD.Explore.Low

namespace NeverD.Explore
open List Function

inductive Colour
  | white | grey | black
  deriving DecidableEq, Repr

/-- The search of `findLoopHeaders`: the marks, the headers so far, and the route, top first, with
its next successors. -/
structure HeaderSearch where
  marks : Nat → Colour
  loopHeaders : Nat → Bool
  stack : List (Nat × Nat)

namespace HeaderSearch

variable (func : LowFunc)

def succsOf (i : Nat) : List Int := (func.blocks[i]?.map LowBlock.succs).getD []

def whites (s : HeaderSearch) : Finset Nat :=
  (Finset.range func.blocks.length).filter fun i => s.marks i = .white

def pending (s : HeaderSearch) : Nat :=
  (s.stack.map fun e => (succsOf func e.1).length - e.2 + 1).sum

def step (s : HeaderSearch) (id next : Nat) (rest : List (Nat × Nat)) : HeaderSearch :=
  match (succsOf func id)[next]? with
  | none => { s with marks := Function.update s.marks id .black, stack := rest }
  | some succ =>
    match func.blockIndex succ with
    | none => { s with stack := (id, next + 1) :: rest }
    | some n =>
      match s.marks n with
      | .grey => { s with
          loopHeaders := Function.update s.loopHeaders n true
          stack := (id, next + 1) :: rest }
      | .white => { s with
          marks := Function.update s.marks n .grey
          stack := (n, 0) :: (id, next + 1) :: rest }
      | .black => { s with stack := (id, next + 1) :: rest }

lemma whites_update_subset (s : HeaderSearch) (i : Nat) (c : Colour) (hc : c ≠ .white)
    (st : List (Nat × Nat)) :
    whites func { s with marks := Function.update s.marks i c, stack := st } ⊆ whites func s := by
  intro j hj
  simp only [whites, Finset.mem_filter, Finset.mem_range] at hj ⊢
  refine ⟨hj.1, ?_⟩
  by_cases hji : j = i
  · subst hji
    rw [update_self] at hj
    exact absurd hj.2 hc
  · rw [update_of_ne hji] at hj
    exact hj.2

theorem step_decreases (s : HeaderSearch) (id next : Nat) (rest : List (Nat × Nat))
    (hs : s.stack = (id, next) :: rest) : Prod.Lex (· < ·) (· < ·)
      ((whites func (step func s id next rest)).card, pending func (step func s id next rest))
      ((whites func s).card, pending func s) := by
  have hle : ∀ {t : HeaderSearch}, whites func t ⊆ whites func s → pending func t < pending func s →
      Prod.Lex (· < ·) (· < ·) ((whites func t).card, pending func t) ((whites func s).card,
        pending func s) := by
    intro t hw hp
    rcases Nat.lt_or_eq_of_le (Finset.card_le_card hw) with h | h
    · exact Prod.Lex.left _ _ h
    · rw [h]
      exact Prod.Lex.right _ hp
  have hnext : ∀ succ, (succsOf func id)[next]? = some succ → ∀ h : Nat →
        Bool, Prod.Lex (· < ·) (· < ·)
        ((whites func ⟨s.marks, h, (id, next + 1) :: rest⟩).card,
          pending func ⟨s.marks, h, (id, next + 1) :: rest⟩)
        ((whites func s).card, pending func s) := by
    intro succ hsucc h
    have hlt := (List.getElem?_eq_some_iff.mp hsucc).1
    apply hle (by exact subset_rfl)
    simp only [pending, hs, map_cons, sum_cons]
    omega
  unfold step
  cases hsucc : (succsOf func id)[next]? with
  | none =>
    apply hle (whites_update_subset func s id .black (by decide) rest)
    simp only [pending, hs, map_cons, sum_cons]
    omega
  | some succ =>
    cases hn : func.blockIndex succ with
    | none => simpa [hn] using hnext succ hsucc _
    | some n =>
      cases hm : s.marks n with
      | grey | black => simpa [hn, hm] using hnext succ hsucc _
      | white =>
        simp only [hn, hm]
        apply Prod.Lex.left
        apply Finset.card_lt_card
        refine ⟨whites_update_subset func s n .grey (by decide) _, ?_⟩
        intro hsub
        have hmem : n ∈ whites func s := by
          simp [whites, hm, ((func.blockIndex_eq_some).1 hn).2.2]
        have := hsub hmem
        simp [whites] at this

def run (s : HeaderSearch) : HeaderSearch :=
  match _hs : s.stack with
  | [] => s
  | (id, next) :: rest => run (step func s id next rest)
termination_by ((whites func s).card, pending func s)
decreasing_by exact step_decreases func s id next rest _hs

def root (s : HeaderSearch) (r : Nat) : HeaderSearch :=
  if s.marks r ≠ .white then s
  else run func { s with marks := Function.update s.marks r .grey, stack := [(r, 0)] }

def init : HeaderSearch := ⟨fun _ => .white, fun _ => false, []⟩

def search : HeaderSearch := (List.range func.blocks.length).foldl (root func) init

/-- Every successor of `u` among the first `k` is a header, finished, or the block above on the
route. -/
def Seen (s : HeaderSearch) (done : List Nat) (above : Option Nat) (u k : Nat) : Prop :=
  ∀ j < k, ∀ succ, (succsOf func u)[j]? = some succ → ∀ n, func.blockIndex succ = some n →
    s.loopHeaders n = true ∨ n ∈ done ∨ above = some n

/-- The route: what each block of it has seen, with the block above it. -/
def Route (s : HeaderSearch) (done : List Nat) : Option Nat → List (Nat × Nat) → Prop
  | _, [] => True
  | above, (u, k) :: rest => Seen func s done above u k ∧ Route s done (some u) rest

/-- The finished blocks in the order they finished, and what that order says of the edges. -/
structure Ok (s : HeaderSearch) (done : List Nat) : Prop where
  black : ∀ i, s.marks i = .black ↔ i ∈ done
  grey : ∀ i, s.marks i = .grey ↔ i ∈ s.stack.map Prod.fst
  nodup : (s.stack.map Prod.fst).Nodup
  edges : ∀ u ∈ done, ∀ succ ∈ succsOf func u, ∀ n, func.blockIndex succ = some n →
    s.loopHeaders n = true ∨ n ∈ done ∧ done.idxOf n < done.idxOf u
  route : Route func s done none s.stack

lemma init_ok : Ok func init [] where
  black _ := by simp [init]
  grey _ := by simp [init]
  nodup := nodup_nil
  edges u hu := by cases hu
  route := trivial

variable {s : HeaderSearch} {done : List Nat} {rest : List (Nat × Nat)}

lemma Seen.mono {t : HeaderSearch} {done' : List Nat} {above above' : Option Nat} {u k : Nat}
    (h : Seen func s done above u k) (hh : ∀ n, s.loopHeaders n = true → t.loopHeaders n = true)
    (hd : ∀ n, n ∈ done ∨ above = some n → n ∈ done' ∨ above' = some n) :
    Seen func t done' above' u k := by
  intro j hj succ hs n hn
  rcases h j hj succ hs n hn with h1 | h1
  · exact .inl (hh n h1)
  · exact .inr (hd n h1)

lemma Route.mono {t : HeaderSearch} {done' : List Nat}
    (hh : ∀ n, s.loopHeaders n = true → t.loopHeaders n = true) (hd : ∀ n ∈ done, n ∈ done') :
    ∀ {above above' : Option Nat} {st : List (Nat × Nat)},
      (∀ n, above = some n → n ∈ done' ∨ above' = some n) →
      Route func s done above st → Route func t done' above' st := by
  intro above above' st
  induction st generalizing above above' with
  | nil => intros; trivial
  | cons e rest ih =>
    intro ha h
    refine ⟨h.1.mono func hh ?_, ih (fun n hn => .inr hn) h.2⟩
    intro n hn
    rcases hn with hn | hn
    · exact .inl (hd n hn)
    · exact ha n hn

theorem Ok.advance (h : Ok func s done) {id next : Nat} (hs : s.stack = (id, next) :: rest)
    (h' : Nat → Bool) (hh : ∀ n, s.loopHeaders n = true → h' n = true)
    (hseen : ∀ succ, (succsOf func id)[next]? = some succ → ∀ n, func.blockIndex succ = some n →
      h' n = true ∨ n ∈ done) : Ok func ⟨s.marks, h', (id, next + 1) :: rest⟩ done where
  black := h.black
  grey i := by
    have := h.grey i
    rw [hs] at this
    simpa using this
  nodup := by
    have := h.nodup
    rw [hs] at this
    simpa using this
  edges u hu succ hsucc n hn := (h.edges u hu succ hsucc n hn).imp_left (hh n)
  route := by
    have hr := h.route
    rw [hs] at hr
    refine ⟨?_, .mono func hh (fun n hn => hn) (fun n hn => .inr hn) hr.2⟩
    intro j hj succ hsucc n hn
    rcases Nat.lt_succ_iff_lt_or_eq.mp hj with hlt | rfl
    · rcases hr.1 j hlt succ hsucc n hn with h1 | h1 | h1
      · exact .inl (hh n h1)
      · exact .inr (.inl h1)
      · cases h1
    · rcases hseen succ hsucc n hn with h1 | h1
      · exact .inl h1
      · exact .inr (.inl h1)

lemma Ok.finish {s : HeaderSearch} {done : List Nat} (h : Ok func s done) {id next : Nat}
    {rest : List (Nat × Nat)} (hs : s.stack = (id, next) :: rest)
    (hend : (succsOf func id)[next]? = none) :
    Ok func { s with marks := Function.update s.marks id .black, stack := rest }
      (done ++ [id]) := by
  have hgrey : s.marks id = .grey := (h.grey id).2 (by simp [hs])
  have hnot : id ∉ done := by
    intro hd
    have := (h.black id).2 hd
    rw [hgrey] at this
    cases this
  have hnodup := h.nodup
  have hroute := h.route
  rw [hs] at hnodup hroute
  have hrest : id ∉ rest.map Prod.fst := (nodup_cons.mp hnodup).1
  refine ⟨?_, ?_, (nodup_cons.mp hnodup).2, ?_, ?_⟩
  · intro i
    by_cases hi : i = id
    · subst hi
      simp
    · simp [h.black i, hi]
  · intro i
    by_cases hi : i = id
    · subst hi
      simpa using hrest
    · have := h.grey i
      rw [hs] at this
      simpa [update_of_ne hi, hi] using this
  · intro u hu succ hsucc n hn
    rcases mem_append.mp hu with hu | hu
    · rcases h.edges u hu succ hsucc n hn with h1 | ⟨h1, h2⟩
      · exact .inl h1
      · refine .inr ⟨mem_append_left _ h1, ?_⟩
        rwa [idxOf_append_of_mem h1, idxOf_append_of_mem hu]
    · have hu' : u = id := by simpa using hu
      subst hu'
      obtain ⟨j, hj⟩ := getElem?_of_mem hsucc
      have hjlt : j < next := by
        have h1 := (List.getElem?_eq_some_iff.mp hj).1
        have h2 := List.getElem?_eq_none_iff.mp hend
        omega
      rcases hroute.1 j hjlt succ hj n hn with h1 | h1 | h1
      · exact .inl h1
      · refine .inr ⟨mem_append_left _ h1, ?_⟩
        rw [idxOf_append_of_mem h1, idxOf_append_of_notMem hnot]
        have := idxOf_lt_length_of_mem h1
        omega
      · cases h1
  · refine .mono func ?_ ?_ ?_ hroute.2
    · exact fun n hn => hn
    · exact fun n hn => mem_append_left _ hn
    · intro n hn
      exact .inl (by simp [Option.some.inj hn])

lemma Ok.push {s : HeaderSearch} {done : List Nat} (h : Ok func s done) {id next n : Nat}
    {rest : List (Nat × Nat)} {succ : Int} (hs : s.stack = (id, next) :: rest)
    (hsucc : (succsOf func id)[next]? = some succ) (hn : func.blockIndex succ = some n)
    (hw : s.marks n = .white) :
    Ok func { s with marks := Function.update s.marks n .grey
                     stack := (n, 0) :: (id, next + 1) :: rest } done := by
  have hroute := h.route
  have hnodup := h.nodup
  rw [hs] at hroute hnodup
  have hnot : n ∉ s.stack.map Prod.fst := by
    intro hm
    have := (h.grey n).2 hm
    rw [hw] at this
    cases this
  rw [hs] at hnot
  refine ⟨?_, ?_, ?_, h.edges, ?_⟩
  · intro i
    by_cases hi : i = n
    · subst hi
      have := (h.black i).not
      rw [hw] at this
      simpa using this
    · simp [update_of_ne hi, h.black i]
  · intro i
    by_cases hi : i = n
    · subst hi
      simp
    · have := h.grey i
      rw [hs] at this
      simpa [update_of_ne hi, hi] using this
  · exact nodup_cons.mpr ⟨by simpa using hnot, by simpa using hnodup⟩
  · refine ⟨fun j hj => absurd hj (Nat.not_lt_zero j), ?_, ?_⟩
    · intro j hj succ' hsucc' m hm
      rcases Nat.lt_succ_iff_lt_or_eq.mp hj with hlt | rfl
      · rcases hroute.1 j hlt succ' hsucc' m hm with h1 | h1 | h1
        · exact .inl h1
        · exact .inr (.inl h1)
        · cases h1
      · rw [hsucc] at hsucc'
        cases hsucc'
        rw [hn] at hm
        exact .inr (.inr hm)
    · refine .mono func ?_ ?_ ?_ hroute.2
      · exact fun n hn => hn
      · exact fun n hn => hn
      · exact fun n hn => .inr hn

lemma step_ok (h : Ok func s done) {id next : Nat} (hs : s.stack = (id, next) :: rest) :
    ∃ done', Ok func (step func s id next rest) done' := by
  unfold step
  cases hsucc : (succsOf func id)[next]? with
  | none => exact ⟨_, h.finish func hs hsucc⟩
  | some succ =>
    cases hn : func.blockIndex succ with
    | none =>
      simp only [hn]
      refine ⟨done, h.advance func hs _ (fun n hn => hn) ?_⟩
      intro succ' h1 n h2
      rw [hsucc] at h1
      cases h1
      rw [hn] at h2
      cases h2
    | some n =>
      have honly : ∀ succ', (succsOf func id)[next]? = some succ' →
          ∀ m, func.blockIndex succ' = some m → m = n := by
        intro succ' h1 m h2
        rw [hsucc] at h1
        cases h1
        rw [hn] at h2
        exact (Option.some.inj h2).symm
      cases hm : s.marks n with
      | grey =>
        simp only [hn, hm]
        refine ⟨done, h.advance func hs _ ?_ ?_⟩
        · intro m hh
          by_cases hmn : m = n
          · simp [hmn]
          · simpa [update_of_ne hmn] using hh
        · intro succ' h1 m h2
          rw [honly succ' h1 m h2]
          exact .inl (update_self ..)
      | black =>
        simp only [hn, hm]
        refine ⟨done, h.advance func hs _ (fun n hn => hn) ?_⟩
        intro succ' h1 m h2
        rw [honly succ' h1 m h2]
        exact .inr ((h.black n).1 hm)
      | white =>
        simp only [hn, hm]
        exact ⟨done, h.push func hs hsucc hn hm⟩

theorem step_marks {id next : Nat} {i : Nat}
    (h : s.marks i ≠ .white) : (step func s id next rest).marks i ≠ .white := by
  unfold step
  split
  · by_cases hi : i = id
    · simp [hi]
    · simpa [update_of_ne hi] using h
  · split
    · exact h
    next n hn =>
      split
      · exact h
      · by_cases hi : i = n
        · simp [hi]
        · simpa [update_of_ne hi] using h
      · exact h

lemma run_ok (h : Ok func s done) : ∃ done', Ok func (run func s) done' ∧ (run func s).stack = [] ∧
      ∀ i, s.marks i ≠ .white → (run func s).marks i ≠ .white := by
  induction s using run.induct func generalizing done with
  | case1 s hs =>
    rw [run.eq_def]
    split
    · exact ⟨done, h, hs, fun i hi => hi⟩
    next h1 =>
      rw [hs] at h1
      cases h1
  | case2 s id next rest hs ih =>
    obtain ⟨d1, h1⟩ := step_ok func h hs
    obtain ⟨d2, h2, h3, h4⟩ := ih h1
    rw [run.eq_def]
    split
    next he =>
      rw [hs] at he
      cases he
    next id' next' rest' he =>
      rw [hs] at he
      cases he
      exact ⟨d2, h2, h3, fun i hi => h4 i (step_marks func hi)⟩

lemma root_ok (h : Ok func s done) (hs : s.stack = []) (r : Nat) :
    ∃ done', Ok func (root func s r) done' ∧ (root func s r).stack = [] ∧
      (root func s r).marks r ≠ .white ∧
      ∀ i, s.marks i ≠ .white → (root func s r).marks i ≠ .white := by
  unfold root
  split
  next hr => exact ⟨done, h, hs, hr, fun i hi => hi⟩
  next hr =>
    have hw : s.marks r = .white := by simpa using hr
    have hstart : Ok func { s with marks := Function.update s.marks r .grey, stack := [(r, 0)] }
        done := by
      refine ⟨?_, ?_, by simp, h.edges, ?_⟩
      · intro i
        by_cases hi : i = r
        · subst hi
          have := (h.black i).not
          rw [hw] at this
          simpa using this
        · simp [update_of_ne hi, h.black i]
      · intro i
        by_cases hi : i = r
        · subst hi
          simp
        · have := h.grey i
          rw [hs] at this
          simpa [update_of_ne hi, hi] using this
      · exact ⟨fun j hj => absurd hj (Nat.not_lt_zero j), trivial⟩
    obtain ⟨d, h1, h2, h3⟩ := run_ok func hstart
    refine ⟨d, h1, h2, h3 r (by simp), ?_⟩
    intro i hi
    apply h3 i
    by_cases hir : i = r
    · simp [hir]
    · simpa [update_of_ne hir] using hi

lemma roots_ok (rs : List Nat) (h : Ok func s done) (hs : s.stack = []) :
    ∃ done', Ok func (rs.foldl (root func) s) done' ∧ (rs.foldl (root func) s).stack = [] ∧
      (∀ r ∈ rs, (rs.foldl (root func) s).marks r ≠ .white) ∧
      ∀ i, s.marks i ≠ .white → (rs.foldl (root func) s).marks i ≠ .white := by
  induction rs generalizing s done with
  | nil => exact ⟨done, h, hs, forall_mem_nil _, fun i hi => hi⟩
  | cons r rs ih =>
    obtain ⟨d1, h1, h2, h3, h4⟩ := root_ok func h hs r
    obtain ⟨d2, k1, k2, k3, k4⟩ := ih h1 h2
    refine ⟨d2, k1, k2, ?_, fun i hi => k4 i (h4 i hi)⟩
    intro i hi
    rcases mem_cons.mp hi with rfl | hi
    · exact k4 i h3
    · exact k3 i hi

end HeaderSearch

def LowFunc.isLoopHeader (func : LowFunc) (id : Int) : Bool :=
  match func.blockIndex id with
  | none => false
  | some i => (HeaderSearch.search func).loopHeaders i

/-- Every edge of the successor lists to a block that is no header leads down one rank,
so every cycle of them passes through a header. -/
theorem LowFunc.exists_rank (func : LowFunc) :
    ∃ rank : Nat → Nat, ∀ u < func.blocks.length, ∀ succ ∈ HeaderSearch.succsOf func u,
      ∀ n, func.blockIndex succ = some n → func.isLoopHeader succ = false → rank n < rank u := by
  obtain ⟨done, h1, h2, h3, -⟩ := HeaderSearch.roots_ok func (List.range func.blocks.length)
    (HeaderSearch.init_ok func) rfl
  refine ⟨done.idxOf, ?_⟩
  intro u hu succ hsucc n hn hh
  have hmark : (HeaderSearch.search func).marks u = .black := by
    have hw := h3 u (mem_range.mpr hu)
    have hg : (HeaderSearch.search func).marks u ≠ .grey := by
      intro hg
      have := (h1.grey u).1 hg
      rw [h2] at this
      cases this
    cases hc : (HeaderSearch.search func).marks u with
    | white => exact absurd hc hw
    | grey => exact absurd hc hg
    | black => rfl
  rcases h1.edges u ((h1.black u).1 hmark) succ hsucc n hn with hhead | ⟨-, hlt⟩
  · simp only [isLoopHeader, hn] at hh
    exact absurd hhead (by simpa [HeaderSearch.search] using hh)
  · exact hlt

end NeverD.Explore
