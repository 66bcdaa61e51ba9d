import NeverD.Lib.WalkOrder

namespace NeverD.Lib.Walk
open List Function

variable {β : Type} {deps : Nat → List Nat} {eval : (Nat → β) → Nat → β} {cut : β}

def unseenWeight (weight : Nat → Nat) (states : Nat → VisitState) : Nat → Nat
  | 0 => 0
  | n + 1 => unseenWeight weight states n + if states n = .unseen then weight n else 0

def load (stack : List Frame) : Nat := (stack.map fun f => f.pending.length + 1).sum

lemma load_cons (f : Frame) (stack : List Frame) :
    load (f :: stack) = f.pending.length + 1 + load stack := rfl

lemma unseenWeight_congr {weight : Nat → Nat} {states states' : Nat → VisitState} {n : Nat}
    (h : ∀ v < n, states v = .unseen ↔ states' v = .unseen) :
    unseenWeight weight states n = unseenWeight weight states' n := by
  induction n with
  | zero => rfl
  | succ n ih =>
    unfold unseenWeight
    rw [ih fun v hv => h v (by omega), if_congr (h n (by omega)) rfl rfl]

lemma unseenWeight_update {weight : Nat → Nat} {states : Nat → VisitState} {n d : Nat} (hd : d < n)
    (hstate : states d = .unseen) :
    unseenWeight weight (Function.update states d .active) n + weight d =
      unseenWeight weight states n := by
  induction n with
  | zero => omega
  | succ n ih =>
    unfold unseenWeight
    by_cases heq : d = n
    · rw [← heq, update_self, hstate, if_neg (by simp), if_pos rfl, Nat.add_zero]
      congr 1
      apply unseenWeight_congr
      intro v hv
      rw [update_of_ne (by omega)]
    · rw [update_of_ne (Ne.symm heq), ← ih (by omega)]
      omega

lemma unseenWeight_le (weight : Nat → Nat) (states : Nat → VisitState) (n : Nat) :
    unseenWeight weight states n ≤ unseenWeight weight (fun _ => .unseen) n := by
  induction n with
  | zero => exact Nat.le_refl _
  | succ n ih =>
    unfold unseenWeight
    rw [if_pos rfl]
    split <;> omega

section

variable {size : Nat} {weight : Nat → Nat} (hbound : ∀ {v d}, d ∈ deps v → d < size)
variable (hweight : ∀ {v}, v < size → (deps v).length + 2 ≤ weight v)

include hbound hweight

theorem next_load {memo memo' : Memo β} {f : Frame} {stack stack' : List Frame}
    (hnext : Next deps eval cut memo f stack memo' stack') (hsound : Sound deps memo (f :: stack)) :
    unseenWeight weight memo'.states size + load stack' < unseenWeight weight memo.states size +
      load (f :: stack) := by
  cases hnext with
  | @visit id d pending hasCycle _ hstate =>
    have hd : d < size := hbound (hsound.framed.1.pending d mem_cons_self)
    have hupdate : unseenWeight weight (Function.update memo.states d .active) size + weight d =
        unseenWeight weight memo.states size := unseenWeight_update hd hstate
    have hw := hweight hd
    simp only [load_cons, length_cons]
    omega
  | back hstate | known hstate =>
    simp only [load_cons, length_cons]
    omega
  | @finish id hasCycle _ =>
    have hactive := (hsound.active id).mpr mem_cons_self
    have hsame : unseenWeight weight (Function.update memo.states id .complete) size =
        unseenWeight weight memo.states size := by
      apply unseenWeight_congr
      intro v _
      by_cases heq : v = id
      · rw [heq, update_self, hactive]
        simp
      · rw [update_of_ne heq]
    rw [hsame, load_cons]
    omega

lemma walk_ends {fuel : Nat} {memo : Memo β} {stack : List Frame} (hsound : Sound deps memo stack)
    (hfuel : unseenWeight weight memo.states size + load stack ≤ fuel) :
    ∃ memo', Id.run (walk (m := Id) deps eval cut fuel memo stack) = some memo' := by
  induction fuel generalizing memo stack with
  | zero =>
    cases stack with
    | nil => exact ⟨memo, rfl⟩
    | cons f stack =>
      rw [load_cons] at hfuel
      omega
  | succ fuel ih =>
    cases stack with
    | nil => exact ⟨memo, rfl⟩
    | cons f stack =>
      have hnext := next_step deps eval cut memo f stack
      have hload := next_load hbound hweight hnext hsound
      exact ih (hsound.next hnext) (Nat.le_of_lt_succ (Nat.lt_of_lt_of_le hload hfuel))

end

lemma seen_next {memo memo' : Memo β} {f : Frame} {stack stack' : List Frame} {v : Nat}
    (hnext : Next deps eval cut memo f stack memo' stack') (h : memo.states v ≠ .unseen) :
    memo'.states v ≠ .unseen := by
  cases hnext with
  | @visit id d pending hasCycle _ hstate =>
    have hne : v ≠ d := by
      intro heq
      rw [heq] at h
      exact h hstate
    dsimp only
    rw [update_of_ne hne]
    exact h
  | back hstate => exact h
  | known hstate => exact h
  | @finish id hasCycle _ =>
    dsimp only
    by_cases heq : v = id
    · rw [heq, update_self]
      simp
    · rw [update_of_ne heq]
      exact h

lemma Sound.complete {memo : Memo β} (h : Sound deps memo []) {v : Nat}
    (hv : memo.states v ≠ .unseen) : memo.states v = .complete := by
  cases hstate : memo.states v with
  | unseen => exact absurd hstate hv
  | active => exact absurd ((h.active v).mp hstate) not_mem_nil
  | complete => rfl

lemma Sound.reaches {memo : Memo β} (h : Sound deps memo []) {v u : Nat}
    (hv : memo.states v = .complete)
    (hreach : Relation.ReflTransGen (Dep deps) v u) : memo.states u = .complete := by
  induction hreach with
  | refl => exact hv
  | tail _ hdep ih => exact h.complete (h.closed _ ih _ hdep)

/-- A rule for a question: what holds when its walk starts and is kept by every step holds of what
it leaves. -/
theorem classify_rule {P : Memo β → List Frame → Prop}
    (hstep : ∀ {memo f stack memo' stack'}, Next deps eval cut memo f stack memo' stack' →
      Sound deps memo (f :: stack) → P memo (f :: stack) → P memo' stack')
    {size fuel root : Nat} {memo memo' : Memo β} {x : β} (hroot : root < size)
    (hsound : Sound deps memo []) (hnew : memo.states root ≠ .complete)
    (hstart : P { memo with states := Function.update memo.states root .active }
    [⟨root, deps root, false⟩])
    (h : Id.run (classify (m := Id) deps eval cut size fuel memo root) = some (x, memo')) :
    Sound deps memo' [] ∧ P memo' [] ∧ memo'.states root = .complete ∧ x = memo'.results root := by
  unfold classify at h
  rw [if_neg (by omega), if_neg hnew] at h
  obtain ⟨hstate, hpushed⟩ := hsound.start hnew
  obtain ⟨final, hfinal, hpair⟩ := Option.map_eq_some_iff.mp h
  have hend := walk_rule (P := fun memo stack => Sound deps memo stack ∧ P memo stack ∧
    memo.states root ≠ .unseen)
    (fun hnext hbefore => ⟨hbefore.1.next hnext, hstep hnext hbefore.1 hbefore.2.1,
      seen_next hnext hbefore.2.2⟩)
    ⟨hpushed, hstart, by dsimp only; rw [update_self]; simp⟩ hfinal
  have hmemo : final = memo' := congrArg Prod.snd hpair
  have hx : final.results root = x := congrArg Prod.fst hpair
  rw [hmemo] at hend hx
  exact ⟨hend.1, hend.2.1, hend.1.complete hend.2.2, hx.symm⟩

structure Query where
  spent : Nat
  root : Nat

def fresh (cut : β) : Memo β := ⟨fun _ => .unseen, fun _ => cut⟩

/-- The answers to questions, one after the other. The first that cannot pay is the last. -/
def answers (dependencies : Nat → Metered (List Nat)) (evaluate : (Nat → β) → Nat → Metered β)
    (cut : β) (size fuel : Nat) : Memo β → Nat → List Query → List (Nat × β)
  | _, _, [] => []
  | memo, budget, query :: rest =>
    match classify dependencies evaluate cut size fuel memo query.root (budget - query.spent) with
    | some (some (value, memo), left) =>
      (query.root, value) :: answers dependencies evaluate cut size fuel memo left rest
    | some (none, _) => []
    | none => []

/-- Questions asked in any order get the same answers. -/
def HistoryIndependent (dependencies : Nat → Metered (List Nat))
    (evaluate : (Nat → β) → Nat → Metered β) (cut : β) (size fuel : Nat) : Prop :=
  ∀ budget budget' queries queries' v x y,
    (v, x) ∈ answers dependencies evaluate cut size fuel (fresh cut) budget queries →
    (v, y) ∈ answers dependencies evaluate cut size fuel (fresh cut) budget' queries' → x = y

lemma sound_fresh : Sound deps (fresh cut) [] where
  active v := ⟨(fun h => by cases h), fun h => absurd h not_mem_nil⟩
  nodup := nodup_nil
  closed v h := by cases h
  framed := trivial

/-- Some nodes have a result of their own; all others are cut as soon as one of their dependencies
is. -/
structure Evaluates (dependencies : Nat → Metered (List Nat))
    (evaluate : (Nat → β) → Nat → Metered β) (cut : β)
    (size fuel : Nat) (deps : Nat → List Nat) (eval : (Nat → β) → Nat → β) (Fixed : Nat → Prop)
    (weight : Nat → Nat) : Prop where
  findsDeps : ∀ id, Metered.Computes (dependencies id) (deps id)
  evaluates : ∀ results id, Metered.Computes (evaluate results id) (eval results id)
  bound : ∀ {v d}, d ∈ deps v → v < size ∧ d < size
  outside : ∀ {v} (results : Nat → β), size ≤ v → eval results v = cut
  weighs : ∀ {v}, v < size → (deps v).length + 2 ≤ weight v
  enough : unseenWeight weight (fun _ => .unseen) size ≤ fuel
  congr : ∀ {v} {results results' : Nat → β}, (∀ d ∈ deps v, results d = results' d) →
    eval results v = eval results' v
  fixed : ∀ {v}, Fixed v → ∃ x, x ≠ cut ∧ ∀ results, eval results v = x
  strict : ∀ {v d} {results : Nat → β}, ¬Fixed v → d ∈ deps v → results d = cut →
    eval results v = cut

section

variable {dependencies : Nat → Metered (List Nat)} {evaluate : (Nat → β) → Nat → Metered β}
    {size fuel : Nat}
variable {Fixed : Nat → Prop} {weight : Nat → Nat}
variable (h : Evaluates dependencies evaluate cut size fuel deps eval Fixed weight)

include h

theorem classify_ends {memo : Memo β} (hsound : Sound deps memo []) (root : Nat) :
    ∃ x memo', Id.run (classify (m := Id) deps eval cut size fuel memo root) = some (x, memo') := by
  unfold classify
  split
  · exact ⟨_, _, rfl⟩
  · split
    · exact ⟨_, _, rfl⟩
    · rename_i hroot hnew
      have hroot : root < size := by omega
      obtain ⟨hstate, hpushed⟩ := hsound.start hnew
      have hupdate : unseenWeight weight (Function.update memo.states root .active) size +
          weight root = unseenWeight weight memo.states size := unseenWeight_update hroot hstate
      have hle := unseenWeight_le weight memo.states size
      have hfuel := h.enough
      have hweight := h.weighs hroot
      have hload : load [⟨root, deps root, false⟩] = (deps root).length + 1 := rfl
      have hends : ∃ memo', Id.run (walk (m := Id) deps eval cut fuel
          { memo with states := Function.update memo.states root .active }
          [⟨root, deps root, false⟩]) = some memo' :=
        walk_ends (fun hd => (h.bound hd).2) h.weighs hpushed (by dsimp only; omega)
      obtain ⟨memo', hmemo⟩ := hends
      exact ⟨memo'.results root, memo',
        congrArg (Option.map fun memo : Memo β => (memo.results root, memo)) hmemo⟩

lemma result_outside {v : Nat} (hv : size ≤ v) : Result deps eval cut v cut := by
  have hno : ¬OnCycle deps v := by
    intro hcycle
    obtain ⟨d, hd, -⟩ := hcycle.dependency
    have := (h.bound hd).1
    omega
  rw [← h.outside (fun _ => cut) hv]
  apply Result.evaluated hno
  intro d hd
  have := (h.bound hd).1
  omega

section

variable (hcycles : ∀ {v}, Fixed v → v ∈ deps v ∨ ¬OnCycle deps v)

include hcycles

lemma classify_result {memo memo' : Memo β} {root : Nat} {x : β} (hsound : Sound deps memo [])
    (hresults : ∀ v, memo.states v = .complete → Result deps eval cut v (memo.results v))
    (hclassify : Id.run (classify (m := Id) deps eval cut size fuel memo root) = some (x, memo')) :
    Sound deps memo' [] ∧ (∀ v, memo'.states v = .complete →
      Result deps eval cut v (memo'.results v)) ∧
    Result deps eval cut root x := by
  by_cases hroot : size ≤ root
  · unfold classify at hclassify
    rw [if_pos hroot] at hclassify
    obtain ⟨hx, hmemo⟩ := Prod.mk.inj (Option.some.inj hclassify)
    rw [← hx, ← hmemo]
    exact ⟨hsound, hresults, result_outside h hroot⟩
  · by_cases hcomplete : memo.states root = .complete
    · unfold classify at hclassify
      rw [if_neg hroot, if_pos hcomplete] at hclassify
      obtain ⟨hx, hmemo⟩ := Prod.mk.inj (Option.some.inj hclassify)
      rw [← hx, ← hmemo]
      exact ⟨hsound, hresults, hresults root hcomplete⟩
    · obtain ⟨hsound', hresults', hdone, hx⟩ := classify_rule
        (P := fun memo _ => ∀ v, memo.states v = .complete →
          Result deps eval cut v (memo.results v))
        (fun hnext hbefore => results_next h.strict hcycles hnext hbefore) (by omega)
          hsound hcomplete
        (by
          intro v hv
          dsimp only at hv ⊢
          by_cases heq : v = root
          · rw [heq, update_self] at hv
            cases hv
          · rw [update_of_ne heq] at hv
            exact hresults v hv) hclassify
      rw [hx]
      exact ⟨hsound', hresults', hresults' root hdone⟩

lemma answers_result {memo : Memo β} {budget : Nat} {queries : List Query} {v : Nat} {x : β}
    (hsound : Sound deps memo []) (hresults : ∀ v, memo.states v = .complete →
    Result deps eval cut v (memo.results v))
    (hmem : (v, x) ∈ answers dependencies evaluate cut size fuel memo budget queries) :
    Result deps eval cut v x := by
  induction queries generalizing memo budget with
  | nil => cases hmem
  | cons query rest ih =>
    unfold answers at hmem
    split at hmem
    · rename_i value memo' left hrun
      have hclassify :=
        (classify_computes h.findsDeps h.evaluates size fuel memo query.root).sound hrun
      obtain ⟨hsound', hresults', hvalue⟩ :=
        classify_result h hcycles hsound hresults hclassify.symm
      rcases mem_cons.mp hmem with heq | hmem
      · have hv : v = query.root := congrArg Prod.fst heq
        have hx : x = value := congrArg Prod.snd heq
        rw [hv, hx]
        exact hvalue
      · exact ih hsound' hresults' hmem
    · cases hmem
    · cases hmem

end

/-- Asked for first, a node on a cycle has its own result. Asked for behind one of its dependencies,
it is cut. -/
theorem answers_differ {v : Nat} (hfixed : Fixed v) (hself : v ∉ deps v) (hcycle : OnCycle deps v) :
    ¬HistoryIndependent dependencies evaluate cut size fuel := by
  obtain ⟨own, hown, heval⟩ := h.fixed hfixed
  obtain ⟨d, hd, hback, -⟩ := hcycle.dependency
  obtain ⟨hv, hdsize⟩ := h.bound hd
  have hne : v ≠ d := by
    intro heq
    rw [← heq] at hd
    exact hself hd
  have hrooted : ∀ root, Rooted deps eval cut root
      { fresh cut with states := Function.update (fresh cut).states root .active }
      [⟨root, deps root, false⟩] := by
    intro root
    refine ⟨?_, ?_, fun hnil => by cases hnil⟩
    · intro f hf
      rw [← Option.some.inj hf]
      exact ⟨rfl, fun hcycle => by cases hcycle⟩
    · intro u hu hcomplete
      dsimp only at hcomplete
      rw [update_of_ne hu] at hcomplete
      cases hcomplete
  have hnew : ∀ root, (fresh cut).states root ≠ .complete := fun root hroot => by cases hroot
  obtain ⟨x, first, hfirst⟩ := classify_ends h (sound_fresh : Sound deps (fresh cut) []) v
  obtain ⟨y, second, hsecond⟩ := classify_ends h (sound_fresh : Sound deps (fresh cut) []) d
  obtain ⟨-, hrootedv, -, hx⟩ :=
    classify_rule (fun hnext hsound hP => hP.next hnext hsound) hv sound_fresh (hnew v)
    (hrooted v) hfirst
  obtain ⟨hsound, hrootedd, hdone, -⟩ :=
    classify_rule (fun hnext hsound hP => hP.next hnext hsound) hdsize sound_fresh
    (hnew d) (hrooted d) hsecond
  have hxown : x = own := by
    obtain ⟨results, hresult⟩ := (hrootedv.final rfl).2 hself
    rw [hx, hresult, heval]
  have hvdone : second.states v = .complete := hsound.reaches hdone hback
  have hvcut : second.results v = cut := hrootedd.cutBack v hne hvdone hd
  obtain ⟨cost, hcost⟩ :=
    (classify_computes h.findsDeps h.evaluates size fuel (fresh cut) v).affordable
  obtain ⟨cost', hcost'⟩ :=
    (classify_computes h.findsDeps h.evaluates size fuel (fresh cut) d).affordable
  have hasked : classify dependencies evaluate cut size fuel second v 0 =
      some (some (cut, second), 0) := by
    unfold classify
    rw [if_neg (by omega), if_pos hvdone, hvcut]
    rfl
  intro hindependent
  apply hown
  rw [← hxown]
  apply hindependent (cost + 0) (cost' + 0) [⟨0, v⟩] [⟨0, d⟩, ⟨0, v⟩] v x cut
  · unfold answers
    rw [Nat.sub_zero, hcost, hfirst]
    exact mem_cons_self
  · unfold answers
    rw [Nat.sub_zero, hcost', hsecond]
    dsimp only
    unfold answers
    rw [Nat.sub_zero, hasked]
    exact mem_cons_of_mem _ mem_cons_self

/-- The order of the questions does not matter exactly if no node with a result of its own is on a
cycle, apart from nodes that depend on themselves. -/
theorem historyIndependent_iff : HistoryIndependent dependencies evaluate cut size fuel ↔
    ∀ v, Fixed v → v ∈ deps v ∨ ¬OnCycle deps v := by
  constructor
  · intro hindependent v hfixed
    by_contra hnot
    rw [not_or, not_not] at hnot
    exact answers_differ h hfixed hnot.1 hnot.2 hindependent
  · intro hcycles budget budget' queries queries' v x y hx hy
    have hnone : ∀ v, (fresh cut).states v = .complete →
        Result deps eval cut v ((fresh cut).results v) :=
      fun v hv => by cases hv
    exact (answers_result h (hcycles _) sound_fresh hnone hx).unique h.congr
      (answers_result h (hcycles _) sound_fresh hnone hy)

end

end NeverD.Lib.Walk
