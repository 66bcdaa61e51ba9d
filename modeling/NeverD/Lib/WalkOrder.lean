import NeverD.Lib.Walk

namespace NeverD.Lib.Walk
open List Function

variable {β : Type} (deps : Nat → List Nat) (eval : (Nat → β) → Nat → β) (cut : β)

def Dep (v d : Nat) : Prop := d ∈ deps v

def OnCycle (v : Nat) : Prop := Relation.TransGen (Dep deps) v v

inductive Next : Memo β → Frame → List Frame → Memo β → List Frame → Prop
  | visit {memo id d pending hasCycle stack} (hstate : memo.states d = .unseen) :
    Next memo ⟨id, d :: pending, hasCycle⟩ stack { memo with
      states := Function.update memo.states d .active }
      (⟨d, deps d, false⟩ :: ⟨id, pending, hasCycle⟩ :: stack)
  | back {memo id d pending hasCycle stack} (hstate : memo.states d = .active) :
    Next memo ⟨id, d :: pending, hasCycle⟩ stack memo (⟨id, pending, true⟩ :: stack)
  | known {memo id d pending hasCycle stack} (hstate : memo.states d = .complete) :
    Next memo ⟨id, d :: pending, hasCycle⟩ stack memo (⟨id, pending, hasCycle⟩ :: stack)
  | finish {memo id hasCycle stack} :
    Next memo ⟨id, [], hasCycle⟩ stack ⟨Function.update memo.states id .complete,
      Function.update memo.results id (if hasCycle then cut else eval memo.results id)⟩ stack

lemma next_step (memo : Memo β) (f : Frame) (stack : List Frame) :
    Next deps eval cut memo f stack (Id.run (step (m := Id) deps eval cut memo f stack)).1
      (Id.run (step (m := Id) deps eval cut memo f stack)).2 := by
  obtain ⟨id, pending, hasCycle⟩ := f
  unfold step
  cases pending with
  | nil =>
    cases hasCycle with
    | false => exact @Next.finish _ deps eval cut memo id false stack
    | true => exact @Next.finish _ deps eval cut memo id true stack
  | cons d pending =>
    dsimp only
    cases hstate : memo.states d with
    | unseen => exact .visit hstate
    | active => exact .back hstate
    | complete => exact .known hstate

variable {deps eval cut}

theorem walk_rule {P : Memo β → List Frame → Prop}
    (hstep : ∀ {memo f stack memo' stack'}, Next deps eval cut memo f stack memo' stack' →
      P memo (f :: stack) →
      P memo' stack') {fuel : Nat} {memo memo' : Memo β} {stack : List Frame}
      (hstart : P memo stack)
    (h : Id.run (walk (m := Id) deps eval cut fuel memo stack) = some memo') : P memo' [] := by
  induction fuel generalizing memo stack with
  | zero =>
    cases stack with
    | nil =>
      rw [← Option.some.inj h]
      exact hstart
    | cons f stack => cases h
  | succ fuel ih =>
    cases stack with
    | nil =>
      rw [← Option.some.inj h]
      exact hstart
    | cons f stack => exact ih (hstep (next_step deps eval cut memo f stack) hstart) h

variable (deps) in
/-- A frame on the stack, below a node that it waits for. -/
structure FrameOk (memo : Memo β) (above : Option Nat) (f : Frame) : Prop where
  pending : ∀ d ∈ f.pending, d ∈ deps f.id
  seen : ∀ d ∈ deps f.id, d ∈ f.pending ∨ memo.states d ≠ .unseen
  done : f.hasCycle = false → ∀ d ∈ deps f.id, d ∈ f.pending ∨ memo.states d = .complete ∨
    above = some d
  cycle : f.hasCycle = true → OnCycle deps f.id
  waits : ∀ u, above = some u → u ∈ deps f.id

variable (deps) in
def Framed (memo : Memo β) : Option Nat → List Frame → Prop
  | _, [] => True
  | above, f :: rest => FrameOk deps memo above f ∧ Framed memo (some f.id) rest

variable (deps) in
structure Sound (memo : Memo β) (stack : List Frame) : Prop where
  active : ∀ v, memo.states v = .active ↔ v ∈ stack.map Frame.id
  nodup : (stack.map Frame.id).Nodup
  closed : ∀ v, memo.states v = .complete → ∀ d ∈ deps v, memo.states d ≠ .unseen
  framed : Framed deps memo none stack

lemma FrameOk.mono {memo memo' : Memo β} {above above' : Option Nat} {f : Frame}
    (h : FrameOk deps memo above f)
    (hseen : ∀ v, memo.states v ≠ .unseen → memo'.states v ≠ .unseen)
    (hcomplete : ∀ v, memo.states v = .complete → memo'.states v = .complete)
    (habove : ∀ v, above = some v → memo'.states v = .complete ∨ above' = some v)
    (hwaits : ∀ u, above' = some u → u ∈ deps f.id) : FrameOk deps memo' above' f where
  pending := h.pending
  seen d hd := (h.seen d hd).imp_right (hseen d)
  done hcycle d hd := by
    rcases h.done hcycle d hd with hpending | hdone | hupper
    · exact .inl hpending
    · exact .inr (.inl (hcomplete d hdone))
    · exact .inr (habove d hupper)
  cycle := h.cycle
  waits := hwaits

lemma Framed.mono {memo memo' : Memo β} {above : Option Nat} {stack : List Frame}
    (h : Framed deps memo above stack)
    (hseen : ∀ v, memo.states v ≠ .unseen → memo'.states v ≠ .unseen)
    (hcomplete : ∀ v, memo.states v = .complete → memo'.states v = .complete) :
    Framed deps memo' above stack := by
  induction stack generalizing above with
  | nil => trivial
  | cons f rest ih =>
    obtain ⟨hf, hrest⟩ := h
    exact ⟨hf.mono hseen hcomplete (fun v hv => .inr hv) hf.waits, ih hrest⟩

lemma Framed.reaches {memo : Memo β} {u : Nat} {stack : List Frame}
    (h : Framed deps memo (some u) stack) : ∀ f ∈ stack, Relation.TransGen (Dep deps) f.id u := by
  induction stack generalizing u with
  | nil => intro f hf; cases hf
  | cons f rest ih =>
    obtain ⟨hf, hrest⟩ := h
    intro g hg
    have hlast : Dep deps f.id u := hf.waits u rfl
    rcases mem_cons.mp hg with hg | hg
    · rw [hg]
      exact .single hlast
    · exact (ih hrest g hg).tail hlast

variable {memo : Memo β} {id d : Nat} {pending : List Nat} {hasCycle : Bool} {stack : List Frame}

lemma Sound.push (hactive : ∀ v, memo.states v = .active ↔ v ∈ stack.map Frame.id)
    (hnodup : (stack.map Frame.id).Nodup)
    (hclosed : ∀ v, memo.states v = .complete → ∀ d ∈ deps v, memo.states d ≠ .unseen)
    (hstate : memo.states d = .unseen)
    (hframed : ∀ memo' : Memo β, memo'.states d ≠ .unseen →
      (∀ v, memo.states v ≠ .unseen → memo'.states v ≠ .unseen) →
      (∀ v, memo.states v = .complete → memo'.states v = .complete) →
      Framed deps memo' (some d) stack) :
    Sound deps { memo with states := Function.update memo.states d .active }
      (⟨d, deps d, false⟩ :: stack) := by
  have hself : Function.update memo.states d .active d = .active := update_self _ _ _
  have hother : ∀ v, v ≠ d → Function.update memo.states d .active v = memo.states v :=
    fun v hv => update_of_ne hv _ _
  have hseen : ∀ v, memo.states v ≠ .unseen →
      Function.update memo.states d .active v ≠ .unseen := by
    intro v hv
    rw [hother v (fun heq => hv (heq ▸ hstate))]
    exact hv
  have hcomplete : ∀ v, memo.states v = .complete →
      Function.update memo.states d .active v = .complete := by
    intro v hv
    rw [hother v (fun heq => by rw [heq, hstate] at hv; cases hv)]
    exact hv
  refine ⟨?_, ?_, ?_, ⟨fun e he => he, fun e he => .inl he, fun _ e he => .inl he, ?_, ?_⟩, ?_⟩
  · intro v
    dsimp only
    by_cases hv : v = d
    · rw [hv]
      exact ⟨fun _ => mem_cons_self, fun _ => hself⟩
    · rw [hother v hv, hactive v, map_cons, mem_cons, or_iff_right hv]
  · rw [map_cons]
    apply nodup_cons.mpr
    refine ⟨?_, hnodup⟩
    intro hmem
    rw [(hactive d).mpr hmem] at hstate
    cases hstate
  · intro v hv e he
    dsimp only at hv
    by_cases hvd : v = d
    · rw [hvd, hself] at hv
      cases hv
    · rw [hother v hvd] at hv
      exact hseen e (hclosed v hv e he)
  · intro hcycle
    cases hcycle
  · intro u hu
    cases hu
  · exact hframed _ (by dsimp only; rw [hself]; simp) hseen hcomplete

lemma Sound.visit (h : Sound deps memo (⟨id, d :: pending, hasCycle⟩ :: stack))
    (hstate : memo.states d = .unseen) :
    Sound deps { memo with states := Function.update memo.states d .active }
      (⟨d, deps d, false⟩ :: ⟨id, pending, hasCycle⟩ :: stack) := by
  obtain ⟨hactive, hnodup, hclosed, hf, hrest⟩ := h
  apply @Sound.push _ _ memo d (⟨id, pending, hasCycle⟩ :: stack) hactive hnodup hclosed hstate
  intro memo' hd hseen hcomplete
  refine ⟨⟨?_, ?_, ?_, hf.cycle, ?_⟩, hrest.mono hseen hcomplete⟩
  · exact fun e he => hf.pending e (mem_cons_of_mem _ he)
  · intro e he
    rcases hf.seen e he with hpending | hstate'
    · rcases mem_cons.mp hpending with heq | hpending
      · rw [heq]
        exact .inr hd
      · exact .inl hpending
    · exact .inr (hseen e hstate')
  · intro hcycle e he
    rcases hf.done hcycle e he with hpending | hdone | habove
    · rcases mem_cons.mp hpending with heq | hpending
      · exact .inr (.inr (by rw [heq]))
      · exact .inl hpending
    · exact .inr (.inl (hcomplete e hdone))
    · cases habove
  · intro u hu
    rw [← Option.some.inj hu]
    exact hf.pending d mem_cons_self

lemma Sound.start {root : Nat} (h : Sound deps memo []) (hroot : memo.states root ≠ .complete) :
    memo.states root = .unseen ∧
    Sound deps { memo with states := Function.update memo.states root .active }
    [⟨root, deps root, false⟩] := by
  have hstate : memo.states root = .unseen := by
    cases hroot' : memo.states root with
    | unseen => rfl
    | active => exact absurd ((h.active root).mp hroot') not_mem_nil
    | complete => exact absurd hroot' hroot
  exact ⟨hstate, Sound.push h.active h.nodup h.closed hstate fun _ _ _ _ => trivial⟩

theorem FrameOk.look {hasCycle' : Bool} (h : FrameOk deps memo none ⟨id, d :: pending, hasCycle⟩)
    (hseen : memo.states d ≠ .unseen) (hkeeps : hasCycle' = false → hasCycle = false ∧
    memo.states d = .complete)
    (hcycle : hasCycle' = true → OnCycle deps id) :
    FrameOk deps memo none ⟨id, pending, hasCycle'⟩ where
  pending e he := h.pending e (mem_cons_of_mem _ he)
  seen e he := by
    rcases h.seen e he with hpending | hstate
    · rcases mem_cons.mp hpending with heq | hpending
      · rw [heq]
        exact .inr hseen
      · exact .inl hpending
    · exact .inr hstate
  done hno e he := by
    obtain ⟨hbefore, hcomplete⟩ := hkeeps hno
    rcases h.done hbefore e he with hpending | hdone
    · rcases mem_cons.mp hpending with heq | hpending
      · rw [heq]
        exact .inr (.inl hcomplete)
      · exact .inl hpending
    · exact .inr hdone
  cycle := hcycle
  waits := h.waits

lemma Sound.back (h : Sound deps memo (⟨id, d :: pending, hasCycle⟩ :: stack))
    (hstate : memo.states d = .active) : Sound deps memo (⟨id, pending, true⟩ :: stack) := by
  obtain ⟨hactive, hnodup, hclosed, hf, hrest⟩ := h
  have hdep : d ∈ deps id := hf.pending d mem_cons_self
  refine ⟨hactive, hnodup, hclosed, hf.look (by rw [hstate]; simp) (fun h => by cases h) ?_, hrest⟩
  intro _
  -- The dependency is on the stack, so it depends on this node in turn.
  obtain ⟨g, hg, hgd⟩ := mem_map.mp ((hactive d).mp hstate)
  rcases mem_cons.mp hg with hg | hg
  · have heq : d = id := by rw [← hgd, hg]
    exact .single (show id ∈ deps id from heq ▸ hdep)
  · have hback := hrest.reaches g hg
    rw [hgd] at hback
    exact .head hdep hback

lemma Sound.known (h : Sound deps memo (⟨id, d :: pending, hasCycle⟩ :: stack))
    (hstate : memo.states d = .complete) : Sound deps memo (⟨id, pending, hasCycle⟩ :: stack) := by
  obtain ⟨hactive, hnodup, hclosed, hf, hrest⟩ := h
  exact ⟨hactive, hnodup, hclosed, hf.look (by rw [hstate]; simp) (fun h => ⟨h, hstate⟩) hf.cycle,
    hrest⟩

lemma Sound.finish {results : Nat → β} (h : Sound deps memo (⟨id, [], hasCycle⟩ :: stack)) :
    Sound deps ⟨Function.update memo.states id .complete, results⟩ stack := by
  obtain ⟨hactive, hnodup, hclosed, hf, hrest⟩ := h
  have hself : Function.update memo.states id .complete id = .complete := update_self _ _ _
  have hother : ∀ v, v ≠ id → Function.update memo.states id .complete v = memo.states v :=
    fun v hv => update_of_ne hv _ _
  have hcomplete : ∀ v, memo.states v = .complete →
      Function.update memo.states id .complete v = .complete := by
    intro v hv
    by_cases heq : v = id
    · rw [heq]
      exact hself
    · rw [hother v heq]
      exact hv
  have hseen : ∀ v, memo.states v ≠ .unseen →
      Function.update memo.states id .complete v ≠ .unseen := by
    intro v hv
    by_cases heq : v = id
    · rw [heq, hself]
      simp
    · rw [hother v heq]
      exact hv
  obtain ⟨hnotin, hnodup⟩ := nodup_cons.mp hnodup
  refine ⟨?_, hnodup, ?_, ?_⟩
  · intro v
    by_cases heq : v = id
    · dsimp only
      rw [heq, hself]
      exact ⟨(fun h => by cases h), fun h => absurd h hnotin⟩
    · show Function.update memo.states id .complete v = .active ↔ v ∈ stack.map Frame.id
      rw [hother v heq, hactive v, map_cons, mem_cons, or_iff_right heq]
  · intro v hv e he
    by_cases heq : v = id
    · rw [heq] at he
      rcases hf.seen e he with hpending | hstate
      · cases hpending
      · exact hseen e hstate
    · dsimp only at hv
      rw [hother v heq] at hv
      exact hseen e (hclosed v hv e he)
  · cases stack with
    | nil => trivial
    | cons g rest =>
      obtain ⟨hg, hrest⟩ := hrest
      refine ⟨hg.mono hseen hcomplete ?_ (fun u hu => by cases hu), hrest.mono hseen hcomplete⟩
      intro v hv
      rw [← Option.some.inj hv]
      exact .inl hself

lemma Sound.next {f : Frame} {memo' : Memo β} {stack' : List Frame}
    (hnext : Next deps eval cut memo f stack memo' stack') (h : Sound deps memo (f :: stack)) :
    Sound deps memo' stack' := by
  cases hnext with
  | visit hstate => exact h.visit hstate
  | back hstate => exact h.back hstate
  | known hstate => exact h.known hstate
  | finish => exact h.finish

variable (deps eval cut) in
/-- The result of a node: nothing on a cycle has one, and the others follow from their
dependencies. -/
inductive Result : Nat → β → Prop
  | cyclic {v} : OnCycle deps v → Result v cut
  | evaluated {v results} : ¬OnCycle deps v → (∀ d ∈ deps v, Result d (results d)) →
      Result v (eval results v)

theorem Result.unique (hlocal : ∀ {v} {results results' : Nat → β},
    (∀ d ∈ deps v, results d = results' d) →
    eval results v = eval results' v) {v : Nat} {x y : β} (hx : Result deps eval cut v x)
    (hy : Result deps eval cut v y) : x = y := by
  induction hx generalizing y with
  | cyclic hcycle =>
    cases hy with
    | cyclic _ => rfl
    | evaluated hno _ => exact absurd hcycle hno
  | evaluated hno _ ih =>
    cases hy with
    | cyclic hcycle => exact absurd hcycle hno
    | evaluated _ hdeps => exact hlocal fun d hd => ih d hd (hdeps d hd)

lemma Result.of_cycle {v : Nat} {x : β} (h : Result deps eval cut v x) (hcycle : OnCycle deps v) :
    x = cut := by
  cases h with
  | cyclic _ => rfl
  | evaluated hno _ => exact absurd hcycle hno

lemma OnCycle.dependency {v : Nat} (h : OnCycle deps v) :
    ∃ d ∈ deps v, Relation.ReflTransGen (Dep deps) d v ∧ OnCycle deps d := by
  obtain ⟨d, hd, hback⟩ := Relation.TransGen.head'_iff.mp h
  exact ⟨d, hd, hback, Relation.TransGen.tail' hback hd⟩

section

variable {Fixed : Nat → Prop}
variable (hstrict : ∀ {v d} {results : Nat → β}, ¬Fixed v → d ∈ deps v → results d = cut →
      eval results v = cut)
variable (hcycles : ∀ {v}, Fixed v → v ∈ deps v ∨ ¬OnCycle deps v)

include hstrict hcycles

-- A node on a cycle waits for a dependency that is unfinished, and is cut, or finished, and was
-- cut.
lemma results_next {f : Frame} {memo' : Memo β} {stack' : List Frame}
    (hnext : Next deps eval cut memo f stack memo' stack') (hsound : Sound deps memo (f :: stack))
    (h : ∀ v, memo.states v = .complete → Result deps eval cut v (memo.results v)) :
    ∀ v, memo'.states v = .complete → Result deps eval cut v (memo'.results v) := by
  intro v hv
  cases hnext with
  | @visit id d pending hasCycle _ hstate =>
    dsimp only at hv ⊢
    by_cases heq : v = d
    · rw [heq, update_self] at hv
      cases hv
    · rw [update_of_ne heq] at hv
      exact h v hv
  | back hstate => exact h v hv
  | known hstate => exact h v hv
  | @finish id hasCycle _ =>
    dsimp only at hv ⊢
    by_cases heq : v = id
    · rw [heq, update_self]
      have hf := hsound.framed.1
      cases hasCycle with
      | true => exact .cyclic (hf.cycle rfl)
      | false =>
        have hdone : ∀ d ∈ deps id, memo.states d = .complete := by
          intro d hd
          rcases hf.done rfl d hd with hpending | hdone | habove
          · cases hpending
          · exact hdone
          · cases habove
        by_cases hcycle : OnCycle deps id
        · obtain ⟨d, hd, -, hdcycle⟩ := hcycle.dependency
          have hself : id ∉ deps id := by
            intro hself
            have hactive := (hsound.active id).mpr mem_cons_self
            rw [hdone id hself] at hactive
            cases hactive
          have hfixed : ¬Fixed id := by
            intro hfixed
            exact (hcycles hfixed).elim hself (fun hno => hno hcycle)
          have hcut : eval memo.results id = cut :=
            hstrict hfixed hd ((h d (hdone d hd)).of_cycle hdcycle)
          show Result deps eval cut id (eval memo.results id)
          rw [hcut]
          exact .cyclic hcycle
        · exact .evaluated hcycle fun d hd => h d (hdone d hd)
    · rw [update_of_ne heq] at hv ⊢
      exact h v hv

end

variable (deps eval cut) in
/-- A walk that started with nothing finished. The node at the bottom of the stack is the root. -/
structure Rooted (root : Nat) (memo : Memo β) (stack : List Frame) : Prop where
  bottom : ∀ f, stack.getLast? = some f → f.id = root ∧ (f.hasCycle = true → root ∈ deps root)
  cutBack : ∀ v, v ≠ root → memo.states v = .complete → root ∈ deps v → memo.results v = cut
  final : stack = [] → memo.states root = .complete ∧
    (root ∉ deps root → ∃ results, memo.results root = eval results root)

theorem bottom_of_top {root : Nat} {f g : Frame} (h : ∀ e, (f :: stack).getLast? = some e →
      e.id = root ∧ (e.hasCycle = true → root ∈ deps root))
    (htop : stack = [] → g.id = f.id ∧ (g.hasCycle = true → f.hasCycle = true ∨ root ∈ deps root)) :
    ∀ e, (g :: stack).getLast? = some e → e.id = root ∧ (e.hasCycle = true → root ∈ deps root) := by
  intro e he
  cases stack with
  | nil =>
    obtain ⟨hid, hcycle⟩ := htop rfl
    obtain ⟨hroot, hself⟩ := h f rfl
    have he : g = e := Option.some.inj he
    rw [← he]
    exact ⟨by rw [hid, hroot], fun hg => (hcycle hg).elim hself fun hmem => hmem⟩
  | cons b rest =>
    rw [getLast?_cons_cons] at he
    exact h e (by rw [getLast?_cons_cons]; exact he)

lemma Rooted.next {root : Nat} {f : Frame} {memo' : Memo β} {stack' : List Frame}
    (hnext : Next deps eval cut memo f stack memo' stack') (hsound : Sound deps memo (f :: stack))
    (h : Rooted deps eval cut root memo (f :: stack)) : Rooted deps eval cut root memo' stack' := by
  obtain ⟨hbottom, hcut, -⟩ := h
  cases hnext with
  | @visit id d pending hasCycle _ hstate =>
    refine ⟨?_, ?_, fun hnil => by cases hnil⟩
    · intro e he
      rw [getLast?_cons_cons] at he
      exact bottom_of_top (g := ⟨id, pending, hasCycle⟩) hbottom (fun _ => ⟨rfl, .inl⟩) e he
    · intro v hv hcomplete hback
      dsimp only at hcomplete ⊢
      by_cases heq : v = d
      · rw [heq, update_self] at hcomplete
        cases hcomplete
      · rw [update_of_ne heq] at hcomplete
        exact hcut v hv hcomplete hback
  | @back id d pending hasCycle _ hstate =>
    refine ⟨bottom_of_top hbottom ?_, hcut, fun hnil => by cases hnil⟩
    intro hnil
    refine ⟨rfl, fun _ => .inr ?_⟩
    have hmem := (hsound.active d).mp hstate
    rw [hnil] at hmem hbottom
    have hd : d = id := mem_singleton.mp hmem
    have hroot : id = root := (hbottom _ rfl).1
    have hdep : d ∈ deps id := hsound.framed.1.pending d mem_cons_self
    rw [hd, hroot] at hdep
    exact hdep
  | @known id d pending hasCycle _ hstate =>
    exact ⟨bottom_of_top hbottom fun _ => ⟨rfl, .inl⟩, hcut, fun hnil => by cases hnil⟩
  | @finish id hasCycle _ =>
    refine ⟨?_, ?_, ?_⟩
    · intro e he
      cases stack with
      | nil => cases he
      | cons b rest => exact hbottom e (by rw [getLast?_cons_cons]; exact he)
    · intro v hv hcomplete hback
      dsimp only at hcomplete ⊢
      by_cases heq : v = id
      · rw [heq, update_self]
        rw [heq] at hv hback
        cases hasCycle with
        | true => rfl
        | false =>
          -- The root is below on the stack, so it is not finished.
          exfalso
          have hactive : memo.states root = .active := by
            apply (hsound.active root).mpr
            cases hlast : (⟨id, [], false⟩ :: stack : List Frame).getLast? with
            | none => simp at hlast
            | some e =>
              rw [← (hbottom e hlast).1]
              exact mem_map_of_mem (mem_of_getLast? hlast)
          rcases hsound.framed.1.done rfl root hback with hpending | hdone | habove
          · cases hpending
          · rw [hactive] at hdone
            cases hdone
          · cases habove
      · rw [update_of_ne heq] at hcomplete ⊢
        exact hcut v hv hcomplete hback
    · intro hnil
      rw [hnil] at hbottom
      obtain ⟨hroot, hself⟩ := hbottom _ rfl
      have hroot : id = root := hroot
      dsimp only
      rw [hroot, update_self, update_self]
      refine ⟨rfl, ?_⟩
      intro hno
      cases hasCycle with
      | true => exact absurd (hself rfl) hno
      | false => exact ⟨memo.results, by rw [← hroot]; rfl⟩

end NeverD.Lib.Walk
