import NeverD.Ir.AffineFrameDefine

namespace NeverD.Ir
open List Nat Option Bool

open NeverD.Lib

variable {x : Result} {xs : List Result} {is : List Frame.Input} {i : Frame.Input}

/-- Operands are positions among the results, and an answer to a query may be taken as a result. -/
inductive FrameOp
  | invalid
  | constant (offset : Int)
  | reference
  | define (target input : Nat)
  | merge (inputs : List Nat)
  | adjust (input : Nat) (delta : Int) (subtract : Bool)
  | align (input alignment : Nat)
  | value (input : Nat)
  | answer (query : Nat)
deriving DecidableEq

def FrameOp.isQuery : FrameOp → Bool
  | .value _ => true
  | _ => false

def pick {α : Type} (l : List α) : List Nat → Option (List α)
  | [] => some []
  | i :: is =>
    match l[i]?, pick l is with
    | some a, some as => some (a :: as)
    | _, _ => none

structure FrameRun where
  state : AffineFrameState := {}
  results : List AffineFrameState.Result := []
  answers : List AffineFrameState.Result := []

namespace FrameRun

def push (r : FrameRun) (q : AffineFrameState × AffineFrameState.Result) : FrameRun :=
  { r with state := q.1, results := r.results ++ [q.2] }

/-- Fails where an operand is not there, or an assertion of the solver fails. -/
def exec (r : FrameRun) : FrameOp → Option FrameRun
  | .invalid => some (r.push (r.state, .invalid))
  | .constant offset => some (r.push (r.state, .value (0, offset)))
  | .reference => some (r.push r.state.reference)
  | .define target input =>
    match r.results[target]?, r.results[input]? with
    | some target, some input => (r.state.define target input).map fun q => { r with state := q.1 }
    | _, _ => none
  | .merge inputs =>
    match pick r.results inputs with
    | some inputs => (r.state.merge inputs).map r.push
    | none => none
  | .adjust input delta subtract =>
    match r.results[input]? with
    | some input => (r.state.adjust input delta subtract).map r.push
    | none => none
  | .align input alignment =>
    match r.results[input]? with
    | some input => (r.state.align input alignment).map r.push
    | none => none
  | .value input =>
    match r.results[input]? with
    | some input =>
        some { r with
            state := (r.state.value input).1, answers := r.answers ++ [(r.state.value input).2] }
    | none => none
  | .answer query =>
    match r.answers[query]? with
    | some answer => some (r.push (r.state, answer))
    | none => none

def run : List FrameOp → FrameRun → Option FrameRun
  | [], r => some r
  | op :: ops, r =>
    match r.exec op with
    | some r => run ops r
    | none => none

end FrameRun

namespace Frame

structure Meaning where
  equations : List Equation := []
  size : Nat := 0
  results : List Input := []
  answers : List Input := []

open Classical in
/-- What a query should answer. -/
noncomputable def answer (equations : List Equation) : Input → Input
  | .reference n => if h : ∃ c, Determined equations n c then .value h.choose else .invalid
  | input => input

namespace Meaning

def push (m : Meaning) (input : Input) : Meaning := { m with results := m.results ++ [input] }

def node (m : Meaning) (inputs : List Input) (e : FrameStep) : Meaning :=
  { m with equations := m.equations ++ [⟨m.size, inputs, e⟩], size := m.size + 1,
           results := m.results ++ [.reference m.size] }

def apply (m : Meaning) (e : FrameStep) : Input → Meaning
  | .invalid => m.push .invalid
  | .value c =>
    match transfer e c with
    | some d => m.push (.value d)
    | none => m.push .invalid
  | .reference n => m.node [.reference n] e

def merge (m : Meaning) (inputs : List Input) : Meaning :=
  match inputs with
  | [] => m.push .invalid
  | first :: rest =>
    match mergeCommon inputs false none with
    | none => m.push .invalid
    | some (false, some common) => m.push (.value common)
    | some (false, none) => m.push .invalid
    | some (true, _) => if rest = [] then m.push first else m.node inputs {}

open Classical in
noncomputable def exec (m : Meaning) : FrameOp → Option Meaning
  | .invalid => some (m.push .invalid)
  | .constant offset => some (m.push (.value (.sp, offset)))
  | .reference => some { m with size := m.size + 1, results := m.results ++ [.reference m.size] }
  | .define target input =>
    match m.results[target]?, m.results[input]? with
    | some (.reference n), some input =>
      if ∀ eq ∈ m.equations, eq.target ≠ n then
        some { m with equations := m.equations ++ [⟨n, [input], {}⟩] } else none
    | some _, some _ => some m
    | _, _ => none
  | .merge inputs => (pick m.results inputs).map m.merge
  | .adjust input delta subtract =>
      (m.results[input]?).map (m.apply { delta := delta, subtract := subtract })
  | .align input alignment =>
    (m.results[input]?).map fun input =>
      if AffineFrameState.takesAlignment alignment = false then m.push .invalid
      else m.apply { alignment := alignment } input
  | .value input => (m.results[input]?).map fun input =>
      { m with answers := m.answers ++ [answer m.equations input] }
  | .answer query => (m.answers[query]?).map m.push

noncomputable def run : List FrameOp → Meaning → Option Meaning
  | [], m => some m
  | op :: ops, m =>
    match m.exec op with
    | some m => run ops m
    | none => none

end Meaning

end Frame

namespace FrameRun

open AffineFrameState

structure Shows (r : FrameRun) (m : Frame.Meaning) : Prop where
  holds : ∃ cur, Keeps r.state m.equations cur
  size : r.state.size = m.size
  results : List.Forall₂ (Stands r.state) r.results m.results
  answers : List.Forall₂ (Stands r.state) r.answers m.answers

lemma keeps_empty : Keeps {} [] fun _ => .unknown := by
  refine ⟨⟨interned_nil, ?_, fun _ => .unknown, fun eq heq => (by cases heq),
    fun eq heq => (by cases heq), ?_⟩,
    fun _ => .unknown, fun _ _ => rfl, le_rfl, solution_zero _, ?_⟩
  · intro m u
    exact ⟨fun hu => (by cases hu), fun hu => by obtain ⟨eq, heq, -⟩ := hu; cases heq⟩
  · intro n
    exact ⟨fun hn => (by cases hn), fun hn => by obtain ⟨eq, heq, -⟩ := hn; cases heq⟩
  · intro m u
    exact ⟨fun hu => (by cases hu), fun hu => absurd hu.2.1 (Nat.not_lt_zero _)⟩

lemma shows_empty : Shows {} {} := ⟨⟨_, keeps_empty⟩, rfl, .nil, .nil⟩

section

variable {α β : Type} {R : α → β → Prop}

lemma rel_getElem {as : List α} {bs : List β} (h : List.Forall₂ R as bs) (i : Nat) :
    Option.Rel R as[i]? bs[i]? := by
  induction h generalizing i with
  | nil => exact .none
  | cons hab _ ih =>
    cases i with
    | zero => exact .some hab
    | succ i => exact ih i

lemma rel_pick {as : List α} {bs : List β} (h : List.Forall₂ R as bs) (is : List Nat) :
    Option.Rel (List.Forall₂ R) (pick as is) (pick bs is) := by
  induction is with
  | nil => exact .some .nil
  | cons i is ih =>
    have hi := rel_getElem h i
    unfold pick
    generalize as[i]? = a at hi
    generalize bs[i]? = b at hi
    generalize pick as is = xs at ih
    generalize pick bs is = ys at ih
    cases hi with
    | none => exact .none
    | some hab =>
      cases ih with
      | none => exact .none
      | some hl => exact .some (.cons hab hl)

end

variable {r : FrameRun} {m : Frame.Meaning}

lemma Shows.push (h : Shows r m) {s : AffineFrameState} {equations : List Frame.Equation}
    {size : Nat} {x : Result}
    {i : Frame.Input} (hholds : ∃ cur, Keeps s equations cur) (hlater : Later r.state s)
    (hsize : s.size = size) (hx : Stands s x i) :
    Shows (r.push (s, x))
      { m with equations := equations, size := size, results := m.results ++ [i] } := by
  refine ⟨hholds, hsize, ?_, h.answers.imp fun _ _ hst => hst.mono hlater⟩
  exact rel_append (h.results.imp fun _ _ hst => hst.mono hlater) (.cons hx .nil)

lemma Shows.node (h : Shows r m) {e : FrameStep} (he : e.Legal)
    (hxs : List.Forall₂ (Stands r.state) xs is) :
    ∃ r', ((r.state.reference.1.defineInputs r.state.reference.2 xs e).map fun d =>
        (d.1, if d.2 then r.state.reference.2 else .invalid)).map r.push = some r' ∧
          Shows r' (m.node is e) := by
  obtain ⟨cur, hholds⟩ := h.holds
  obtain ⟨href, hlater⟩ := hholds.reference
  have hdefined : (r.state.reference.1.nodes r.state.size).defined = false := by
    show (Function.update r.state.nodes r.state.size {} r.state.size).defined = false
    rw [Function.update_self]
  obtain ⟨s', hdef, hholds', hlater', hsize'⟩ := href.defineInputs (lt_succ_self _) hdefined he
    (hxs.imp fun _ _ hst => hst.mono hlater)
  refine ⟨r.push (s', .reference r.state.size), ?_, ?_⟩
  · rw [show r.state.reference.2 = .reference r.state.size from rfl, hdef]
    rfl
  · unfold Frame.Meaning.node
    rw [← h.size]
    apply h.push ⟨cur, hholds'⟩ (hlater.trans hlater') hsize'
    exact .reference (by rw [hsize']; exact lt_succ_self _)

/-- What the scan of a merge finds does not depend on how anchors are numbered. -/
theorem rel_mergeCommon {s : AffineFrameState} (hint : Interned s.anchors)
    (hxs : List.Forall₂ (Stands s) xs is) :
    ∀ (hasReference : Bool) {c : Option (Nat × Int)} {d : Option Frame.Coordinate},
      Option.Rel (AffineFrameState.Shows s.anchors) c d →
      Option.Rel (fun p q => p.1 = q.1 ∧ Option.Rel (AffineFrameState.Shows s.anchors) p.2 q.2)
        (mergeCommon xs hasReference c) (mergeCommon is hasReference d) := by
  induction hxs with
  | nil =>
    intro hasReference c d hcd
    exact .some ⟨rfl, hcd⟩
  | cons hx _ ih =>
    intro hasReference c d hcd
    cases hx with
    | invalid => exact .none
    | reference hn => exact ih true hcd
    | @value c' d' hc =>
      cases hcd with
      | none => exact ih hasReference (.some hc)
      | @some c d hcd =>
        unfold mergeCommon
        have hiff := hint.shows_iff c d c' d' hcd hc
        by_cases heq : c = c'
        · rw [if_neg fun hne => hne heq, if_neg fun hne => hne (hiff.mp heq)]
          exact ih hasReference (.some hc)
        · rw [if_pos heq, if_pos fun hd => heq (hiff.mpr hd)]
          exact .none

lemma legal_default : ({} : FrameStep).Legal := .inl rfl

lemma Shows.merge (h : Shows r m) (hxs : List.Forall₂ (Stands r.state) xs is) :
    ∃ r', (r.state.merge xs).map r.push = some r' ∧ Shows r' (m.merge is) := by
  have hkeep := fun {x i} hx => h.push (x := x) (i := i) h.holds (.refl _) h.size hx
  obtain ⟨cur, hholds⟩ := h.holds
  have hcommon := rel_mergeCommon hholds.stores.interned hxs false .none
  cases hxs with
  | nil => exact ⟨_, rfl, hkeep .invalid⟩
  | @cons x i xs is hx hxs =>
    unfold AffineFrameState.merge Frame.Meaning.merge
    dsimp only
    generalize hc : mergeCommon (x :: xs) false none = c at hcommon
    generalize hd : mergeCommon (i :: is) false none = d at hcommon
    cases hcommon with
    | none => exact ⟨_, rfl, hkeep .invalid⟩
    | @some p q hpq =>
      obtain ⟨hasReference, common⟩ := p
      obtain ⟨hasReference', common'⟩ := q
      obtain ⟨hsame, hrel⟩ := hpq
      dsimp only at hsame hrel
      subst hsame
      cases hasReference with
      | false =>
        cases hrel with
        | none => exact ⟨_, rfl, hkeep .invalid⟩
        | some hshow => exact ⟨_, rfl, hkeep (.value hshow)⟩
      | true =>
        by_cases hrest : xs = []
        · have hrest' : is = [] := by
            subst hrest
            cases hxs
            rfl
          rw [if_pos hrest, if_pos hrest']
          exact ⟨_, rfl, hkeep hx⟩
        · have hrest' : is ≠ [] := by
            intro hnil
            subst hnil
            cases hxs
            exact hrest rfl
          rw [if_neg hrest, if_neg hrest']
          exact h.node legal_default (.cons hx hxs)

lemma Shows.adjust (h : Shows r m) (hx : Stands r.state x i) (delta : Int)
    (subtract : Bool) : ∃ r', (r.state.adjust x delta subtract).map r.push = some r' ∧
      Shows r' (m.apply { delta := delta, subtract := subtract } i) := by
  have hkeep := fun {x i} hx => h.push (x := x) (i := i) h.holds (.refl _) h.size hx
  cases hx with
  | invalid => exact ⟨_, rfl, hkeep .invalid⟩
  | reference hn => exact h.node (.inl rfl) (.cons (.reference hn) .nil)
  | @value c d hc =>
    obtain ⟨anchor, offset⟩ := c
    obtain ⟨hle, rfl⟩ := hc
    unfold AffineFrameState.adjust Frame.Meaning.apply Frame.transfer
    dsimp only at hle ⊢
    rw [if_pos rfl]
    cases checkedAffineOffset offset delta subtract with
    | none => exact ⟨_, rfl, hkeep .invalid⟩
    | some o => exact ⟨_, rfl, hkeep (.value ⟨hle, rfl⟩)⟩

theorem isAlignment_of_takes {a : Nat} (h : takesAlignment a = true) : IsAlignment a := by
  unfold takesAlignment at h
  rw [and_eq_true, and_eq_true] at h
  have htwo : 2 ≤ a := of_decide_eq_true h.1.1
  have hmax : a ≤ 2 ^ 16 := of_decide_eq_true h.1.2
  have hzero : a &&& (a - 1) = 0 := of_decide_eq_true h.2
  have hpos : a ≠ 0 := by omega
  obtain ⟨k, hk⟩ := (and_sub_one_eq_zero_iff_isPowerOfTwo hpos).mp hzero
  refine ⟨k, ?_, ?_, hk⟩
  · rcases Nat.eq_zero_or_pos k with hzero | hpos
    · rw [hzero] at hk
      omega
    · exact hpos
  · rw [hk] at hmax
    exact (Nat.pow_le_pow_iff_right one_lt_two).mp hmax

lemma Shows.align (h : Shows r m) (hx : Stands r.state x i) (alignment : Nat) :
    ∃ r', (r.state.align x alignment).map r.push = some r' ∧
      Shows r' (if takesAlignment alignment = false then m.push .invalid
        else m.apply { alignment := alignment } i) := by
  have hkeep := fun {x i} hx => h.push (x := x) (i := i) h.holds (.refl _) h.size hx
  unfold AffineFrameState.align
  by_cases htakes : takesAlignment alignment = false
  · rw [if_pos htakes, if_pos htakes]
    exact ⟨_, rfl, hkeep .invalid⟩
  · have hal := isAlignment_of_takes (eq_true_of_not_eq_false htakes)
    have hlegal : FrameStep.Legal { alignment := alignment } := .inr hal
    rw [if_neg htakes, if_neg htakes]
    cases hx with
    | invalid => exact ⟨_, rfl, hkeep .invalid⟩
    | reference hn => exact h.node hlegal (.cons (.reference hn) .nil)
    | @value c d hc =>
      obtain ⟨cur, hholds⟩ := h.holds
      obtain ⟨hpre, hint, hstep⟩ :=
        step_spec hholds.stores.interned (.value hc) (fun hcon => by cases hcon) hlegal
      have hgrows : Grows r.state { r.state with
          anchors := (step r.state.anchors (.value c) { alignment := alignment }).1 } :=
        ⟨hpre, hint, rfl, fun _ => ⟨rfl, rfl, rfl⟩⟩
      have hholds' : Keeps { r.state with
          anchors := (step r.state.anchors (.value c) { alignment := alignment }).1 }
          m.equations cur :=
        ⟨hholds.stores.grows hgrows, fun n => (hholds.current n).mono (.mono hpre), hholds.outside,
          hholds.solved, hholds.solution, hholds.pending⟩
      have hlast := fun {x i} hx => h.push (x := x) (i := i) ⟨cur, hholds'⟩ hgrows.later h.size hx
      unfold Frame.Meaning.apply
      unfold Flat.pass at hstep
      dsimp only at hstep ⊢
      generalize (step r.state.anchors (.value c) { alignment := alignment }).2 = out at hstep ⊢
      cases ht : Frame.transfer { alignment := alignment } d with
      | none =>
        rw [ht] at hstep
        cases hstep
        exact ⟨_, rfl, hlast .invalid⟩
      | some d' =>
        rw [ht] at hstep
        cases hstep with
        | value hshow => exact ⟨_, rfl, hlast (.value hshow)⟩

lemma Shows.value (h : Shows r m) {x : Result} {i : Frame.Input} (hx : Stands r.state x i) :
    (∃ cur, Keeps (r.state.value x).1 m.equations cur) ∧ Grows r.state (r.state.value x).1 ∧
      Stands (r.state.value x).1 (r.state.value x).2 (Frame.answer m.equations i) := by
  obtain ⟨cur, hholds⟩ := h.holds
  cases hx with
  | invalid => exact ⟨⟨cur, hholds⟩, .refl hholds.stores.interned, .invalid⟩
  | value hc => exact ⟨⟨cur, hholds⟩, .refl hholds.stores.interned, .value hc⟩
  | @reference n hn =>
    obtain ⟨hholds', hgrows, hanswer⟩ := hholds.value hn
    refine ⟨hholds', hgrows, ?_⟩
    unfold Frame.answer
    dsimp only
    rcases hanswer with ⟨c, d, hres, hshow, hdet⟩ | ⟨hres, hnone⟩
    · have hex : ∃ d, Frame.Determined m.equations n d := ⟨d, hdet⟩
      rw [dif_pos hex, hres, Flat.System.val_unique hdet.2 hex.choose_spec.1 hdet.1]
      exact .value hshow
    · rw [dif_neg fun hex => hnone hex.choose hex.choose_spec, hres]
      exact .invalid

/-- Each operation does what it means, or fails where it has no meaning. -/
theorem Shows.exec (h : Shows r m) (op : FrameOp) : Option.Rel Shows (r.exec op) (m.exec op) := by
  have hkeep := fun {x i} hx => h.push (x := x) (i := i) h.holds (.refl _) h.size hx
  cases op with
  | invalid => exact .some (hkeep .invalid)
  | constant offset =>
    refine .some (hkeep (.value ⟨Nat.zero_le _, ?_⟩))
    rw [term_zero]
  | reference =>
    obtain ⟨cur, hholds⟩ := h.holds
    obtain ⟨href, hlater⟩ := hholds.reference
    have hnext : Shows (r.push r.state.reference)
        { m with size := r.state.size + 1, results := m.results ++ [.reference r.state.size] } :=
      h.push ⟨cur, href⟩ hlater rfl (.reference (lt_succ_self _))
    rw [h.size] at hnext
    exact .some hnext
  | define target input =>
    have htarget := rel_getElem h.results target
    have hinput := rel_getElem h.results input
    unfold FrameRun.exec Frame.Meaning.exec
    dsimp only
    generalize r.results[target]? = a at htarget ⊢
    generalize m.results[target]? = b at htarget ⊢
    generalize r.results[input]? = c at hinput ⊢
    generalize m.results[input]? = d at hinput ⊢
    cases htarget with
    | none => exact .none
    | @some x i hx =>
      cases hinput with
      | none =>
        cases i <;> exact .none
      | @some y j hy =>
        cases hx with
        | invalid => exact .some h
        | value hc => exact .some h
        | @reference n hn =>
          obtain ⟨cur, hholds⟩ := h.holds
          have hdefined := hholds.stores.defined n
          dsimp only
          by_cases hfree : ∀ eq ∈ m.equations, eq.target ≠ n
          · have hfalse : (r.state.nodes n).defined = false := by
              apply eq_false_of_not_eq_true
              intro hcon
              obtain ⟨eq, heq, htarget⟩ := hdefined.mp hcon
              exact hfree eq heq htarget
            obtain ⟨s', hdef, hholds', hlater, hsize⟩ :=
              hholds.defineInputs hn hfalse legal_default (.cons hy .nil)
            unfold AffineFrameState.define
            rw [if_pos hfree, hdef]
            exact .some ⟨⟨cur, hholds'⟩, hsize.trans h.size,
              h.results.imp fun _ _ hst => hst.mono hlater,
              h.answers.imp fun _ _ hst => hst.mono hlater⟩
          · have htrue : ¬(n < r.state.size ∧ (r.state.nodes n).defined = false) := by
              intro hcon
              apply hfree
              intro eq heq htarget
              rw [hdefined.mpr ⟨eq, heq, htarget⟩] at hcon
              cases hcon.2
            unfold AffineFrameState.define AffineFrameState.defineInputs
            dsimp only
            rw [if_neg hfree, if_neg htrue]
            exact .none
  | merge inputs =>
    have hpick := rel_pick h.results inputs
    unfold FrameRun.exec Frame.Meaning.exec
    dsimp only
    generalize pick r.results inputs = a at hpick ⊢
    generalize pick m.results inputs = b at hpick ⊢
    cases hpick with
    | none => exact .none
    | some hxs =>
      obtain ⟨r', heq, hshow⟩ := h.merge hxs
      dsimp only [map_some]
      rw [heq]
      exact .some hshow
  | adjust input delta subtract =>
    have hinput := rel_getElem h.results input
    unfold FrameRun.exec Frame.Meaning.exec
    dsimp only
    generalize r.results[input]? = a at hinput ⊢
    generalize m.results[input]? = b at hinput ⊢
    cases hinput with
    | none => exact .none
    | some hx =>
      obtain ⟨r', heq, hshow⟩ := h.adjust hx delta subtract
      dsimp only [map_some]
      rw [heq]
      exact .some hshow
  | align input alignment =>
    have hinput := rel_getElem h.results input
    unfold FrameRun.exec Frame.Meaning.exec
    dsimp only
    generalize r.results[input]? = a at hinput ⊢
    generalize m.results[input]? = b at hinput ⊢
    cases hinput with
    | none => exact .none
    | some hx =>
      obtain ⟨r', heq, hshow⟩ := h.align hx alignment
      dsimp only [map_some]
      rw [heq]
      exact .some hshow
  | value input =>
    have hinput := rel_getElem h.results input
    unfold FrameRun.exec Frame.Meaning.exec
    dsimp only
    generalize r.results[input]? = a at hinput ⊢
    generalize m.results[input]? = b at hinput ⊢
    cases hinput with
    | none => exact .none
    | some hx =>
      obtain ⟨hholds, hgrows, hanswer⟩ := h.value hx
      refine .some ⟨hholds, hgrows.size.trans h.size,
        h.results.imp fun _ _ hst => hst.mono hgrows.later, ?_⟩
      exact rel_append (h.answers.imp fun _ _ hst => hst.mono hgrows.later) (.cons hanswer .nil)
  | answer query =>
    have hquery := rel_getElem h.answers query
    unfold FrameRun.exec Frame.Meaning.exec
    dsimp only
    generalize r.answers[query]? = a at hquery ⊢
    generalize m.answers[query]? = b at hquery ⊢
    cases hquery with
    | none => exact .none
    | some hx => exact .some (hkeep hx)

lemma Shows.run (ops : List FrameOp) : ∀ {r : FrameRun} {m : Frame.Meaning}, Shows r m →
    Option.Rel Shows (FrameRun.run ops r) (Frame.Meaning.run ops m) := by
  induction ops with
  | nil => exact fun h => .some h
  | cons op ops ih =>
    intro r m h
    have hop := h.exec op
    unfold FrameRun.run Frame.Meaning.run
    generalize r.exec op = a at hop ⊢
    generalize m.exec op = b at hop ⊢
    cases hop with
    | none => exact .none
    | some hnext => exact ih hnext

end FrameRun

namespace Frame.Meaning

structure Extends (m m' : Meaning) : Prop where
  equations : ∀ eq ∈ m.equations, eq ∈ m'.equations
  added : ∀ eq ∈ m'.equations, eq ∈ m.equations ∨ ∀ eq' ∈ m.equations, eq'.target ≠ eq.target
  results : m.results <+: m'.results
  answers : m.answers <+: m'.answers

lemma Extends.refl (m : Meaning) : Extends m m :=
  ⟨fun _ h => h, fun _ h => .inl h, prefix_rfl, prefix_rfl⟩

lemma Extends.trans {m m' m'' : Meaning} (h : Extends m m') (h' : Extends m' m'') :
    Extends m m'' := by
  refine ⟨fun eq heq => h'.equations eq (h.equations eq heq), ?_, h.results.trans h'.results,
    h.answers.trans h'.answers⟩
  intro eq heq
  rcases h'.added eq heq with hold | hfree
  · exact h.added eq hold
  · exact .inr fun eq' heq' => hfree eq' (h.equations eq' heq')

section

variable {m : Meaning}

lemma extends_push (m : Meaning) (i : Input) : Extends m (m.push i) :=
  ⟨fun _ h => h, fun _ h => .inl h, prefix_append _ _, prefix_rfl⟩

variable (hin : ∀ eq ∈ m.equations, eq.target < m.size)
include hin

lemma extends_node (is : List Input) (e : FrameStep) : Extends m (m.node is e) := by
  refine ⟨fun eq heq => mem_append_left _ heq, ?_, prefix_append _ _, prefix_rfl⟩
  intro eq heq
  rcases mem_append.mp heq with heq | heq
  · exact .inl heq
  · rw [mem_singleton.mp heq]
    exact .inr fun eq' heq' => Nat.ne_of_lt (hin eq' heq')

lemma extends_apply (e : FrameStep) (i : Input) : Extends m (m.apply e i) := by
  unfold apply
  cases i with
  | invalid => exact extends_push m _
  | reference n => exact extends_node hin _ _
  | value c =>
    dsimp only
    split <;> exact extends_push m _

lemma extends_merge (is : List Input) : Extends m (m.merge is) := by
  unfold merge
  split
  · exact extends_push m _
  · split
    · exact extends_push m _
    · exact extends_push m _
    · exact extends_push m _
    · split
      · exact extends_push m _
      · exact extends_node hin _ _

lemma extends_exec {op : FrameOp} {m' : Meaning} (h : m.exec op = some m') : Extends m m' := by
  unfold exec at h
  cases op with
  | invalid =>
    injection h with h
    rw [← h]
    exact extends_push m _
  | constant offset =>
    injection h with h
    rw [← h]
    exact extends_push m _
  | reference =>
    injection h with h
    rw [← h]
    exact ⟨fun _ h => h, fun _ h => .inl h, prefix_append _ _, prefix_rfl⟩
  | define target input =>
    dsimp only at h
    split at h
    · split at h
      next hfree =>
        injection h with h
        rw [← h]
        refine ⟨fun eq heq => mem_append_left _ heq, ?_, prefix_rfl, prefix_rfl⟩
        intro eq heq
        rcases mem_append.mp heq with heq | heq
        · exact .inl heq
        · rw [mem_singleton.mp heq]
          exact .inr hfree
      · cases h
    · injection h with h
      rw [← h]
      exact .refl m
    · cases h
  | merge inputs =>
    obtain ⟨is, -, hm'⟩ := map_eq_some_iff.mp h
    rw [← hm']
    exact extends_merge hin is
  | adjust input delta subtract =>
    obtain ⟨i, -, hm'⟩ := map_eq_some_iff.mp h
    rw [← hm']
    exact extends_apply hin _ i
  | align input alignment =>
    obtain ⟨i, -, hm'⟩ := map_eq_some_iff.mp h
    rw [← hm']
    split
    · exact extends_push m _
    · exact extends_apply hin _ i
  | value input =>
    obtain ⟨i, -, hm'⟩ := map_eq_some_iff.mp h
    rw [← hm']
    exact ⟨fun _ h => h, fun _ h => .inl h, prefix_rfl, prefix_append _ _⟩
  | answer query =>
    obtain ⟨i, -, hm'⟩ := map_eq_some_iff.mp h
    rw [← hm']
    exact extends_push m i

end

structure Same (m m' : Meaning) : Prop where
  equations : m.equations = m'.equations
  size : m.size = m'.size
  results : m.results = m'.results

lemma Same.push {m m' : Meaning} (h : Same m m') (i : Input) : Same (m.push i) (m'.push i) :=
  ⟨h.equations, h.size, congrArg (· ++ [i]) h.results⟩

variable {m' m : Meaning}

variable (h : Same m m')
include h

lemma Same.node (is : List Input) (e : FrameStep) : Same (m.node is e) (m'.node is e) := by
  unfold Meaning.node
  rw [h.size, h.equations, h.results]
  exact ⟨rfl, rfl, rfl⟩

lemma Same.apply (e : FrameStep) (i : Input) : Same (m.apply e i) (m'.apply e i) := by
  unfold Meaning.apply
  cases i with
  | invalid => exact h.push _
  | reference n => exact h.node _ _
  | value c =>
    dsimp only
    split
    · exact h.push _
    · exact h.push _

lemma Same.merge (is : List Input) : Same (m.merge is) (m'.merge is) := by
  unfold Meaning.merge
  split
  · exact h.push _
  · split
    · exact h.push _
    · exact h.push _
    · exact h.push _
    · split
      · exact h.push _
      · exact h.node _ _

lemma Same.exec {op : FrameOp} (hquery : op.isQuery = false)
    (hanswer : ∀ k, op ≠ .answer k) : Option.Rel Same (m.exec op) (m'.exec op) := by
  unfold Meaning.exec
  rw [← h.results, ← h.equations, ← h.size]
  cases op with
  | invalid => exact .some (h.push _)
  | constant offset => exact .some (h.push _)
  | reference => exact .some ⟨rfl, rfl, rfl⟩
  | define target input =>
    dsimp only
    split
    · split
      · exact .some ⟨rfl, rfl, rfl⟩
      · exact .none
    · exact .some h
    · exact .none
  | merge inputs =>
    dsimp only
    cases pick m.results inputs with
    | none => exact .none
    | some is => exact .some (h.merge is)
  | adjust input delta subtract =>
    dsimp only
    cases m.results[input]? with
    | none => exact .none
    | some i => exact .some (h.apply _ i)
  | align input alignment =>
    dsimp only
    cases m.results[input]? with
    | none => exact .none
    | some i =>
      refine .some ?_
      split
      · exact h.push _
      · exact h.apply _ i
  | value input => cases hquery
  | answer query => exact absurd rfl (hanswer query)

omit h

lemma exec_value_same {i : Nat} (h : m.exec (.value i) = some m') : Same m' m := by
  obtain ⟨i, -, hm'⟩ := map_eq_some_iff.mp h
  rw [← hm']
  exact ⟨rfl, rfl, rfl⟩

theorem run_filter (ops : List FrameOp) (hops : ∀ k, .answer k ∉ ops) :
    ∀ {m₁ m₂ m : Meaning}, Same m₁ m₂ → run ops m₁ = some m →
      ∃ m', run (ops.filter fun op => !op.isQuery) m₂ = some m' ∧ Same m m' := by
  induction ops with
  | nil =>
    intro m₁ m₂ m hsame hrun
    injection hrun with hrun
    exact ⟨m₂, rfl, hrun ▸ hsame⟩
  | cons op ops ih =>
    intro m₁ m₂ m hsame hrun
    have hrest : ∀ k, .answer k ∉ ops := fun k hk => hops k (mem_cons_of_mem _ hk)
    unfold run at hrun
    split at hrun
    next m₃ hexec =>
      cases hq : op.isQuery with
      | true =>
        have hsame' : Same m₃ m₂ := by
          cases op with
          | value i =>
            have hback := exec_value_same hexec
            exact ⟨hback.equations.trans hsame.equations, hback.size.trans hsame.size,
              hback.results.trans hsame.results⟩
          | _ => cases hq
        rw [filter_cons_of_neg (by rw [hq]; decide)]
        exact ih hrest hsame' hrun
      | false =>
        have hrel := hsame.exec hq fun k hk => hops k (hk ▸ mem_cons_self ..)
        rw [hexec] at hrel
        rw [filter_cons_of_pos (by rw [hq]; decide)]
        unfold run
        generalize m₂.exec op = b at hrel ⊢
        cases hrel with
        | some hnext => exact ih hrest hnext hrun
    · cases hrun

end Frame.Meaning

namespace FrameRun

open AffineFrameState

def coordinate (anchors : List Origin) : Result → Frame.Input
  | .invalid => .invalid
  | .value (anchor, offset) => .value (term anchors anchor, offset)
  | .reference node => .reference node

def finalAnswer (r : FrameRun) (x : Result) : Frame.Input :=
  coordinate (r.state.value x).1.anchors (r.state.value x).2

lemma Stands.coordinate {s : AffineFrameState} (h : Stands s x i) :
    FrameRun.coordinate s.anchors x = i := by
  cases h with
  | invalid => rfl
  | reference _ => rfl
  | value hc => rw [hc.2]; rfl

variable {m : Frame.Meaning}

lemma Shows.finalAnswer {r : FrameRun} (h : Shows r m) (i : Nat) :
    (r.results[i]?).map r.finalAnswer = (m.results[i]?).map (Frame.answer m.equations) := by
  have hi := rel_getElem h.results i
  generalize r.results[i]? = a at hi ⊢
  generalize m.results[i]? = b at hi ⊢
  cases hi with
  | none => rfl
  | some hx => exact congrArg some (Stands.coordinate (h.value hx).2.2)

lemma Shows.inside {r : FrameRun} (h : Shows r m) : ∀ eq ∈ m.equations, eq.target < m.size := by
  obtain ⟨cur, hholds⟩ := h.holds
  intro eq heq
  rw [← h.size]
  exact (hholds.stores.inside eq heq).1

lemma Shows.run_some (ops : List FrameOp) : ∀ {r₀ r : FrameRun} {m₀ : Frame.Meaning}, Shows r₀ m₀ →
    FrameRun.run ops r₀ = some r →
    ∃ m, Frame.Meaning.run ops m₀ = some m ∧ Shows r m ∧ Frame.Meaning.Extends m₀ m := by
  induction ops with
  | nil =>
    intro r₀ r m₀ h hrun
    injection hrun with hrun
    exact ⟨m₀, rfl, hrun ▸ h, .refl m₀⟩
  | cons op ops ih =>
    intro r₀ r m₀ h hrun
    have hop := h.exec op
    unfold FrameRun.run at hrun
    unfold Frame.Meaning.run
    cases hm : m₀.exec op with
    | none =>
      rw [hm] at hop
      generalize r₀.exec op = a at hop hrun
      cases hop
      cases hrun
    | some m₁ =>
      rw [hm] at hop
      generalize r₀.exec op = a at hop hrun
      cases hop with
      | some hnext =>
        obtain ⟨m, hrest, hshow, hext⟩ := ih hnext hrun
        exact ⟨m, hrest, hshow, (Frame.Meaning.extends_exec h.inside hm).trans hext⟩

lemma meaning_run_append (before after : List FrameOp) {m₀ m₁ : Frame.Meaning}
    (h : Frame.Meaning.run before m₀ = some m₁) (h' : Frame.Meaning.run after m₁ = some m) :
    Frame.Meaning.run (before ++ after) m₀ = some m := by
  induction before generalizing m₀ with
  | nil =>
    injection h with h
    rw [h]
    exact h'
  | cons op ops ih =>
    unfold Frame.Meaning.run at h
    rw [cons_append]
    unfold Frame.Meaning.run
    split at h
    · exact ih h
    · cases h

/-- What a query answers holds in the executions of all equations, also of those that come after
it. -/
theorem Shows.answer_sound {r₀ : FrameRun} {m₀ : Frame.Meaning} (h : Shows r₀ m₀)
    (hext : Frame.Meaning.Extends m₀ m)
    {input : Frame.Input} (hx : Stands r₀.state x input) {a : Nat} {o : Int}
    (hvalue : (r₀.state.value x).2 = .value (a, o)) {sp y : Address}
    (hy : Frame.InputTakes m.equations sp input y) :
    y = Frame.address sp (term (r₀.state.value x).1.anchors a, o) := by
  obtain ⟨cur, hholds⟩ := h.holds
  have hstand := (h.value hx).2.2
  rw [hvalue] at hstand
  cases hx with
  | invalid => cases hvalue
  | value hc =>
    injection hvalue with hvalue
    rw [hc.2] at hy
    rw [hvalue] at hy
    exact hy
  | @reference n hn =>
    have hanswer : Frame.answer m₀.equations (.reference n) =
        .value (term (r₀.state.value (.reference n)).1.anchors a, o) := by
      generalize hans : Frame.answer m₀.equations (.reference n) = ans at hstand
      cases hstand with
      | value hshow => rw [hshow.2]
    unfold Frame.answer at hanswer
    dsimp only at hanswer
    split at hanswer
    next hex =>
      have hdet := hex.choose_spec
      injection hanswer with hanswer
      rw [hanswer] at hdet
      exact Frame.eq_of_takes hholds.stores.legal (hy.restrict hext.equations hext.added) hdet
    · cases hanswer

end FrameRun

end NeverD.Ir
