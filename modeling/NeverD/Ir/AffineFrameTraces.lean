import NeverD.Ir.AffineFrameRuns

namespace NeverD.Ir
open List Option

open NeverD.Lib

def FrameOp.hasResult : FrameOp → Bool
  | .define _ _ | .value _ => false
  | _ => true

namespace Frame

variable {ops : List FrameOp} {op : FrameOp} {m m' : Meaning} {sp x : Address} {input j : Input}
    {e : FrameStep}

namespace Meaning

def OperandTakes (m : Meaning) (sp : Address) (i : Nat) (x : Address) : Prop :=
  ∃ input, m.results[i]? = some input ∧ InputTakes m.equations sp input x

/-- What an operation makes of the addresses of its operands. -/
def OpTakes (m : Meaning) (ops : List FrameOp) (sp : Address) : FrameOp → Address → Prop
  | .invalid, _ => True
  | .constant offset, x => x = sp + BitVec.ofInt 64 offset
  | .merge inputs, x => ∃ i ∈ inputs, m.OperandTakes sp i x
  | .adjust i delta subtract, x => ∃ y, m.OperandTakes sp i y ∧
      x = if subtract then y - BitVec.ofInt 64 delta else y + BitVec.ofInt 64 delta
  | .align i alignment, x => ∃ y, m.OperandTakes sp i y ∧ x = alignDown alignment y
  | .answer q, x => ∃ i, (ops.filter (·.isQuery))[q]? = some (.value i) ∧ m.OperandTakes sp i x
  | _, _ => False

/-- Results take all that their operations make, and a node takes all that its definition does. -/
structure Closed (m : Meaning) (ops : List FrameOp) (sp : Address) : Prop where
  results : ∀ (k : Nat) op x, (ops.filter (·.hasResult))[k]? = some op → m.OpTakes ops sp op x →
    m.OperandTakes sp k x
  defines : ∀ (t i n : Nat) x, .define t i ∈ ops → m.results[t]? = some (.reference n) →
    m.OperandTakes sp i x → m.OperandTakes sp t x

/-- What a step leaves of an input: nothing, the coordinate after it, or a node with that
equation. -/
def Applies (m : Meaning) (e : FrameStep) (input j : Input) : Prop :=
  j = .invalid ∨ (∃ c d, input = .value c ∧ j = .value d ∧ transfer e c = some d) ∨
    ∃ n, j = .reference n ∧ ⟨n, [input], e⟩ ∈ m.equations

def Gives (m : Meaning) : FrameOp → Input → Prop
  | .invalid, j => j = .invalid
  | .constant offset, j => j = .value (.sp, offset)
  | .merge inputs, j => ∃ is, pick m.results inputs = some is ∧
      (j = .invalid ∨ (∀ i ∈ is, i = j) ∨ ∃ n, j = .reference n ∧ ⟨n, is, {}⟩ ∈ m.equations)
  | .adjust i delta subtract, j => ∃ input, m.results[i]? = some input ∧
      m.Applies { delta := delta, subtract := subtract } input j
  | .align i alignment, j => j = .invalid ∨ IsAlignment alignment ∧
      ∃ input, m.results[i]? = some input ∧ m.Applies { alignment := alignment } input j
  | .answer q, j => m.answers[q]? = some j
  | _, _ => True

def Asked (m : Meaning) : FrameOp → Input → Prop
  | .value i, a => ∃ input m₀, m.results[i]? = some input ∧ a = answer m₀.equations input ∧
    Extends m₀ m
  | _, _ => True

structure Traced (ops : List FrameOp) (m : Meaning) : Prop where
  results : List.Forall₂ m.Gives (ops.filter (·.hasResult)) m.results
  answers : List.Forall₂ m.Asked (ops.filter (·.isQuery)) m.answers
  defines : ∀ t i, .define t i ∈ ops → ∃ a b, m.results[t]? = some a ∧ m.results[i]? = some b ∧
    ∀ n, a = .reference n → ⟨n, [b], {}⟩ ∈ m.equations

lemma getElem?_extended {α : Type} {l l' : List α} {i : Nat} {a : α} (hl : l <+: l')
    (h : l[i]? = some a) : l'[i]? = some a := by
  obtain ⟨more, rfl⟩ := hl
  rw [getElem?_append_left (List.getElem?_eq_some_iff.mp h).1]
  exact h

lemma pick_of_prefix {α : Type} {l l' : List α} (hl : l <+: l') {is : List Nat} {as : List α}
    (h : pick l is = some as) : pick l' is = some as := by
  induction is generalizing as with
  | nil => exact h
  | cons i is ih =>
    unfold pick at h ⊢
    split at h
    next a as' hi hrest =>
      rw [getElem?_extended hl hi, ih hrest]
      exact h
    · cases h

section

variable (hext : Extends m m')
include hext

lemma Applies.mono (h : m.Applies e input j) : m'.Applies e input j :=
  h.imp_right fun h => h.imp_right fun ⟨n, hj, heq⟩ => ⟨n, hj, hext.equations _ heq⟩

lemma Gives.mono (h : m.Gives op j) : m'.Gives op j := by
  cases op with
  | invalid | constant | reference | define | value => exact h
  | merge inputs =>
    obtain ⟨is, hpick, h⟩ := h
    refine ⟨is, pick_of_prefix hext.results hpick, h.imp_right fun h => h.imp_right ?_⟩
    exact fun ⟨n, hj, heq⟩ => ⟨n, hj, hext.equations _ heq⟩
  | adjust i delta subtract =>
    obtain ⟨input, hi, h⟩ := h
    exact ⟨input, getElem?_extended hext.results hi, h.mono hext⟩
  | align i alignment =>
    refine h.imp_right ?_
    exact fun ⟨hal, input, hi, h⟩ => ⟨hal, input, getElem?_extended hext.results hi, h.mono hext⟩
  | answer q => exact getElem?_extended hext.answers h

lemma Asked.mono (h : m.Asked op j) : m'.Asked op j := by
  cases op with
  | value i =>
    obtain ⟨input, m₀, hi, ha, h₀⟩ := h
    exact ⟨input, m₀, getElem?_extended hext.results hi, ha, h₀.trans hext⟩
  | _ => trivial

lemma Traced.result (h : Traced ops m) (hop : op.hasResult = true) (hquery : op.isQuery = false)
    (hresults : m'.results = m.results ++ [j]) (hanswers : m'.answers = m.answers)
    (hj : m'.Gives op j) : Traced (ops ++ [op]) m' := by
  refine ⟨?_, ?_, ?_⟩
  · rw [filter_append, filter_cons_of_pos hop, filter_nil, hresults]
    exact rel_append (h.results.imp fun _ _ hg => hg.mono hext) (.cons hj .nil)
  · rw [filter_append, filter_cons_of_neg (by rw [hquery]; decide), filter_nil, append_nil,
      hanswers]
    exact h.answers.imp fun _ _ ha => ha.mono hext
  · intro t i hmem
    rcases mem_append.mp hmem with hmem | hmem
    · obtain ⟨a, b, ha, hb, heq⟩ := h.defines t i hmem
      exact ⟨a, b, getElem?_extended hext.results ha, getElem?_extended hext.results hb,
        fun n hn => hext.equations _ (heq n hn)⟩
    · rw [← mem_singleton.mp hmem] at hop
      cases hop

end

theorem mergeCommon_value {inputs : List Input} {hasReference : Bool} {common : Option Coordinate}
    {c : Coordinate} (h : mergeCommon inputs hasReference common = some (false, some c)) :
    hasReference = false ∧ (∀ d ∈ common, d = c) ∧ ∀ i ∈ inputs, i = .value c := by
  induction inputs generalizing hasReference common with
  | nil =>
    obtain ⟨rfl, rfl⟩ := Prod.mk.inj (some.inj h)
    exact ⟨rfl, fun d hd => (some.inj hd).symm, forall_mem_nil _⟩
  | cons i inputs ih =>
    cases i with
    | invalid => cases h
    | reference n => cases (ih h).1
    | value d =>
      cases common with
      | none =>
        obtain ⟨hno, hd, hrest⟩ := ih h
        exact ⟨hno, fun _ hc => (by cases hc), forall_mem_cons.mpr ⟨congrArg _ (hd d rfl), hrest⟩⟩
      | some b =>
        unfold mergeCommon at h
        split at h
        · cases h
        next hsame =>
          obtain ⟨hno, hd, hrest⟩ := ih h
          have hb := not_not.mp hsame
          subst hb
          exact ⟨hno, hd, forall_mem_cons.mpr ⟨congrArg _ (hd b rfl), hrest⟩⟩

lemma apply_gives (m : Meaning) (e : FrameStep) (input : Input) : ∃ j,
    (m.apply e input).results = m.results ++ [j] ∧ (m.apply e input).answers = m.answers ∧
      (m.apply e input).Applies e input j := by
  unfold apply
  cases input with
  | invalid => exact ⟨_, rfl, rfl, .inl rfl⟩
  | reference n =>
    exact ⟨_, rfl, rfl, .inr (.inr ⟨_, rfl, mem_append_right _ (mem_singleton_self _)⟩)⟩
  | value c =>
    dsimp only
    split
    next d hd => exact ⟨_, rfl, rfl, .inr (.inl ⟨c, d, rfl, rfl, hd⟩)⟩
    · exact ⟨_, rfl, rfl, .inl rfl⟩

lemma merge_gives (m : Meaning) (is : List Input) : ∃ j, (m.merge is).results = m.results ++ [j] ∧
    (m.merge is).answers = m.answers ∧
      (j = .invalid ∨ (∀ i ∈ is, i = j) ∨ ∃ n, j = .reference n ∧
        ⟨n, is, {}⟩ ∈ (m.merge is).equations) := by
  unfold merge
  split
  · exact ⟨_, rfl, rfl, .inl rfl⟩
  next first rest =>
    split
    · exact ⟨_, rfl, rfl, .inl rfl⟩
    next c hc => exact ⟨_, rfl, rfl, .inr (.inl (mergeCommon_value hc).2.2)⟩
    · exact ⟨_, rfl, rfl, .inl rfl⟩
    · split
      next hrest =>
        refine ⟨_, rfl, rfl, .inr (.inl ?_)⟩
        rw [hrest]
        exact fun i hi => mem_singleton.mp hi
      · exact ⟨_, rfl, rfl, .inr (.inr ⟨_, rfl, mem_append_right _ (mem_singleton_self _)⟩)⟩

theorem Traced.exec (h : Traced ops m) (hin : ∀ eq ∈ m.equations, eq.target < m.size)
    (hexec : m.exec op = some m') : Traced (ops ++ [op]) m' := by
  have hext := extends_exec hin hexec
  cases op with
  | invalid =>
    obtain rfl := some.inj hexec
    exact h.result hext rfl rfl rfl rfl rfl
  | constant offset =>
    obtain rfl := some.inj hexec
    exact h.result hext rfl rfl rfl rfl rfl
  | reference =>
    obtain rfl := some.inj hexec
    exact h.result hext rfl rfl rfl rfl trivial
  | merge inputs =>
    obtain ⟨is, hpick, rfl⟩ := map_eq_some_iff.mp hexec
    obtain ⟨j, hresults, hanswers, hj⟩ := merge_gives m is
    exact h.result hext rfl rfl hresults hanswers ⟨is, pick_of_prefix hext.results hpick, hj⟩
  | adjust i delta subtract =>
    obtain ⟨input, hi, rfl⟩ := map_eq_some_iff.mp hexec
    obtain ⟨j, hresults, hanswers, hj⟩ :=
      apply_gives m { delta := delta, subtract := subtract } input
    exact h.result hext rfl rfl hresults hanswers ⟨input, getElem?_extended hext.results hi, hj⟩
  | align i alignment =>
    obtain ⟨input, hi, rfl⟩ := map_eq_some_iff.mp hexec
    split at hext
    next htakes =>
      rw [if_pos htakes]
      exact h.result hext rfl rfl rfl rfl (.inl rfl)
    next htakes =>
      rw [if_neg htakes]
      obtain ⟨j, hresults, hanswers, hj⟩ := apply_gives m { alignment := alignment } input
      refine h.result hext rfl rfl hresults hanswers
        (.inr ⟨?_, input, getElem?_extended hext.results hi, hj⟩)
      exact FrameRun.isAlignment_of_takes (Bool.eq_true_of_not_eq_false htakes)
  | answer q =>
    obtain ⟨a, ha, rfl⟩ := map_eq_some_iff.mp hexec
    exact h.result hext rfl rfl rfl rfl ha
  | value i =>
    obtain ⟨input, hi, rfl⟩ := map_eq_some_iff.mp hexec
    refine ⟨?_, ?_, ?_⟩
    · rw [filter_append, filter_cons_of_neg Bool.false_ne_true, filter_nil, append_nil]
      exact h.results.imp fun _ _ hg => hg.mono hext
    · rw [filter_append, filter_cons_of_pos rfl, filter_nil]
      exact rel_append (h.answers.imp fun _ _ ha => ha.mono hext)
        (.cons ⟨input, m, hi, rfl, hext⟩ .nil)
    · intro t i hmem
      rcases mem_append.mp hmem with hmem | hmem
      · exact h.defines t i hmem
      · cases mem_singleton.mp hmem
  | define t i =>
    have hsame : m'.results = m.results ∧ m'.answers = m.answers ∧ ∃ a b, m.results[t]? = some a ∧
        m.results[i]? = some b ∧ ∀ n, a = .reference n → ⟨n, [b], {}⟩ ∈ m'.equations := by
      unfold Meaning.exec at hexec
      dsimp only at hexec
      split at hexec
      next n b ht hi =>
        split at hexec
        · obtain rfl := some.inj hexec
          refine ⟨rfl, rfl, _, b, ht, hi, fun k hk => ?_⟩
          injection hk with hk
          rw [hk]
          exact mem_append_right _ (mem_singleton_self _)
        · cases hexec
      next a b hnot ht hi =>
        obtain rfl := some.inj hexec
        exact ⟨rfl, rfl, a, b, ht, hi, fun n hn => (hnot n hn).elim⟩
      · cases hexec
    obtain ⟨hresults, hanswers, a, b, ha, hb, heq⟩ := hsame
    refine ⟨?_, ?_, ?_⟩
    · rw [filter_append, filter_cons_of_neg Bool.false_ne_true, filter_nil, append_nil, hresults]
      exact h.results.imp fun _ _ hg => hg.mono hext
    · rw [filter_append, filter_cons_of_neg Bool.false_ne_true, filter_nil, append_nil, hanswers]
      exact h.answers.imp fun _ _ ha => ha.mono hext
    · intro t' i' hmem
      rw [hresults]
      rcases mem_append.mp hmem with hmem | hmem
      · obtain ⟨a, b, ha, hb, heq⟩ := h.defines t' i' hmem
        exact ⟨a, b, ha, hb, fun n hn => hext.equations _ (heq n hn)⟩
      · cases mem_singleton.mp hmem
        exact ⟨a, b, ha, hb, heq⟩

lemma Traced.nil : Traced [] {} := ⟨.nil, .nil, fun _ _ h => (by cases h)⟩

end Meaning

lemma move_default (x : Address) : move {} x = x := by
  unfold move
  rw [if_pos rfl, if_neg (by decide)]
  exact BitVec.add_zero x

end Frame

namespace FrameRun

open AffineFrameState NeverD.Ir.Frame Meaning

variable {m : Meaning} {r : FrameRun} {ops : List FrameOp} {x : Result} {sp y z : Address}

lemma Shows.legal (h : Shows r m) {i : Nat} {c : Coordinate}
    (hi : m.results[i]? = some (.value c)) : c.1.Legal := by
  obtain ⟨cur, hholds⟩ := h.holds
  have hx := rel_getElem h.results i
  rw [hi] at hx
  generalize r.results[i]? = a at hx
  cases hx with
  | some hx =>
    cases hx with
    | value hc =>
      rw [hc.2]
      exact hholds.stores.interned.term_legal _ hc.1

theorem Shows.applies (h : Shows r m) {i : Nat} {input j : Input} {e : FrameStep} (he : e.Legal)
    (hi : m.results[i]? = some input) (hj : m.Applies e input j)
    (hy : InputTakes m.equations sp input y) : InputTakes m.equations sp j (move e y) := by
  rcases hj with rfl | ⟨c, d, rfl, rfl, hd⟩ | ⟨n, rfl, heq⟩
  · trivial
  · rw [show y = address sp c from hy]
    exact (address_transfer he (h.legal hi) hd sp).symm
  · cases input with
    | invalid => exact .unknown heq (mem_singleton_self _)
    | value c =>
      rw [show y = address sp c from hy]
      exact .constant heq (mem_singleton_self _)
    | reference k => exact .reference heq (mem_singleton_self _) hy

lemma takes_of_mem {n : Nat} {is : List Input} {input : Input} (heq : ⟨n, is, {}⟩ ∈ m.equations)
    (hmem : input ∈ is) (hy : InputTakes m.equations sp input y) : Takes m.equations sp n y := by
  cases input with
  | invalid => exact .unknown heq hmem
  | value c =>
    rw [show y = address sp c from hy, ← move_default (address sp c)]
    exact .constant heq hmem
  | reference k =>
    rw [← move_default y]
    exact .reference heq hmem hy

lemma mem_of_pick {α : Type} {l : List α} {is : List Nat} {as : List α} (h : pick l is = some as)
    {i : Nat} (hi : i ∈ is) : ∃ a ∈ as, l[i]? = some a := by
  induction is generalizing as with
  | nil => cases hi
  | cons k is ih =>
    unfold pick at h
    split at h
    next a as' hk hrest =>
      obtain rfl := some.inj h
      rcases mem_cons.mp hi with rfl | hi
      · exact ⟨a, mem_cons_self, hk⟩
      · obtain ⟨b, hb, hi⟩ := ih hrest hi
        exact ⟨b, mem_cons_of_mem _ hb, hi⟩
    · cases h

theorem Shows.answered (h : Shows r m) {m₀ : Meaning} (hext : Extends m₀ m) {input : Input}
    (hy : InputTakes m.equations sp input y) :
    InputTakes m.equations sp (answer m₀.equations input) y := by
  obtain ⟨cur, hholds⟩ := h.holds
  cases input with
  | invalid => trivial
  | value c => exact hy
  | reference n =>
    unfold answer
    dsimp only
    split
    next hex =>
      have hlegal : ∀ eq ∈ m₀.equations, eq.Legal := fun eq heq =>
        hholds.stores.legal eq (hext.equations eq heq)
      exact eq_of_takes hlegal (hy.restrict hext.equations hext.added) hex.choose_spec
    · trivial

theorem Shows.closed (h : Shows r m) (ht : Traced ops m) (sp : Address) : m.Closed ops sp := by
  refine ⟨fun k op z hk hz => ?_, fun t i n z hmem hn hz => ?_⟩
  · have hgives := rel_getElem ht.results k
    rw [hk] at hgives
    generalize hj : m.results[k]? = out at hgives
    cases hgives with
    | @some _ j hgives =>
      refine ⟨j, hj, ?_⟩
      cases op with
      | invalid => rw [show j = .invalid from hgives]; trivial
      | constant offset =>
        rw [show j = .value (.sp, offset) from hgives]
        exact hz
      | reference | define | value => cases hz
      | merge inputs =>
        obtain ⟨i, hi, input, hget, hz⟩ := hz
        obtain ⟨is, hpick, hcases⟩ := hgives
        obtain ⟨a, ha, hia⟩ := mem_of_pick hpick hi
        obtain rfl := some.inj (hget.symm.trans hia)
        rcases hcases with rfl | hall | ⟨n, rfl, heq⟩
        · trivial
        · exact hall _ ha ▸ hz
        · exact takes_of_mem heq ha hz
      | adjust i delta subtract =>
        obtain ⟨y, ⟨input, hget, hy⟩, rfl⟩ := hz
        obtain ⟨input', hget', happlies⟩ := hgives
        obtain rfl := some.inj (hget.symm.trans hget')
        exact h.applies (.inl rfl) hget happlies hy
      | align i alignment =>
        obtain ⟨y, ⟨input, hget, hy⟩, rfl⟩ := hz
        rcases hgives with rfl | ⟨hal, input', hget', happlies⟩
        · trivial
        · obtain rfl := some.inj (hget.symm.trans hget')
          have hmove : InputTakes m.equations sp _ _ := h.applies (.inr hal) hget happlies hy
          unfold move at hmove
          rw [if_neg hal.pos.ne'] at hmove
          exact hmove
      | answer q =>
        obtain ⟨i, hq, input, hget, hy⟩ := hz
        have hasked := rel_getElem ht.answers q
        rw [hq, show m.answers[q]? = some j from hgives] at hasked
        cases hasked with
        | some hasked =>
          obtain ⟨input', m₀, hget', rfl, hext⟩ := hasked
          obtain rfl := some.inj (hget.symm.trans hget')
          exact h.answered hext hy
  · obtain ⟨input, hget, hz⟩ := hz
    obtain ⟨a, b, ha, hb, heq⟩ := ht.defines t i hmem
    obtain rfl := some.inj (hget.symm.trans hb)
    exact ⟨_, hn, takes_of_mem (heq n (some.inj (ha.symm.trans hn))) (mem_singleton_self _) hz⟩

lemma Shows.traced {r₀ : FrameRun} {m₀ : Meaning} (h : Shows r₀ m₀) {done : List FrameOp}
    (ht : Traced done m₀) (hrun : Meaning.run ops m₀ = some m) : Traced (done ++ ops) m := by
  induction ops generalizing r₀ m₀ done with
  | nil =>
    obtain rfl := some.inj hrun
    rw [append_nil]
    exact ht
  | cons op ops ih =>
    unfold Meaning.run at hrun
    split at hrun
    next m₁ hexec =>
      have hop := h.exec op
      rw [hexec] at hop
      generalize r₀.exec op = a at hop
      cases hop with
      | some hnext =>
        rw [append_cons]
        exact ih hnext (ht.exec h.inside hexec) hrun
    · cases hrun

/-- Frame equations are sound and incremental. In every run, a coordinate that a query answers is
the address of the operand in every execution of all equations, later ones included; bounds hold the
distance of an anchor from the stack pointer; and queries whose answers are not used can be left
out. -/
theorem frame_sound_incremental {before after : List FrameOp} {r₀ r : FrameRun}
    (h₀ : run before {} = some r₀)
    (h : run after r₀ = some r) : ∃ m, Frame.Meaning.run (before ++ after) {} = some m ∧
      (∀ (i : Nat) (x : Result), r₀.results[i]? = some x → ∃ input, m.results[i]? = some input ∧
        ∀ a o, (r₀.state.value x).2 = .value (a, o) →
          ∀ sp y, Frame.InputTakes m.equations sp input y →
          y = Frame.address sp (term (r₀.state.value x).1.anchors a, o)) ∧
      (∀ sp, m.Closed (before ++ after) sp) ∧
      (∀ a lo hi, a ≤ r.state.anchors.length → r.state.anchorBounds a = some (lo, hi) →
        ∀ sp, ∃ d, lo ≤ d ∧ d ≤ hi ∧
        (term r.state.anchors a).address sp = sp + BitVec.ofInt 64 d) ∧
        ((∀ k, .answer k ∉ before ++ after) →
        ∃ r', run ((before ++ after).filter fun op => !op.isQuery) {} = some r' ∧
          ∀ i : Nat, (r.results[i]?).map r.finalAnswer = (r'.results[i]?).map r'.finalAnswer) := by
  obtain ⟨m₀, hrun₀, hshow₀, -⟩ := shows_empty.run_some before h₀
  obtain ⟨m, hrun, hshow, hext⟩ := hshow₀.run_some after h
  have hall := meaning_run_append before after hrun₀ hrun
  refine ⟨m, hall, ?_, ?_, ?_, ?_⟩
  · intro i x hx
    have hi := rel_getElem hshow₀.results i
    rw [hx] at hi
    cases hin : m₀.results[i]? with
    | none =>
      rw [hin] at hi
      cases hi
    | some input =>
      rw [hin] at hi
      cases hi with
      | some hstand =>
        refine ⟨input, ?_, fun a o hvalue sp y hy => hshow₀.answer_sound hext hstand hvalue hy⟩
        obtain ⟨more, hmore⟩ := hext.results
        rw [← hmore, getElem?_append_left (List.getElem?_eq_some_iff.mp hin).1]
        exact hin
  · have htraced : Traced ([] ++ (before ++ after)) m := shows_empty.traced .nil hall
    exact hshow.closed htraced
  · intro a lo hi ha hb sp
    obtain ⟨cur, hholds⟩ := hshow.holds
    exact boundsFrom_sound hholds.stores.interned sp a ha hb (BitVec.add_zero _).symm
      (Int.le_refl 0) (Int.le_refl 0)
  · intro hnone
    obtain ⟨m', hrun', hsame⟩ :=
      Frame.Meaning.run_filter (before ++ after) hnone ⟨rfl, rfl, rfl⟩ hall
    have hrel := shows_empty.run ((before ++ after).filter fun op => !op.isQuery)
    rw [hrun'] at hrel
    generalize hr : run ((before ++ after).filter fun op => !op.isQuery) {} = a at hrel
    cases hrel with
    | @some r' _ hshow' =>
      refine ⟨r', rfl, ?_⟩
      intro i
      rw [hshow.finalAnswer, hshow'.finalAnswer, hsame.results, hsame.equations]

/-- A node is queried before it gets a definition that goes through itself; in the end it has the
one aligned address. -/
theorem frame_sound_incremental_cycle : ∃ r₀ r m,
    run [.reference, .value 0, .constant 16, .align 1 16, .merge [2, 0], .value 3, .define 0 3]
      {} = some r₀ ∧ run [.value 0] r₀ = some r ∧ r.answers = [.invalid, .invalid, .value (1, 0)] ∧
      Meaning.run ([.reference, .value 0, .constant 16, .align 1 16, .merge [2, 0], .value 3,
        .define 0 3] ++ [.value 0]) {} = some m ∧
      (∀ sp y, m.OperandTakes sp 3 y ↔ y = address sp (.aligned .sp 16 16, 0)) ∧
      ∃ r', run [.reference, .constant 16, .align 1 16, .merge [2, 0], .define 0 3] {} = some r' ∧
        ∀ i : Nat, (r.results[i]?).map r.finalAnswer = (r'.results[i]?).map r'.finalAnswer := by
  obtain ⟨r₀, r, h₀, h, hanswers, hresult, hvalue, hterm⟩ : ∃ r₀ r,
      run [.reference, .value 0, .constant 16, .align 1 16, .merge [2, 0], .value 3, .define 0 3]
        {} = some r₀ ∧
        run [.value 0] r₀ = some r ∧ r.answers = [.invalid, .invalid, .value (1, 0)] ∧
        r₀.results[3]? = some (.reference 1) ∧ (r₀.state.value (.reference 1)).2 = .value (1, 0) ∧
        term (r₀.state.value (.reference 1)).1.anchors 1 = .aligned .sp 16 16 :=
    ⟨_, _, rfl, rfl, rfl, rfl, rfl, rfl⟩
  obtain ⟨m, hrun, hsound, hclosed, -, hsame⟩ := frame_sound_incremental h₀ h
  refine ⟨r₀, r, m, h₀, h, hanswers, hrun, fun sp y => ⟨?_, ?_⟩, hsame (by intro k; simp)⟩
  · rintro ⟨input, hinput, hy⟩
    obtain ⟨input', hinput', hall⟩ := hsound 3 _ hresult
    obtain rfl := Option.some.inj (hinput.symm.trans hinput')
    rw [hall 1 0 hvalue sp y hy, hterm]
  · rintro rfl
    have hconstant := (hclosed sp).results 1 (.constant 16) _ rfl rfl
    have halign := (hclosed sp).results 2 (.align 1 16) _ rfl ⟨_, hconstant, rfl⟩
    have hmerge := (hclosed sp).results 3 (.merge [2, 0]) _ rfl ⟨2, mem_cons_self, halign⟩
    rw [show address sp (.aligned .sp 16 16, 0) = alignDown 16 (sp + BitVec.ofInt 64 16)
      from BitVec.add_zero _]
    exact hmerge

end FrameRun

end NeverD.Ir
