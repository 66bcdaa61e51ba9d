import NeverD.Evm.SemanticClassifier

namespace NeverD.Evm
open List EVMMedIR

open NeverD.Lib NeverD.Lib.Metered NeverD.Lib.Walk SemanticValue

def payVisit : Nat → Metered Unit := fun _ => pay 1

def freeVisit : Nat → Id Unit := fun _ => pure ()

section

variable (med : EVMMedIR)

lemma noteReferences_computes (count pc : Nat) :
    Computes (noteReferences payVisit count pc) () := by
  induction count with
  | zero => exact computes_pure ()
  | succ count ih => exact (computes_pay 1).bind ih

lemma isEligible_computes (pc : Nat) (lanes : List Nat) :
    Computes (isEligible payVisit med pc lanes) (lanes.any med.isReachable) := by
  induction lanes with
  | nil => exact computes_pure false
  | cons lane rest ih =>
    apply (computes_pay 1).bind
    rw [any_cons]
    split
    next hreachable =>
      rw [hreachable]
      exact computes_pure true
    next hreachable =>
      rw [Bool.eq_false_iff.mpr hreachable]
      exact ih

/-- Whether the operation behind a value executes. -/
def EVMMedIR.isProduced (id : Nat) (value : MedValue) : Bool :=
  if value.kind = .instruction then (med.producer id).any fun o =>
    o.executingLanes.any med.isReachable else true

lemma isProduced_computes (id : Nat) (value : MedValue) :
    Computes (isProduced payVisit med id value) (med.isProduced id value) := by
  unfold isProduced EVMMedIR.isProduced
  split
  · cases med.producer id with
    | none => exact computes_pure false
    | some o => exact isEligible_computes med o.pc o.executingLanes
  · exact computes_pure true

/-- What a value is computed from, as far as it is known to be computed. -/
def EVMMedIR.deps (id : Nat) : List Nat :=
  match med.values[id]? with
  | none => []
  | some value =>
    if !med.isProduced id value ∨ value.constant.isSome ∨ value.kind = .unknown then []
    else if value.kind = .phi then value.inputs
    else (med.producer id).elim [] MedOperation.inputs

lemma dependencies_computes (id : Nat) : Computes (dependencies payVisit med id) (med.deps id) := by
  unfold dependencies deps
  cases med.values[id]? with
  | none => exact computes_pure []
  | some value =>
    apply (computes_pay 1).bind
    apply (isProduced_computes med id value).bind
    dsimp only
    cases med.isProduced id value with
    | false => exact computes_pure []
    | true =>
      rw [if_pos rfl]
      unfold dependenciesOf
      by_cases hnone : value.constant.isSome ∨ value.kind = .unknown
      · rw [if_pos hnone, if_pos (.inr hnone)]
        exact computes_pure []
      · have hno : ¬((!true) = true ∨ value.constant.isSome = true ∨ value.kind = .unknown) := by
          simpa using hnone
        rw [if_neg hnone, if_neg hno]
        split
        · exact (noteReferences_computes _ _).bind (computes_pure _)
        · cases med.producer id with
          | none => exact computes_pure []
          | some o => exact (noteReferences_computes _ _).bind (computes_pure _)

def EVMMedIR.phi (results : Nat → SemanticValue) (incomings : List MedPhiIncoming)
    (common : Option SemanticValue) : SemanticValue :=
  Id.run (evaluatePhi freeVisit med results 0 incomings common)

lemma evaluatePhi_computes (results : Nat → SemanticValue) (pc : Nat)
    (incomings : List MedPhiIncoming) (common : Option SemanticValue) :
    Computes (evaluatePhi payVisit med results pc incomings common)
      (med.phi results incomings common) := by
  induction incomings generalizing common with
  | nil => exact computes_pure _
  | cons incoming rest ih =>
    apply (computes_pay 1).bind
    show Computes _ (Id.run (if _ then _ else _))
    split
    · exact computes_pure _
    · cases common with
      | none =>
        dsimp only
        split
        · exact computes_pure _
        · exact ih _
      | some common =>
        dsimp only
        split
        · exact computes_pure _
        · exact ih _

/-- The class of a value, as the classes of its dependencies give it. -/
def EVMMedIR.eval (results : Nat → SemanticValue) (id : Nat) : SemanticValue :=
  match med.values[id]? with
  | none => unknown
  | some value =>
    if !med.isProduced id value then unknown
    else match value.constant with
      | some constant => ofConstant constant
      | none =>
        if value.kind = .phi then med.phi results value.phiIncomings none
        else if value.kind = .instruction then
          (med.producer id).elim unknown (evaluateOperation results)
        else unknown

lemma evaluateInstruction_computes (results : Nat → SemanticValue) {id : Nat} {value : MedValue}
    (hkind : value.kind = .instruction) (hproduced : med.isProduced id value = true) :
    Computes (evaluateInstruction payVisit med results id)
      ((med.producer id).elim unknown (evaluateOperation results)) := by
  unfold EVMMedIR.isProduced at hproduced
  rw [if_pos hkind] at hproduced
  unfold evaluateInstruction
  cases hproducer : med.producer id with
  | none => exact computes_pure _
  | some o =>
    rw [hproducer] at hproduced
    have heligible : o.executingLanes.any med.isReachable = true := hproduced
    apply (isEligible_computes med o.pc o.executingLanes).bind
    rw [heligible, if_pos rfl]
    exact (noteReferences_computes _ _).bind (computes_pure _)

lemma evaluate_computes (results : Nat → SemanticValue) (id : Nat) :
    Computes (evaluate payVisit med results id) (med.eval results id) := by
  unfold evaluate eval
  cases med.values[id]? with
  | none => exact computes_pure unknown
  | some value =>
    apply (computes_pay 1).bind
    apply (isProduced_computes med id value).bind
    dsimp only
    cases hproduced : med.isProduced id value with
    | false => exact computes_pure unknown
    | true =>
      rw [if_pos rfl, if_neg (by simp)]
      unfold evaluateValue
      cases value.constant with
      | some constant => exact computes_pure _
      | none =>
        dsimp only
        split
        · exact evaluatePhi_computes med results _ _ _
        · split
          next hkind => exact evaluateInstruction_computes med results hkind hproduced
          · exact computes_pure _

lemma producer_inputs {id : Nat} {o : MedOperation} {value : MedValue}
    (ho : med.producer id = some o)
    (hvalue : med.values[id]? = some value) : o.inputs = value.inputs := by
  have hmem : o ∈ med.operations := mem_of_find?_eq_some ho
  have houtput : id ∈ o.outputs := by
    have hfound := find?_some ho
    exact of_decide_eq_true hfound
  obtain ⟨v, hv, -, hinputs⟩ := med.outputs_value o hmem id houtput
  rw [hvalue] at hv
  rw [Option.some.inj hv]
  exact hinputs.symm

lemma deps_inputs {id : Nat} {value : MedValue} (hvalue : med.values[id]? = some value) :
    med.deps id = [] ∨ med.deps id = value.inputs := by
  unfold deps
  rw [hvalue]
  dsimp only
  split
  · exact .inl rfl
  · split
    · exact .inr rfl
    · cases ho : med.producer id with
      | none => exact .inl rfl
      | some o => exact .inr (producer_inputs med ho hvalue)

lemma deps_bound {id d : Nat} (hd : d ∈ med.deps id) : id < med.values.length ∧
    d < med.values.length := by
  cases hvalue : med.values[id]? with
  | none =>
    unfold deps at hd
    rw [hvalue] at hd
    cases hd
  | some value =>
    refine ⟨(List.getElem?_eq_some_iff.mp hvalue).1, ?_⟩
    rcases deps_inputs med hvalue with hdeps | hdeps
    · rw [hdeps] at hd
      cases hd
    · rw [hdeps] at hd
      exact med.inputs_lt value (mem_of_getElem? hvalue) d hd

lemma deps_weight {id : Nat} (hid : id < med.values.length) :
    (med.deps id).length + 2 ≤ ((med.values[id]?).elim 0 fun value => value.inputs.length) + 2 := by
  have hvalue := getElem?_eq_getElem hid
  rw [hvalue]
  rcases deps_inputs med hvalue with hdeps | hdeps
  · rw [hdeps]
    simp
  · rw [hdeps]
    exact Nat.le_refl _

end

section

variable {results results' : Nat → SemanticValue} {o : MedOperation}

lemma mem_getD {list : List Nat} {i : Nat} (hi : i < list.length) : list.getD i 0 ∈ list := by
  rw [getD_eq_getElem?_getD, getElem?_eq_getElem hi]
  exact getElem_mem hi

lemma evaluateOperation_congr (h : ∀ d ∈ o.inputs, results d = results' d) :
    evaluateOperation results o = evaluateOperation results' o := by
  have hinput : ∀ {i n}, o.inputs.length = n → i < n →
      results (o.inputs.getD i 0) = results' (o.inputs.getD i 0) :=
    fun hn hi => h _ (mem_getD (by omega))
  have hfirst : o.inputs.length = 1 → results (o.inputs.getD 0 0) = results' (o.inputs.getD 0 0) :=
    fun hcount => hinput hcount (by decide)
  have hboth : o.inputs.length = 2 → results (o.inputs.getD 0 0) = results' (o.inputs.getD 0 0) ∧
      results (o.inputs.getD 1 0) = results' (o.inputs.getD 1 0) :=
    fun hcount => ⟨hinput hcount (by decide), hinput hcount (by decide)⟩
  refine ite_congr rfl (fun hc => hfirst hc.2) fun _ => ?_
  refine ite_congr rfl (fun hc => congrArg evaluateCalldataload (hfirst hc.2)) fun _ => ?_
  refine ite_congr rfl (fun hc => congrArg₂ evaluateShr (hboth hc.2).1 (hboth hc.2).2) fun _ => ?_
  refine ite_congr rfl (fun hc => congrArg₂ evaluateAnd (hboth hc.2).1 (hboth hc.2).2) fun _ => ?_
  refine ite_congr rfl (fun hc => congrArg₂ evaluateXor (hboth hc.2).1 (hboth hc.2).2) fun _ => ?_
  refine ite_congr rfl (fun _ => rfl) fun _ => ?_
  refine ite_congr rfl (fun _ => rfl) fun _ => ?_
  refine ite_congr rfl (fun _ => rfl) fun _ => ?_
  refine ite_congr rfl (fun hc => congrArg evaluateIszero (hfirst hc.2)) fun _ => ?_
  refine ite_congr rfl (fun hc => congrArg₂ evaluateEq (hboth hc.2).1 (hboth hc.2).2) fun _ => ?_
  exact ite_congr rfl (fun hc => congrArg₂ (evaluateComparison o.op) (hboth hc.2).1 (hboth hc.2).2)
    fun _ => rfl

variable {second first : SemanticValue}

variable (h : first = unknown ∨ second = unknown)
include h

lemma matchSelectorConstant_strict : matchSelectorConstant first second = none := by
  unfold matchSelectorConstant
  rw [if_pos]
  rcases h with h | h
  · rw [h]
    exact .inl (by decide)
  · rw [h]
    exact .inr (.inr (by decide))

lemma matchZero_strict : matchZero first second = unknown := by
  unfold matchZero
  rcases h with h | h
  · rw [h]
    split <;> rfl
  · rw [h]
    rfl

lemma evaluateShr_strict : evaluateShr first second = unknown := by
  unfold evaluateShr
  rw [if_neg]
  rintro ⟨h1, -, h2⟩
  rcases h with h | h
  · rw [h] at h1
    cases h1
  · rw [h] at h2
    cases h2

lemma evaluateAnd_strict : evaluateAnd first second = unknown := by
  have hkind : unknown.kind ≠ .selectorWord := by decide
  have hmask : ¬isSelectorMask unknown = true := by decide
  unfold evaluateAnd
  rw [if_neg]
  rcases h with h | h
  · rw [h]
    exact fun hor => hor.elim (fun h => hkind h.1) (fun h => hmask h.2)
  · rw [h]
    exact fun hor => hor.elim (fun h => hmask h.2) (fun h => hkind h.1)

lemma evaluateXor_strict : evaluateXor first second = unknown := by
  unfold evaluateXor
  rw [matchSelectorConstant_strict h, matchSelectorConstant_strict h.symm]

lemma evaluateEq_strict : evaluateEq first second = unknown := by
  unfold evaluateEq
  rw [matchSelectorConstant_strict h, matchSelectorConstant_strict h.symm, matchZero_strict h,
    matchZero_strict h.symm]
  rfl

lemma evaluateComparison_strict {op : Opcode} : evaluateComparison op first second = unknown := by
  have hkind : unknown.kind ≠ .calldataSize := by decide
  have hcount : ¬isSelectorByteCount unknown = true := by decide
  unfold evaluateComparison
  rw [if_neg]
  rcases h with h | h
  · rw [h]
    exact fun hor => hor.elim (fun h => hkind h.2.1) (fun h => hcount h.2.1)
  · rw [h]
    exact fun hor => hor.elim (fun h => hcount h.2.2) (fun h => hkind h.2.2)

omit h

lemma ite_unknown {c : Prop} [Decidable c] {x y : SemanticValue} (hx : c → x = unknown)
    (hy : ¬c → y = unknown) : (if c then x else y) = unknown := by
  split
  next hc => exact hx hc
  next hc => exact hy hc

theorem evaluateOperation_strict (hexternal : ¬isExternal o = true) {d : Nat} (hd : d ∈ o.inputs)
    (hunknown : results d = unknown) : evaluateOperation results o = unknown := by
  have hfirst : o.inputs.length = 1 → results (o.inputs.getD 0 0) = unknown := by
    intro hcount
    obtain ⟨a, ha⟩ := length_eq_one_iff.mp hcount
    rw [ha] at hd ⊢
    rw [mem_singleton.mp hd] at hunknown
    exact hunknown
  have hboth : o.inputs.length = 2 → results (o.inputs.getD 0 0) = unknown ∨
      results (o.inputs.getD 1 0) = unknown := by
    intro hcount
    obtain ⟨a, b, hab⟩ := length_eq_two.mp hcount
    rw [hab] at hd ⊢
    rcases mem_pair.mp hd with hd | hd
    · rw [hd] at hunknown
      exact .inl hunknown
    · rw [hd] at hunknown
      exact .inr hunknown
  have hsome : o.inputs.length ≠ 0 := Nat.ne_of_gt (length_pos_of_mem hd)
  refine ite_unknown (fun hc => hfirst hc.2) fun _ => ?_
  refine ite_unknown (fun hc => (congrArg evaluateCalldataload (hfirst hc.2)).trans rfl) fun _ => ?_
  refine ite_unknown (fun hc => evaluateShr_strict (hboth hc.2)) fun _ => ?_
  refine ite_unknown (fun hc => evaluateAnd_strict (hboth hc.2)) fun _ => ?_
  refine ite_unknown (fun hc => evaluateXor_strict (hboth hc.2)) fun _ => ?_
  refine ite_unknown (fun hc => absurd hc.2 hsome) fun _ => ?_
  refine ite_unknown (fun hc => absurd hc.2 hsome) fun _ => ?_
  refine ite_unknown (fun hc => absurd hc hexternal) fun _ => ?_
  refine ite_unknown (fun hc => (congrArg evaluateIszero (hfirst hc.2)).trans rfl) fun _ => ?_
  refine ite_unknown (fun hc => evaluateEq_strict (hboth hc.2)) fun _ => ?_
  exact ite_unknown (fun hc => evaluateComparison_strict (hboth hc.2)) fun _ => rfl

theorem isExternal_op (h : isExternal o = true) :
    ¬(isDup o.op || isDeepDup o.op) = true ∧ o.op ∉ [0x35, 0x1c, 0x16, 0x18, 0x34, 0x36] := by
  have hall :
      (opcodeTable.all fun info => !(info.effect = .externalCall || info.effect = .create) ||
      (!(isDup info.op || isDeepDup info.op) && info.op ∉ [0x35, 0x1c, 0x16, 0x18, 0x34, 0x36])) =
        true := by rfl
  unfold isExternal at h
  split at h
  next info hinfo =>
    have hentry := all_eq_true.mp hall info (mem_of_find?_eq_some hinfo)
    rw [assignedOpcodeInfo_op hinfo] at hentry
    rw [Bool.and_eq_true] at h
    rw [h.2] at hentry
    simpa using hentry
  · cases h

theorem evaluateOperation_external (h : isExternal o = true) :
    evaluateOperation results o = externalOutcome .externalOutcome o.pc := by
  obtain ⟨hdup, hop⟩ := isExternal_op h
  simp only [mem_cons, not_mem_nil, or_false, not_or] at hop
  obtain ⟨h1, h2, h3, h4, h5, h6⟩ := hop
  unfold evaluateOperation
  rw [if_neg fun hc => hdup hc.1, if_neg fun hc => h1 hc.1, if_neg fun hc => h2 hc.1,
    if_neg fun hc => h3 hc.1,
    if_neg fun hc => h4 hc.1, if_neg fun hc => h5 hc.1, if_neg fun hc => h6 hc.1, if_pos h]

end

section

variable {med : EVMMedIR} {results results' : Nat → SemanticValue} {incomings : List MedPhiIncoming}
variable {common : Option SemanticValue}

lemma phi_congr (h : ∀ incoming ∈ incomings, results incoming.value = results' incoming.value) :
    med.phi results incomings common = med.phi results' incomings common := by
  induction incomings generalizing common with
  | nil => rfl
  | cons incoming rest ih =>
    have hrest := fun c => @ih c fun i hi => h i (mem_cons_of_mem _ hi)
    show Id.run (if _ then _ else _) = Id.run (if _ then _ else _)
    rw [h incoming mem_cons_self]
    split
    · rfl
    · cases common with
      | none =>
        dsimp only
        split
        · rfl
        · exact hrest _
      | some common =>
        dsimp only
        split
        · rfl
        · exact hrest _

lemma sameExpression_unknown {common : SemanticValue} : sameExpression common unknown = false := by
  unfold sameExpression
  cases hkind : common.kind <;> rfl

lemma phi_strict {incoming : MedPhiIncoming} (hmem : incoming ∈ incomings)
    (h : results incoming.value = unknown) : med.phi results incomings common = unknown := by
  induction incomings generalizing common with
  | nil => cases hmem
  | cons first rest ih =>
    have hrest : incoming ∈ rest → ∀ c, med.phi results rest c = unknown := fun hmem c => ih hmem
    show Id.run (if _ then _ else _) = _
    split
    · rfl
    · rcases mem_cons.mp hmem with heq | hmem
      · rw [← heq, h]
        cases common with
        | none => rfl
        | some common =>
          dsimp only
          rw [sameExpression_unknown]
          rfl
      · cases common with
        | none =>
          dsimp only
          split
          · rfl
          · exact hrest hmem _
        | some common =>
          dsimp only
          split
          · rfl
          · exact hrest hmem _

end

variable (med : EVMMedIR)

/-- Values whose class does not look at their inputs: the outcomes of calls and creations. -/
def EVMMedIR.isOutcome (id : Nat) : Bool :=
  match med.values[id]? with
  | none => false
  | some value =>
    value.kind = .instruction && value.constant.isNone && med.isProduced id value &&
      (med.producer id).any isExternal

/-- The answers of one classifier. -/
def EVMMedIR.answers (budget : Nat) (queries : List Query) : List (Nat × SemanticValue) :=
  Walk.answers (dependencies payVisit med) (evaluate payVisit med) unknown med.values.length
    (classifyFuel med) (fresh unknown) budget queries

variable {med}

section

variable {id : Nat} {value : MedValue} {results results' : Nat → SemanticValue}

lemma deps_eq (hvalue : med.values[id]? = some value) (hproduced : med.isProduced id value = true)
    (hconstant : value.constant = none) (hkind : value.kind ≠ .unknown) :
    med.deps id = if value.kind = .phi then value.inputs
      else (med.producer id).elim [] MedOperation.inputs := by
  unfold deps
  rw [hvalue]
  dsimp only
  rw [if_neg]
  rw [hproduced, hconstant]
  simpa using hkind

lemma eval_eq (hvalue : med.values[id]? = some value) (hproduced : med.isProduced id value = true)
    (hconstant : value.constant = none) : med.eval results id =
      if value.kind = .phi then med.phi results value.phiIncomings none
      else if value.kind = .instruction then
        (med.producer id).elim unknown (evaluateOperation results)
      else unknown := by
  unfold eval
  rw [hvalue]
  dsimp only
  rw [hproduced, hconstant]
  rfl

theorem of_mem_deps {d : Nat} (hd : d ∈ med.deps id) : ∃ value, med.values[id]? = some value ∧
    med.isProduced id value = true ∧ value.constant = none ∧ value.kind ≠ .unknown := by
  unfold deps at hd
  cases hvalue : med.values[id]? with
  | none =>
    rw [hvalue] at hd
    cases hd
  | some value =>
    rw [hvalue] at hd
    dsimp only at hd
    split at hd
    · cases hd
    next hno =>
      simp only [not_or, Bool.not_eq_true', Bool.not_eq_false, Bool.not_eq_true,
        Option.isSome_eq_false_iff, Option.isNone_iff_eq_none] at hno
      exact ⟨value, rfl, hno.1, hno.2.1, hno.2.2⟩

lemma eval_outcome (h : med.isOutcome id = true) :
    ∃ x, x ≠ unknown ∧ ∀ results, med.eval results id = x := by
  unfold isOutcome at h
  cases hvalue : med.values[id]? with
  | none =>
    rw [hvalue] at h
    cases h
  | some value =>
    rw [hvalue] at h
    simp only [Bool.and_eq_true, decide_eq_true_eq, Option.isNone_iff_eq_none] at h
    obtain ⟨⟨⟨hkind, hconstant⟩, hproduced⟩, hexternal⟩ := h
    cases ho : med.producer id with
    | none =>
      rw [ho] at hexternal
      cases hexternal
    | some o =>
      rw [ho] at hexternal
      refine ⟨externalOutcome .externalOutcome o.pc, ?_, ?_⟩
      · intro heq
        cases congrArg SemanticValue.kind heq
      · intro results
        rw [eval_eq hvalue hproduced hconstant, if_neg (by rw [hkind]; decide), if_pos hkind, ho]
        exact evaluateOperation_external hexternal

theorem eval_strict {d : Nat} (h : ¬med.isOutcome id = true) (hd : d ∈ med.deps id)
    (hunknown : results d = unknown) : med.eval results id = unknown := by
  obtain ⟨value, hvalue, hproduced, hconstant, hkind⟩ := of_mem_deps hd
  rw [deps_eq hvalue hproduced hconstant hkind] at hd
  rw [eval_eq hvalue hproduced hconstant]
  split
  next hphi =>
    rw [if_pos hphi, ← med.phi_inputs value (mem_of_getElem? hvalue) hphi] at hd
    obtain ⟨incoming, hincoming, hd⟩ := mem_map.mp hd
    rw [← hd] at hunknown
    exact phi_strict hincoming hunknown
  next hphi =>
    rw [if_neg hphi] at hd
    split
    next hinstruction =>
      cases ho : med.producer id with
      | none => rfl
      | some o =>
        rw [ho] at hd
        have hexternal : ¬isExternal o = true := by
          intro hexternal
          apply h
          unfold isOutcome
          rw [hvalue]
          simp [hinstruction, hconstant, hproduced, ho, hexternal]
        exact evaluateOperation_strict hexternal hd hunknown
    · rfl

lemma eval_congr (h : ∀ d ∈ med.deps id, results d = results' d) :
    med.eval results id = med.eval results' id := by
  cases hvalue : med.values[id]? with
  | none =>
    unfold eval
    rw [hvalue]
  | some value =>
    cases hproduced : med.isProduced id value with
    | false =>
      unfold eval
      rw [hvalue]
      dsimp only
      rw [hproduced]
      rfl
    | true =>
      cases hconstant : value.constant with
      | some constant =>
        unfold eval
        rw [hvalue]
        dsimp only
        rw [hconstant]
      | none =>
        rw [eval_eq hvalue hproduced hconstant, eval_eq hvalue hproduced hconstant]
        split
        next hphi =>
          rw [deps_eq hvalue hproduced hconstant (by rw [hphi]; decide), if_pos hphi,
            ← med.phi_inputs value (mem_of_getElem? hvalue) hphi] at h
          exact phi_congr fun incoming hincoming => h _ (mem_map_of_mem hincoming)
        next hphi =>
          split
          next hinstruction =>
            rw [deps_eq hvalue hproduced hconstant (by rw [hinstruction]; decide), if_neg hphi] at h
            cases ho : med.producer id with
            | none => rfl
            | some o =>
              rw [ho] at h
              exact evaluateOperation_congr h
          · rfl

end

lemma evaluates (med : EVMMedIR) : Evaluates (dependencies payVisit med)
    (evaluate payVisit med) unknown
    med.values.length (classifyFuel med) med.deps med.eval (fun id => med.isOutcome id = true)
    (fun id => ((med.values[id]?).elim 0 fun value => value.inputs.length) + 2) where
  findsDeps := dependencies_computes med
  evaluates := evaluate_computes med
  bound := deps_bound med
  outside results hid := by
    unfold eval
    rw [getElem?_eq_none hid]
  weighs := deps_weight med
  enough := Nat.le_refl _
  congr := eval_congr
  fixed := eval_outcome
  strict := eval_strict

/-- The class of a value does not depend on the values asked for before it exactly if no outcome of
a call or a creation is computed from itself through other values. -/
theorem classify_history (med : EVMMedIR) :
    (∀ budget budget' queries queries' id x y, (id, x) ∈ med.answers budget queries →
      (id, y) ∈ med.answers budget' queries' → x = y) ↔
    ∀ id, med.isOutcome id = true → id ∈ med.deps id ∨ ¬OnCycle med.deps id :=
  historyIndependent_iff (evaluates med)

def loopedCall : EVMMedIR where
  values :=
    [⟨.instruction, 10, List.replicate 7 1, [], none⟩, ⟨.phi, 2, [2, 0], [⟨0, 2⟩, ⟨1, 0⟩], none⟩,
    ⟨.constant, 0, [], [], some 0⟩]
  operations := [⟨0, 0x60, [], [2], [0]⟩, ⟨10, 0xf1, List.replicate 7 1, [0], [1]⟩]
  stateLanes := [⟨0, .reachable⟩, ⟨1, .reachable⟩]
  inputs_lt := by decide
  outputs_value := by simp
  outputs_nodup := by decide
  produced := by
    intro id v hv hkind
    match id with
    | 0 => exact ⟨_, mem_cons_of_mem _ mem_cons_self, mem_cons_self⟩
    | 1 =>
      rw [← Option.some.inj hv] at hkind
      cases hkind
    | 2 =>
      rw [← Option.some.inj hv] at hkind
      cases hkind
    | n + 3 => cases hv
  phi_inputs := by decide

/-- The call is an outcome if it is asked for first, and unknown if its input is. -/
theorem classify_history_loopedCall : ¬∀ budget budget' queries queries' id x y,
    (id, x) ∈ loopedCall.answers budget queries → (id, y) ∈ loopedCall.answers budget' queries' →
    x = y := by
  intro h
  have hfirst : loopedCall.answers 100 [⟨0, 0⟩] = [(0, externalOutcome .externalOutcome 10)] := by
    rfl
  have hsecond : loopedCall.answers 100 [⟨0, 1⟩, ⟨0, 0⟩] = [(1, unknown), (0, unknown)] := by rfl
  have hsame := h 100 100 [⟨0, 0⟩] [⟨0, 1⟩, ⟨0, 0⟩] 0 (externalOutcome .externalOutcome 10) unknown
    (by rw [hfirst]; exact mem_cons_self)
    (by rw [hsecond]; exact mem_cons_of_mem _ mem_cons_self)
  cases congrArg SemanticValue.kind hsame

end NeverD.Evm
