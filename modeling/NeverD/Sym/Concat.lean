import NeverD.Sym.Extract

namespace NeverD.Sym
open Lib SymContext
open Words List

section

variable [BlockHash] (B : Builders)

/-- The parts of concatenations in order, with the zeros above an extension as a part. -/
def flattenConcat : List SymRef → Build (List SymRef)
  | [] => pure []
  | r :: rs => do
    let ctx ← Build.context
    let inner := if ctx.op r = .zext then ctx.operand r 0 else r
    let parts := if ctx.op inner = .concat then ctx.operands inner else [inner]
    if ctx.op r = .zext then do
      let zeros ← Build.mkZero (ctx.width r - ctx.width inner)
      let rest ← flattenConcat rs
      pure (zeros :: (parts ++ rest))
    else do
      let rest ← flattenConcat rs
      pure (parts ++ rest)

/-- The words of which two neighbours are windows, and where the lower window starts. -/
def alignSlices (prev r : SymRef) : Build (SymRef × SymRef × Nat) := do
  let ctx ← Build.context
  let upper := ctx.sliceOf prev
  let lower := ctx.sliceOf r
  let bits := ctx.width r
  let other := if ctx.isWideningOf lower.1 upper.1 ∧
    upper.2 + ctx.width prev ≤ ctx.width upper.1 then lower.1
    else upper.1
  if upper.1 = lower.1 then pure (upper.1, lower.1, lower.2)
  else if ctx.isWideningOf upper.1 lower.1 ∧ lower.2 + bits ≤ ctx.width lower.1 then
    pure (upper.1, upper.1, lower.2)
  else if upper.2 = bits ∧ bits < ctx.width upper.1 then do
    -- a low window of the upper word may be spelled as the window of something else
    let low ← B.mkExtract upper.1 0 bits
    if r = low then pure (upper.1, upper.1, 0) else pure (other, lower.1, lower.2)
  else pure (other, lower.1, lower.2)

def joinParts (prev r : SymRef) : Build (Option SymRef) := do
  let ctx ← Build.context
  let hi := ctx.constValue prev
  let lo := ctx.constValue r
  if ctx.isConst prev ∧ ctx.isConst r then
    some <$> Build.mkConst (((hi.zextOrTrunc (hi.width + lo.width)).shl lo.width).or
      (lo.zextOrTrunc (hi.width + lo.width)))
  else do
    let aligned ← alignSlices B prev r
    if aligned.1 = aligned.2.1 ∧ (ctx.sliceOf prev).2 = aligned.2.2 + ctx.width r then
      some <$> B.mkExtract aligned.1 aligned.2.2 (ctx.width r + ctx.width prev)
    else pure none

/-- Join neighbours. What is merged so far is listed from the last part back. -/
def mergeConcat : List SymRef → List SymRef → Build (List SymRef)
  | [], merged => pure merged.reverse
  | r :: rest, [] => mergeConcat rest [r]
  | r :: rest, prev :: before => do
    match ← joinParts B prev r with
    | some joined => mergeConcat rest (joined :: before)
    | none => mergeConcat rest (r :: prev :: before)

def finishConcat (merged : List SymRef) : Build SymRef := do
  let ctx ← Build.context
  let w := (merged.map ctx.width).sum
  match merged with
  | [] => Build.stop
  | [r] => pure r
  | first :: rest =>
    if ctx.isConstZero first then do
      let low ← B.mkConcat rest
      B.mkZExt low w
    else Build.intern .concat w (first :: rest) 0

def mkConcat (ops : List SymRef) : Build SymRef :=
  match ops with
  | [] => Build.stop
  | [r] => pure r
  | _ => do
    let flat ← flattenConcat ops
    let merged ← mergeConcat B flat []
    finishConcat B merged

def selectTruth (c t e : SymRef) : Build (Option SymRef) := do
  let ctx ← Build.context
  let w := ctx.width t
  let yes := ctx.constValue t
  let no := ctx.constValue e
  if ctx.isConst t ∧ ctx.isConst e ∧ yes.isOne ∧ no.isZero then some <$> B.mkZExt c w
  else if ctx.isConst t ∧ ctx.isConst e ∧ yes.isZero ∧ no.isOne then
    some <$> do
      let inverse ← B.mkNot c
      B.mkZExt inverse w
  else pure none

def selectBit (c t e : SymRef) : Build (Option SymRef) := do
  let ctx ← Build.context
  if ctx.width t ≠ 1 then pure none
  else if ctx.isConst t then
    some <$> if ctx.isConstZero t then do
      let inverse ← B.mkNot c
      B.mkAnd [inverse, e]
    else B.mkOr [c, e]
  else if ctx.isConst e then
    some <$> if ctx.isConstZero e then B.mkAnd [c, t]
    else do
      let inverse ← B.mkNot c
      B.mkOr [inverse, t]
  else pure none

def narrowArm (narrow : Nat) (r : SymRef) : Build (Option SymRef) := do
  let ctx ← Build.context
  if ctx.op r = .zext ∧ ctx.width (ctx.operand r 0) = narrow then pure (some (ctx.operand r 0))
  else if ctx.isConst r ∧ (ctx.constValue r).getActiveBits ≤ narrow then
    some <$> Build.mkConst ((ctx.constValue r).zextOrTrunc narrow)
  else pure none

def selectNarrow (c t e : SymRef) : Build (Option SymRef) := do
  let ctx ← Build.context
  let extended := if ctx.op t = .zext then t else e
  let narrow := ctx.width (ctx.operand extended 0)
  if ctx.op t = .zext ∨ ctx.op e = .zext then do
    let yes ← narrowArm narrow t
    let no ← narrowArm narrow e
    match yes, no with
    | some yes, some no =>
      some <$> do
        let selected ← B.mkIte c yes no
        B.mkZExt selected (ctx.width t)
    | _, _ => pure none
  else pure none

def mkIte (c t e : SymRef) : Build SymRef := do
  let ctx ← Build.context
  if ctx.isConst c then pure (if (ctx.constValue c).isZero then e else t)
  else if t = e then pure t
  else
    (selectTruth B c t e).orElse <|
    (selectBit B c t e).orElse <|
    (selectNarrow B c t e).orElse <|
    Build.intern .ite (ctx.width t) [c, t, e] 0

end

section

variable [BlockHash] {last : SymContext} {vals : List APInt} {s : SymBuilder} {v w : Nat}
    {B : Builders} {a b r : SymRef}

lemma flattenConcat_spec {rs : List SymRef} (hrs : ∀ r ∈ rs, r < s.ctx.nodes.length) :
    Triple last vals s (flattenConcat rs) fun flat t =>
      (∀ r ∈ flat, r < t.ctx.nodes.length) ∧ packed last vals flat = packed last vals rs := by
  induction rs generalizing s with
  | nil => exact triple_pure fun _ => ⟨forall_mem_nil _, rfl⟩
  | cons r rs ih =>
    have hr := hrs r (mem_cons_self ..)
    have hrest := fun q hq => hrs q (mem_cons_of_mem _ hq)
    apply triple_context
    intro h
    have hhas := h.has_last hr
    have hparts : ∀ {inner : SymRef}, inner < s.ctx.nodes.length →
        (∀ q ∈ (if s.ctx.op inner = .concat then s.ctx.operands inner else [inner]),
          q < s.ctx.nodes.length) ∧
          packed last vals (if s.ctx.op inner = .concat then s.ctx.operands inner else [inner]) =
            (last.width inner, last.num vals inner) := by
      intro inner hin
      split
      next hop =>
        exact ⟨fun q hq => (h.operand_has (h.has_last hin) hq).1,
          packed_operands h (h.has_last hin) hop⟩
      · refine ⟨?_, packed_single ..⟩
        intro q hq
        rw [mem_singleton.mp hq]
        exact hin
    have hcons : packed last vals (r :: rs) = packed last vals ([r] ++ rs) := rfl
    refine triple_ite (fun hop => ?_) fun hop => ?_
    · rw [if_pos hop]
      obtain ⟨-, hin, hlt, hnum⟩ := h.zext_num hhas hop
      obtain ⟨hp1, hp2⟩ := hparts hin.1
      generalize (if s.ctx.op (s.ctx.operand r 0) = .concat then s.ctx.operands (s.ctx.operand r 0)
        else [s.ctx.operand r 0]) = parts at hp1 hp2 ⊢
      rw [h.width_eq hin.1] at hlt ⊢
      rw [hhas.2]
      refine triple_bind (means_mkZero (Nat.sub_pos_of_lt hlt)) ?_
      intro zeros t _ he hz
      refine triple_bind (ih fun q hq => (hrest q hq).trans_le he.length_le) ?_
      intro rest u hu heu hrec
      refine triple_pure fun _ => ⟨?_, ?_⟩
      · intro q hq
        rcases mem_cons.mp hq with rfl | hq
        · exact (hz.1.mono heu).1
        · rcases mem_append.mp hq with hq | hq
          · exact (hp1 q hq).trans_le (he.trans heu).length_le
          · exact hrec.1 q hq
      · have hzw : last.width zeros = last.width r - last.width (s.ctx.operand r 0) :=
          (hu.width_eq (hz.1.mono heu).1).symm.trans (hz.1.mono heu).2
        have hsplit : zeros :: (parts ++ rest) = [zeros] ++ parts ++ rest := rfl
        rw [hcons, hsplit, packed_append, packed_append, packed_append, hrec.2, hp2, packed_single,
          packed_single, hzw, hz.2, hnum]
        rw [Nat.sub_add_cancel hlt.le, zero_mul, zero_add]
    · rw [if_neg hop]
      obtain ⟨hp1, hp2⟩ := hparts hr
      generalize (if s.ctx.op r = .concat then s.ctx.operands r else [r]) = parts at hp1 hp2 ⊢
      refine triple_bind (ih hrest) ?_
      intro rest u _ heu hrec
      refine triple_pure fun _ => ⟨?_, ?_⟩
      · intro q hq
        rcases mem_append.mp hq with hq | hq
        · exact (hp1 q hq).trans_le heu.length_le
        · exact hrec.1 q hq
      · rw [hcons, packed_append, packed_append, hrec.2, hp2, packed_single]

lemma sliceOf_spec (h : At last vals s) (hr : Has s r w) :
    ∃ u, Has s (s.ctx.sliceOf r).1 u ∧ (s.ctx.sliceOf r).2 + w ≤ u ∧
      last.num vals r = slice (s.ctx.sliceOf r).2 w (last.num vals (s.ctx.sliceOf r).1) := by
  unfold sliceOf
  split
  next hop =>
    obtain ⟨-, hin, hle, hnum⟩ := h.extract_num hr hop
    exact ⟨_, hin, hle, hnum⟩
  · exact ⟨w, hr, (zero_add w).le, (slice_self (h.lt hr)).symm⟩

lemma isWideningOf_spec (h : At last vals s) (ha : Has s a v) (hab : s.ctx.isWideningOf a b = true)
    {low k : Nat}
    (hk : low + k ≤ s.ctx.width b) :
    slice low k (last.num vals b) = slice low k (last.num vals a) := by
  rw [isWideningOf, Bool.and_eq_true, Bool.or_eq_true, decide_eq_true_eq, decide_eq_true_eq,
    decide_eq_true_eq] at hab
  obtain ⟨hop, rfl⟩ := hab
  rcases hop with ho | ho
  · rw [(h.zext_num ha ho).2.2.2]
  · obtain ⟨-, hin, hlt, hnum⟩ := h.sext_num ha ho
    rw [hnum]
    apply Nat.eq_of_testBit_eq
    intro i
    rw [testBit_slice, testBit_slice, testBit_sextOf (h.lt hin) hlt.le]
    by_cases hi : i < k
    · rw [if_pos (by omega)]
    · simp [hi]

lemma alignSlices_spec (hB : B.Sound last vals) (ha : Has s a v) (hr : Has s r w) :
    Triple last vals s (alignSlices B a r) fun aligned t => (∃ u, Has t aligned.1 u) ∧
        last.num vals a = slice (s.ctx.sliceOf a).2 v (last.num vals aligned.1) ∧
        last.num vals r = slice aligned.2.2 w (last.num vals aligned.2.1) := by
  apply triple_context
  intro h
  obtain ⟨u, hu, hule, hunum⟩ := sliceOf_spec h ha
  obtain ⟨l, hl, hlle, hlnum⟩ := sliceOf_spec h hr
  rw [ha.2, hr.2]
  generalize s.ctx.sliceOf a = upper at hu hule hunum ⊢
  generalize s.ctx.sliceOf r = lower at hl hlle hlnum ⊢
  have hother : ∀ other, other = (if s.ctx.isWideningOf lower.1 upper.1 = true ∧
    upper.2 + v ≤ s.ctx.width upper.1 then
      lower.1 else upper.1) → (∃ u, Has s other u) ∧
        last.num vals a = slice upper.2 v (last.num vals other) := by
    intro other ho
    subst ho
    split
    next hc => exact ⟨⟨l, hl⟩, hunum.trans (isWideningOf_spec h hl hc.1 hc.2)⟩
    · exact ⟨⟨u, hu⟩, hunum⟩
  obtain ⟨⟨x, hx⟩, honum⟩ := hother _ rfl
  refine triple_ite (fun _ => triple_pure fun _ => ⟨⟨u, hu⟩, hunum, hlnum⟩) fun _ =>
    triple_ite (fun hc => triple_pure fun _ => ⟨⟨u, hu⟩, hunum, ?_⟩) fun _ =>
    triple_ite (fun hc => ?_) fun _ => triple_pure fun _ => ⟨⟨x, hx⟩, honum, hlnum⟩
  · exact hlnum.trans (isWideningOf_spec h hu hc.1 hc.2)
  · have hm : Means last vals s (B.mkExtract upper.1 0 w) w (slice 0 w (last.num vals upper.1)) :=
      hB.mkExtract hu
    refine triple_bind hm ?_
    intro low t _ he hlow
    refine triple_ite (fun heq => triple_pure fun _ => ⟨⟨u, hu.mono he⟩, hunum, ?_⟩) fun _ =>
      triple_pure fun _ => ⟨⟨x, hx.mono he⟩, honum, hlnum⟩
    rw [heq]
    exact hlow.2

omit [BlockHash] in
lemma slice_append (low k m x : Nat) :
    slice (low + k) m x * 2 ^ k + slice low k x = slice low (k + m) x := by
  apply Nat.eq_of_testBit_eq
  intro i
  rw [mul_comm, Nat.testBit_two_pow_mul_add _ (slice_lt ..), testBit_slice low k,
    testBit_slice low (k + m), testBit_slice (low + k) m]
  by_cases hi : i < k
  · rw [if_pos hi, decide_eq_true hi, decide_eq_true (by omega)]
  · rw [if_neg hi, show low + k + (i - k) = low + i by omega]
    congr 1
    rw [decide_eq_decide]
    omega

omit [BlockHash] in
lemma toNat_join (hi lo : APInt) :
    (((hi.zextOrTrunc (hi.width + lo.width)).shl lo.width).or
      (lo.zextOrTrunc (hi.width + lo.width))).toNat = hi.toNat * 2 ^ lo.width + lo.toNat := by
  have hhi := hi.toNat_lt
  have hlo := lo.toNat_lt
  have hle : lo.toNat < 2 ^ (hi.width + lo.width) :=
    hlo.trans_le (Nat.pow_le_pow_right two_pos (Nat.le_add_left ..))
  have hhle : hi.toNat < 2 ^ (hi.width + lo.width) :=
    hhi.trans_le (Nat.pow_le_pow_right two_pos (Nat.le_add_right ..))
  have hprod : hi.toNat * 2 ^ lo.width < 2 ^ (hi.width + lo.width) := by
    rw [pow_add]
    exact Nat.mul_lt_mul_of_pos_right hhi (Nat.two_pow_pos _)
  rw [toNat_or (by rfl), toNat_shl, toNat_zextOrTrunc, toNat_zextOrTrunc, Nat.mod_eq_of_lt hle,
    Nat.mod_eq_of_lt hhle]
  show hi.toNat * 2 ^ lo.width % 2 ^ (hi.width + lo.width) ||| lo.toNat = _
  rw [Nat.mod_eq_of_lt hprod, mul_comm, Nat.two_pow_add_eq_or_of_lt hlo]

variable (hB : B.Sound last vals)
include hB

lemma joinParts_spec (ha : a < s.ctx.nodes.length) (hr : r < s.ctx.nodes.length) :
    Triple last vals s (joinParts B a r) fun o t => ∀ joined, o = some joined →
      joined < t.ctx.nodes.length ∧ packed last vals [joined] = packed last vals [a, r] := by
  apply triple_context
  intro h
  have hha := h.has_last ha
  have hhr := h.has_last hr
  have hpair : packed last vals [a, r] =
      (last.width r + last.width a, last.num vals a * 2 ^ last.width r + last.num vals r) := by
    show packed last vals ([a] ++ [r]) = _
    rw [packed_append, packed_single, packed_single, add_comm]
  have hsome : ∀ {m : Build SymRef}, ∀ t, s.ctx.Extends t.ctx →
      Means last vals t m (last.width r + last.width a) (last.num vals a * 2 ^ last.width r +
        last.num vals r) →
      Triple last vals t (some <$> m) fun o t => ∀ joined, o = some joined →
        joined < t.ctx.nodes.length ∧ packed last vals [joined] = packed last vals [a, r] := by
    intro m t _ hm
    refine triple_bind hm ?_
    intro joined u hu _ hj
    refine triple_pure fun _ q hq => ?_
    cases hq
    refine ⟨hj.1.1, ?_⟩
    rw [packed_single, hpair, ← hu.width_eq hj.1.1, hj.1.2, hj.2]
  refine triple_ite (fun hc => ?_) fun _ => ?_
  · have hcwa := h.const_width hha hc.1
    have hcwr := h.const_width hhr hc.2
    apply hsome s (.refl _)
    have hpos : 0 < (s.ctx.constValue a).width := by
      rw [hcwa]
      exact h.pos hha
    rw [h.const_num hha hc.1, h.const_num hhr hc.2, ← hcwr, ← hcwa, ← toNat_join]
    exact means_mkConst (Nat.add_pos_left hpos _) (add_comm ..) rfl
  · rw [hha.2, hhr.2]
    refine triple_bind (alignSlices_spec hB hha hhr) ?_
    intro aligned t _ he hal
    obtain ⟨⟨u, hu⟩, h1, h2⟩ := hal
    refine triple_ite (fun hc => ?_) fun _ => triple_pure fun _ _ hq => (nomatch hq)
    apply hsome t he
    refine (hB.mkExtract hu).congr ?_
    rw [h1, h2, hc.2, ← hc.1]
    exact (slice_append ..).symm

lemma mergeConcat_spec {rest merged : List SymRef}
    (hrest : ∀ r ∈ rest, r < s.ctx.nodes.length) (hmerged : ∀ r ∈ merged, r < s.ctx.nodes.length) :
    Triple last vals s (mergeConcat B rest merged) fun all t =>
        (∀ r ∈ all, r < t.ctx.nodes.length) ∧
        packed last vals all = packed last vals (merged.reverse ++ rest) := by
  induction rest generalizing s merged with
  | nil =>
    exact triple_pure fun _ => ⟨fun r hr => hmerged r (mem_reverse.mp hr), by rw [append_nil]⟩
  | cons r rest ih =>
    have hr := hrest r (mem_cons_self ..)
    have hrest' := fun q hq => hrest q (mem_cons_of_mem _ hq)
    cases merged with
    | nil =>
      refine ih hrest' ?_
      intro q hq
      rw [mem_singleton.mp hq]
      exact hr
    | cons prev before =>
      have hbefore := fun q hq => hmerged q (mem_cons_of_mem _ hq)
      refine triple_bind (joinParts_spec hB (hmerged prev (mem_cons_self ..)) hr) ?_
      intro o t _ he ho
      have hgrown := fun q hq => (hrest' q hq).trans_le he.length_le
      cases o with
      | some joined =>
        obtain ⟨hj, hpack⟩ := ho joined rfl
        refine triple_mono (ih hgrown ?_) ?_
        · intro q hq
          rcases mem_cons.mp hq with rfl | hq
          · exact hj
          · exact (hbefore q hq).trans_le he.length_le
        · intro all u _ _ hall
          refine ⟨hall.1, hall.2.trans ?_⟩
          have hleft : (joined :: before).reverse ++ rest = before.reverse ++ [joined] ++ rest := by
            simp
          have hright : (prev :: before).reverse ++ r :: rest = before.reverse ++ [prev, r] ++
              rest := by simp
          rw [hleft, hright, packed_append _ _ _ rest, packed_append _ _ _ rest, packed_append,
            packed_append, hpack]
      | none =>
        refine triple_mono (ih hgrown ?_) ?_
        · intro q hq
          rcases mem_cons.mp hq with rfl | hq
          · exact hr.trans_le he.length_le
          · exact (hmerged q hq).trans_le he.length_le
        · intro all u _ _ hall
          refine ⟨hall.1, hall.2.trans ?_⟩
          congr 1
          simp

lemma means_finishConcat {merged : List SymRef} (hmerged : ∀ r ∈ merged, r < s.ctx.nodes.length) :
    Means last vals s (finishConcat B merged)
      (packed last vals merged).1 (packed last vals merged).2 := by
  apply means_context
  intro h
  have hwidths : merged.map s.ctx.width = merged.map last.width :=
    map_congr_left fun r hr => h.width_eq (hmerged r hr)
  rw [hwidths]
  split
  · exact means_stop
  next r =>
    rw [packed_single]
    exact means_pure fun h => ⟨h.has_last (hmerged r (mem_cons_self ..)), rfl⟩
  next first rest _ =>
    have hfirst := h.has_last (hmerged first (mem_cons_self ..))
    refine means_ite (fun hz => ?_) fun _ => ?_
    · rw [isConstZero, Bool.and_eq_true] at hz
      have hsplit : packed last vals (first :: rest) = packed last vals ([first] ++ rest) := rfl
      have hzero : last.num vals first = 0 := by rw [h.const_num hfirst hz.1, toNat_of_isZero hz.2]
      refine means_bind (hB.mkConcat fun r hr => h.has_last (hmerged r (mem_cons_of_mem _ hr))) ?_
      intro low t _ _ hlow
      have hle : (rest.map last.width).sum ≤ ((first :: rest).map last.width).sum := by
        rw [map_cons, sum_cons]
        exact Nat.le_add_left ..
      refine (hB.mkZExt hlow.1 hle).congr ?_
      rw [hsplit, packed_append, packed_single, hzero, zero_mul, zero_add]
      exact hlow.2
    · have hpos : 0 < ((first :: rest).map last.width).sum := by
        rw [map_cons, sum_cons]
        exact Nat.add_pos_left (h.pos hfirst) _
      have hnode :
          Triple last vals s (.intern .concat ((first :: rest).map last.width).sum
            (first :: rest) 0)
          fun r t => Den last vals t r ((first :: rest).map last.width).sum
            (opNum .concat ((first :: rest).map last.width).sum 0
              ((first :: rest).map fun c => (s.ctx.width c, last.num vals c))) :=
        triple_intern hpos (by decide) (by decide) hmerged ⟨by simp, by rw [hwidths]⟩ fun ho => by
          cases ho
      have hpairs : (first :: rest).map (fun c => (s.ctx.width c, last.num vals c)) =
          (first :: rest).map fun c => (last.width c, last.num vals c) := by
        apply map_congr_left
        intro c hc
        rw [h.width_eq (hmerged c hc)]
      rw [hpairs] at hnode
      exact hnode

lemma means_mkConcat {ops : List SymRef} (hops : ∀ r ∈ ops, Has s r (last.width r)) :
    Means last vals s (mkConcat B ops) (ops.map last.width).sum
      (joinAll (ops.map fun r => (last.width r, last.num vals r))) := by
  show Means last vals s (mkConcat B ops) (packed last vals ops).1 (packed last vals ops).2
  unfold mkConcat
  split
  · exact means_stop
  next r =>
    rw [packed_single]
    exact means_pure fun _ => ⟨hops r (mem_cons_self ..), rfl⟩
  · refine triple_bind (flattenConcat_spec fun r hr => (hops r hr).1) ?_
    intro flat t _ _ hflat
    refine triple_bind (mergeConcat_spec hB hflat.1 (forall_mem_nil _)) ?_
    intro merged u _ _ hmerged
    have hsame : packed last vals merged = packed last vals ops := hmerged.2.trans hflat.2
    rw [← hsame]
    exact means_finishConcat hB hmerged.1

end

variable [BlockHash] {last : SymContext} {vals : List APInt} {s : SymBuilder} {w : Nat}
    {B : Builders} {c a b : SymRef}

def select (x y z : Nat) : Nat := if x = 0 then z else y

omit [BlockHash] in
lemma select_bit {x : Nat} (hx : x < 2 ^ 1) (y z : Nat) : x = 0 ∧ select x y z = z ∨ x = 1 ∧
    select x y z = y := by
  have : x = 0 ∨ x = 1 := by omega
  rcases this with rfl | rfl
  · exact .inl ⟨rfl, rfl⟩
  · exact .inr ⟨rfl, rfl⟩

lemma meansIf_selectTruth (hB : B.Sound last vals) (hc : Has s c 1) (ha : Has s a w)
    (hb : Has s b w) :
    MeansIf last vals s (selectTruth B c a b) w (select (last.num vals c) (last.num vals a)
      (last.num vals b)) := by
  apply meansIf_context
  intro h
  rw [ha.2]
  have hpos := h.pos ha
  have hsel := select_bit (h.lt hc) (last.num vals a) (last.num vals b)
  refine meansIf_ite (fun hk => ?_) fun _ => meansIf_ite (fun hk => ?_) fun _ => meansIf_none
  · obtain ⟨hca, hcb, hone, hzero⟩ := hk
    apply meansIf_some
    refine (hB.mkZExt hc hpos).congr ?_
    have h1 := (h.const_num ha hca).trans (toNat_of_isOne hone)
    have h0 := (h.const_num hb hcb).trans (toNat_of_isZero hzero)
    rcases hsel with ⟨h2, h3⟩ | ⟨h2, h3⟩
    · rw [h3, h2, h0]
    · rw [h3, h2, h1]
  · obtain ⟨hca, hcb, hzero, hone⟩ := hk
    apply meansIf_some
    refine means_bind (hB.mkNot hc) ?_
    intro inverse t _ _ hinv
    refine (hB.mkZExt hinv.1 hpos).congr ?_
    have h0 := (h.const_num ha hca).trans (toNat_of_isZero hzero)
    have h1 := (h.const_num hb hcb).trans (toNat_of_isOne hone)
    rw [hinv.2]
    rcases hsel with ⟨h2, h3⟩ | ⟨h2, h3⟩
    · rw [h3, h2, h1]
      rfl
    · rw [h3, h2, h0]
      rfl

lemma meansIf_selectBit (hB : B.Sound last vals) (hc : Has s c 1) (ha : Has s a w)
    (hb : Has s b w) :
    MeansIf last vals s (selectBit B c a b) w (select (last.num vals c) (last.num vals a)
      (last.num vals b)) := by
  apply meansIf_context
  intro h
  rw [ha.2]
  refine meansIf_ite (fun _ => meansIf_none) fun hw => ?_
  rw [not_not] at hw
  subst hw
  have hsel := select_bit (h.lt hc) (last.num vals a) (last.num vals b)
  have halt := h.lt ha
  have hblt := h.lt hb
  -- a literal that is not zero is one
  have hlit : ∀ {q : SymRef}, Has s q 1 → s.ctx.isConst q = true → ¬ s.ctx.isConstZero q = true →
      last.num vals q = 1 := by
    intro q hq hqc hz
    rw [isConstZero, hqc, Bool.true_and, APInt.isZero, decide_eq_true_eq] at hz
    have hqlt := h.lt hq
    rw [h.const_num hq hqc] at hqlt ⊢
    omega
  have hnull : ∀ {q : SymRef}, Has s q 1 → s.ctx.isConstZero q = true → last.num vals q = 0 := by
    intro q hq hz
    rw [isConstZero, Bool.and_eq_true] at hz
    rw [h.const_num hq hz.1, toNat_of_isZero hz.2]
  refine meansIf_ite (fun hca => ?_) fun _ => meansIf_ite (fun hcb => ?_) fun _ => meansIf_none
  · apply meansIf_some
    refine means_ite (fun hz => ?_) fun hz => ?_
    · refine means_bind (hB.mkNot hc) ?_
      intro inverse t _ he hinv
      refine (hB.mkAnd (has_pair hinv.1 (hb.mono he))).congr ?_
      simp only [map_cons, map_nil, andAll_cons, andAll_nil]
      rw [and_ones hblt, hinv.2]
      rcases hsel with ⟨h2, h3⟩ | ⟨h2, h3⟩
      · rw [h3, h2, Nat.and_comm]
        exact and_ones hblt
      · rw [h3, h2, hnull ha hz]
        exact Nat.zero_and _
    · refine (hB.mkOr (has_pair hc hb)).congr ?_
      simp only [map_cons, map_nil, orAll_cons, orAll_nil, Nat.or_zero]
      rcases hsel with ⟨h2, h3⟩ | ⟨h2, h3⟩
      · rw [h3, h2, Nat.zero_or]
      · rw [h3, h2, hlit ha hca hz]
        have : last.num vals b = 0 ∨ last.num vals b = 1 := by omega
        rcases this with h4 | h4
        · rw [h4]
          rfl
        · rw [h4]
          rfl
  · apply meansIf_some
    refine means_ite (fun hz => ?_) fun hz => ?_
    · refine (hB.mkAnd (has_pair hc ha)).congr ?_
      simp only [map_cons, map_nil, andAll_cons, andAll_nil]
      rw [and_ones halt]
      rcases hsel with ⟨h2, h3⟩ | ⟨h2, h3⟩
      · rw [h3, h2, hnull hb hz]
        exact Nat.zero_and _
      · rw [h3, h2, Nat.and_comm]
        exact and_ones halt
    · refine means_bind (hB.mkNot hc) ?_
      intro inverse t _ he hinv
      refine (hB.mkOr (has_pair hinv.1 (ha.mono he))).congr ?_
      simp only [map_cons, map_nil, orAll_cons, orAll_nil, Nat.or_zero]
      rw [hinv.2]
      rcases hsel with ⟨h2, h3⟩ | ⟨h2, h3⟩
      · rw [h3, h2, hlit hb hcb hz]
        have : last.num vals a = 0 ∨ last.num vals a = 1 := by omega
        rcases this with h4 | h4
        · rw [h4]
          rfl
        · rw [h4]
          rfl
      · rw [h3, h2]
        exact Nat.zero_or _

lemma narrowArm_spec {narrow : Nat} (ha : Has s a w) (hn : 0 < narrow) :
    MeansIf last vals s (narrowArm narrow a) narrow (last.num vals a) := by
  apply meansIf_context
  intro h
  refine meansIf_ite (fun hk => ?_) fun _ => meansIf_ite (fun hk => ?_) fun _ => meansIf_none
  · obtain ⟨-, hin, -, hnum⟩ := h.zext_num ha hk.1
    rw [hk.2] at hin
    refine triple_pure fun _ q hq => ?_
    cases hq
    exact ⟨hin, hnum.symm⟩
  · apply meansIf_some
    refine means_mkConst (c := (s.ctx.constValue a).zextOrTrunc narrow) hn rfl ?_
    rw [toNat_zextOrTrunc, h.const_num ha hk.1,
      Nat.mod_eq_of_lt (APInt.toNat_lt_of_activeBits hk.2)]

lemma meansIf_selectNarrow (hB : B.Sound last vals) (hc : Has s c 1) (ha : Has s a w)
    (hb : Has s b w) :
    MeansIf last vals s (selectNarrow B c a b) w (select (last.num vals c) (last.num vals a)
      (last.num vals b)) := by
  apply meansIf_context
  intro h
  refine meansIf_ite (fun hop => ?_) fun _ => meansIf_none
  have hnarrow : 0 < s.ctx.width (s.ctx.operand (if s.ctx.op a = .zext then a else b) 0) ∧
      s.ctx.width (s.ctx.operand (if s.ctx.op a = .zext then a else b) 0) < w := by
    split
    next ho =>
      obtain ⟨-, hin, hlt, -⟩ := h.zext_num ha ho
      exact ⟨h.pos hin, hlt⟩
    next ho =>
      obtain ⟨-, hin, hlt, -⟩ := h.zext_num hb (hop.resolve_left ho)
      exact ⟨h.pos hin, hlt⟩
  generalize s.ctx.width (s.ctx.operand (if s.ctx.op a = .zext then a else b) 0) =
    narrow at hnarrow ⊢
  refine triple_bind (narrowArm_spec ha hnarrow.1) ?_
  intro yes t _ he hyes
  refine triple_bind (narrowArm_spec (hb.mono he) hnarrow.1) ?_
  intro no u _ heu hno
  split
  next y n =>
    have hy := (hyes y rfl).mono heu
    have hn := hno n rfl
    apply meansIf_some
    refine means_bind (hB.mkIte ((hc.mono he).mono heu) hy.1 hn.1) ?_
    intro selected x _ _ hsel
    rw [ha.2]
    refine (hB.mkZExt hsel.1 hnarrow.2.le).congr ?_
    rw [hsel.2, hy.2, hn.2]
    rfl
  · exact meansIf_none

lemma means_mkIte (hB : B.Sound last vals) (hc : Has s c 1) (ha : Has s a w) (hb : Has s b w) :
    Means last vals s (mkIte B c a b) w (if last.num vals c = 0 then last.num vals b
      else last.num vals a) := by
  apply means_context
  intro h
  rw [ha.2]
  refine means_ite (fun hk => ?_) fun _ => means_ite (fun heq => ?_) fun hne => ?_
  · rw [h.const_num hc hk]
    refine means_pure fun _ => ?_
    rw [APInt.isZero]
    by_cases hz : (s.ctx.constValue c).toNat = 0
    · rw [if_pos (decide_eq_true hz), if_pos hz]
      exact ⟨hb, rfl⟩
    · rw [if_neg (by simp [hz]), if_neg hz]
      exact ⟨ha, rfl⟩
  · subst heq
    rw [ite_self]
    exact means_pure fun _ => ⟨ha, rfl⟩
  · refine means_orElse (meansIf_selectTruth hB hc ha hb) ?_
    intro t _ he
    refine means_orElse (meansIf_selectBit hB (hc.mono he) (ha.mono he) (hb.mono he)) ?_
    intro u _ heu
    have hall := he.trans heu
    refine means_orElse (meansIf_selectNarrow hB (hc.mono hall) (ha.mono hall) (hb.mono hall)) ?_
    intro x hx hex
    have hend := hall.trans hex
    have hnode : Triple last vals x (.intern .ite w [c, a, b] 0) fun r t => Den last vals t r w
        (opNum .ite w 0 ([c, a, b].map fun q => (x.ctx.width q, last.num vals q))) := by
      refine triple_intern (h.pos ha) (by decide) (by decide) ?_ ?_ fun _ => hne
      · intro q hq
        simp only [mem_cons, not_mem_nil, or_false] at hq
        rcases hq with rfl | rfl | rfl
        · exact (hc.mono hend).1
        · exact (ha.mono hend).1
        · exact (hb.mono hend).1
      · show [x.ctx.width c, x.ctx.width a, x.ctx.width b] = [1, w, w]
        rw [(hc.mono hend).2, (ha.mono hend).2, (hb.mono hend).2]
    exact hnode

end NeverD.Sym
