import NeverD.Sym.Shift

namespace NeverD.Sym
open Lib
open Words List

variable {x : Nat} {op : SymOp}

def projects (op : SymOp) : Bool := op = .add || op = .mul || isBitwise op

/-- The factors of a product below a carrier width: a power of two, and narrow words with
the zeros below them. -/
structure NarrowProduct where
  shift : Nat := 0
  required : Nat := 0
  sources : List (SymRef × Nat) := []

namespace SymContext

variable (ctx : SymContext)

/-- A power of two moves out of an extension when the product inside cannot wrap. -/
def unscaledSource (source : SymRef) : Nat × SymRef :=
  let coefficient := ctx.constValue (ctx.operand source 0)
  let extended := ctx.operand source 1
  let inner := ctx.operand extended 0
  if ctx.isScaled source && coefficient.isPowerOf2 && ctx.op extended = .zext &&
      ctx.width inner ≤ ctx.width source - coefficient.countrZero then
      (coefficient.countrZero, inner)
  else (0, source)

def zeroTail (source : SymRef) : Nat :=
  let tail := (ctx.operands source).getLastD 0
  if ctx.op source = .concat && ctx.isConstZero tail then ctx.width tail else 0

def collectNarrow (carrier low : Nat) : List SymRef → NarrowProduct → Option NarrowProduct
  | [], parts => some parts
  | factor :: rest, parts =>
    if ctx.isConst factor then
      let coefficient := ctx.constValue factor
      if !coefficient.isPowerOf2 ∨ low - parts.shift < coefficient.countrZero then none
      else collectNarrow carrier low rest { parts with
          shift := parts.shift + coefficient.countrZero }
    else if ctx.op factor ≠ .zext then none
    else
      let unscaled := ctx.unscaledSource (ctx.operand factor 0)
      let shift := parts.shift + unscaled.1
      let source := unscaled.2
      let dropLow := ctx.zeroTail source
      let kept := ctx.width source - dropLow
      if low - parts.shift < unscaled.1 ∨ low - shift < dropLow ∨
        carrier - parts.required ≤ kept then none
      else collectNarrow carrier low rest ⟨shift + dropLow, parts.required + kept,
        parts.sources ++ [(source, dropLow)]⟩

def sliceOf (r : SymRef) : SymRef × Nat :=
  if ctx.op r = .extract then (ctx.operand r 0, ctx.aux r) else (r, 0)

def isWideningOf (wide narrow : SymRef) : Bool :=
  (ctx.op wide = .zext || ctx.op wide = .sext) && ctx.operand wide 0 = narrow

end SymContext

section

variable [BlockHash] [ProjectionHash] (n : Nat) (B : Builders)

omit [ProjectionHash] in
def mkZExt (a : SymRef) (w : Nat) : Build SymRef := do
  let ctx ← Build.context
  if w < ctx.width a then Build.stop
  else if w = ctx.width a then pure a
  else if ctx.isConst a then Build.mkConst ((ctx.constValue a).zextOrTrunc w)
  else if ctx.op a = .zext then B.mkZExt (ctx.operand a 0) w
  else Build.intern .zext w [a] 0

omit [ProjectionHash] in
def mkSExt (a : SymRef) (w : Nat) : Build SymRef := do
  let ctx ← Build.context
  if w < ctx.width a then Build.stop
  else if w = ctx.width a then pure a
  else if ctx.isConst a then Build.mkConst ((ctx.constValue a).sext w)
  else if ctx.op a = .sext then B.mkSExt (ctx.operand a 0) w
  else Build.intern .sext w [a] 0

omit [ProjectionHash] in
/-- The top bit is a comparison of signs. -/
def signSlice (a : SymRef) (low w : Nat) : Build (Option SymRef) := do
  let ctx ← Build.context
  if w = 1 ∧ low = ctx.width a - 1 then recoverSignComparison B a else pure none

omit [ProjectionHash] in
def commonWindow (a : SymRef) (low w : Nat) : Build (Option SymRef) := do
  let ctx ← Build.context
  match ctx.constantWindow a low w with
  | some value => if ctx.op a = .ite then some <$> Build.mkConst value else pure none
  | none => pure none

omit [BlockHash] in
def cachedProjection (op : SymOp) (r : SymRef) (w : Nat) : Build (Option SymRef) :=
  if projects op then findLowWordProjection r w else pure none

omit [ProjectionHash] in
def widenTo (op : SymOp) (inner : SymRef) (w : Nat) : Build SymRef :=
  if op = .zext then B.mkZExt inner w else B.mkSExt inner w

omit [ProjectionHash] in
def projectNode (op : SymOp) (children : List SymRef) : Build SymRef :=
  match op with
  | .add => B.mkAdd children
  | .mul => B.mkMul children
  | .and => B.mkAnd children
  | .or => B.mkOr children
  | .xor => B.mkXor children
  | .not => B.mkNot (children.getD 0 0)
  | _ => pure (children.getD 0 0)

omit [BlockHash] in
def retainProjection (op : SymOp) (current : SymRef) (w : Nat) (result : SymRef) : Build Unit :=
  if projects op then retainLowWordProjection current w result else pure ()

/-- Project every node once, bottom-up. -/
def projectLoop (w : Nat) : Nat → List (SymRef × Bool) → List (SymRef × SymRef) →
    Build (List (SymRef × SymRef))
  | _, [], done => pure done
  | 0, _ :: _, _ => Build.stop
  | n + 1, (current, expanded) :: work, done => do
    let ctx ← Build.context
    let op := ctx.op current
    let inner := ctx.operand current 0
    let widen := op = .zext ∨ op = .sext
    if (done.lookup current).isSome then projectLoop w n work done
    else if ctx.width current = w then projectLoop w n work ((current, current) :: done)
    else do
      match ← cachedProjection op current w with
      | some image => projectLoop w n work ((current, image) :: done)
      | none =>
        if widen ∧ ctx.width inner < w then do
          let result ← widenTo B op inner w
          projectLoop w n work ((current, result) :: done)
        else if ¬ projects op ∧ ¬ widen then do
          let result ← B.mkExtract current 0 w
          projectLoop w n work ((current, result) :: done)
        else if !expanded then
          let pending := (ctx.operands current).filter fun child => (done.lookup child).isNone
          projectLoop w n ((pending.reverse.map fun child => (child, false)) ++ (current, true) ::
            work) done
        else do
          let children ← Build.ofOption ((ctx.operands current).mapM fun child => done.lookup child)
          let result ← projectNode B op children
          retainProjection op current w result
          projectLoop w n work ((current, result) :: done)

def projectLow (a : SymRef) (w : Nat) : Build SymRef := do
  match ← findLowWordProjection a w with
  | some image => pure image
  | none =>
    let done ← projectLoop B w n [(a, false)] []
    Build.ofOption (done.lookup a)

omit [ProjectionHash] in
def narrowFactor (required : Nat) (part : SymRef × Nat) : Build SymRef := do
  let ctx ← Build.context
  let word ← B.mkExtract part.1 part.2 (ctx.width part.1 - part.2)
  B.mkZExt word required

omit [ProjectionHash] in
/-- A window of a product of narrow words, computed before they are extended. -/
def narrowUnsignedProductSlice (product : SymRef) (low w : Nat) : Build (Option SymRef) := do
  let ctx ← Build.context
  if ctx.op product ≠ .mul then pure none
  else
    match ctx.collectNarrow (ctx.width product) low (ctx.operands product) {} with
    | none => pure none
    | some parts =>
      let start := low - parts.shift
      if parts.sources = [] then pure none
      else if parts.required ≤ start then some <$> Build.mkZero w
      else
        some <$> do
          let factors ← Build.each (narrowFactor B parts.required) parts.sources
          let narrow ← B.mkMul factors
          let window ← B.mkExtract narrow start (min w (parts.required - start))
          B.mkZExt window w

omit [ProjectionHash] in
def slicedParts (low w : Nat) : List SymRef → Nat → Build (List SymRef)
  | [], _ => pure []
  | part :: rest, partLow => do
    let ctx ← Build.context
    let partHigh := partLow + ctx.width part
    let overlapLow := max low partLow
    let overlapHigh := min (low + w) partHigh
    if overlapLow < overlapHigh then do
      let kept ← B.mkExtract part (overlapLow - partLow) (overlapHigh - overlapLow)
      let others ← slicedParts low w rest partHigh
      pure (kept :: others)
    else slicedParts low w rest partHigh

omit [ProjectionHash] in
def sliceParts (a : SymRef) (low w : Nat) : Build SymRef := do
  let ctx ← Build.context
  if ctx.op a = .concat then do
    let kept ← slicedParts B low w (ctx.operands a).reverse 0
    if kept = [] then Build.intern .extract w [a] low else B.mkConcat kept.reverse
  else Build.intern .extract w [a] low

def rewriteExtract (a : SymRef) (low w : Nat) : Build SymRef := do
  let ctx ← Build.context
  let inner := ctx.operand a 0
  if ctx.op a = .extract then B.mkExtract inner (ctx.aux a + low) w
  else if (ctx.op a = .zext ∨ ctx.op a = .sext) ∧ low = 0 ∧
    w ≤ ctx.width inner then B.mkExtract inner 0 w
  else if low = 0 ∧ projects (ctx.op a) then projectLow n B a w
  else (narrowUnsignedProductSlice B a low w).orElse (sliceParts B a low w)

def mkExtract (a : SymRef) (low w : Nat) : Build SymRef := do
  let ctx ← Build.context
  if w = 0 ∨ ctx.width a < low + w then Build.stop
  else if low = 0 ∧ w = ctx.width a then pure a
  else if ctx.isConst a then Build.mkConst ((ctx.constValue a).extractBits w low)
  else
    (signSlice B a low w).orElse <|
    (commonWindow a low w).orElse <|
    rewriteExtract n B a low w

end

section

variable [BlockHash] {last : SymContext} {vals : List APInt} {s : SymBuilder} {v w : Nat}
    {B : Builders} {a : SymRef}

omit [BlockHash] in
lemma sextOf_sextOf {u : Nat} (hx : x < 2 ^ u) (huv : u < v) (hvw : v ≤ w) :
    sextOf v w (sextOf u v x) = sextOf u w x := by
  have hlt := sextOf_lt hx huv.le
  have hmsb : msb v (sextOf u v x) = msb u x := by
    rw [msb, testBit_sextOf hx huv.le, if_neg (by omega), decide_eq_true (by omega), Bool.true_and]
  apply eq_of_bits (sextOf_lt hlt hvw) (sextOf_lt hx (huv.le.trans hvw))
  intro i hi
  rw [testBit_sextOf hlt hvw, testBit_sextOf hx (huv.le.trans hvw), testBit_sextOf hx huv.le, hmsb]
  by_cases h1 : i < u
  · rw [if_pos (h1.trans huv), if_pos h1, if_pos h1]
  · rw [if_neg h1, if_neg h1]
    split
    next h2 => rw [decide_eq_true h2, decide_eq_true hi]
    · rfl

lemma means_mkZExt (hB : B.Sound last vals) (ha : Has s a v) :
    Means last vals s (mkZExt B a w) w (last.num vals a) := by
  apply means_context
  intro h
  rw [ha.2]
  refine means_ite (fun _ => means_stop) fun hle => means_ite (fun heq => ?_) fun hne =>
    means_ite (fun hc => ?_) fun _ => means_ite (fun hop => ?_) fun _ => ?_
  · subst heq
    exact means_pure fun _ => ⟨ha, rfl⟩
  · refine means_mkConst (c := (s.ctx.constValue a).zextOrTrunc w)
      ((h.pos ha).trans_le (not_lt.mp hle)) rfl ?_
    have hlt := (h.lt ha).trans_le (Nat.pow_le_pow_right two_pos (not_lt.mp hle))
    rw [toNat_zextOrTrunc, ← h.const_num ha hc, Nat.mod_eq_of_lt hlt]
  · obtain ⟨-, hin, hlt, hnum⟩ := h.zext_num ha hop
    rw [hnum]
    exact hB.mkZExt hin (hlt.le.trans (not_lt.mp hle))
  · exact means_unary ((h.pos ha).trans_le (not_lt.mp hle)) ⟨by decide, by decide⟩ ha ⟨v,
      rfl, by omega⟩

lemma means_mkSExt (hB : B.Sound last vals) (ha : Has s a v) :
    Means last vals s (mkSExt B a w) w (sextOf v w (last.num vals a)) := by
  apply means_context
  intro h
  rw [ha.2]
  refine means_ite (fun _ => means_stop) fun hle => means_ite (fun heq => ?_) fun hne =>
    means_ite (fun hc => ?_) fun _ => means_ite (fun hop => ?_) fun _ => ?_
  · subst heq
    refine means_pure fun _ => ⟨ha, ?_⟩
    unfold sextOf
    split
    · rw [Nat.sub_self, Nat.add_zero]
    · rfl
  · have hcw := h.const_width ha hc
    refine means_mkConst (c := (s.ctx.constValue a).sext w) ((h.pos ha).trans_le (not_lt.mp hle))
      rfl ?_
    rw [toNat_sext _ _ (hcw ▸ not_lt.mp hle), hcw, ← h.const_num ha hc]
  · obtain ⟨-, hin, hlt, hnum⟩ := h.sext_num ha hop
    rw [hnum, sextOf_sextOf (h.lt hin) hlt (not_lt.mp hle)]
    exact hB.mkSExt hin (hlt.le.trans (not_lt.mp hle))
  · exact means_unary ((h.pos ha).trans_le (not_lt.mp hle)) ⟨by decide, by decide⟩ ha ⟨v,
      rfl, by omega⟩

end

section

variable [BlockHash] [ProjectionHash] {last : SymContext} {vals : List APInt} {s : SymBuilder}
  {v w : Nat} {B : Builders} {a : SymRef}

omit [BlockHash] [ProjectionHash] in
lemma combine_mod (hop : isNary op = true) (h : w ≤ v) (xs : List Nat) :
    combine op w (xs.map fun x => x % 2 ^ w) = combine op v xs % 2 ^ w := by
  have hdvd : 2 ^ w ∣ 2 ^ v := pow_dvd_pow 2 h
  have hslice : (fun x => x % 2 ^ w) = slice 0 w := by
    funext x
    exact slice_zero.symm
  simp only [isNary, decide_eq_true_eq] at hop
  rcases hop with rfl | rfl | rfl | rfl | rfl
  · show addAll w _ = addAll v _ % _
    rw [addAll, addAll, ← sum_nat_mod, Nat.mod_mod_of_dvd _ hdvd]
  · show mulAll w _ = mulAll v _ % _
    rw [mulAll, mulAll, ← prod_nat_mod, Nat.mod_mod_of_dvd _ hdvd]
  · rw [← slice_zero, hslice]
    exact (slice_andAll xs (by omega)).symm
  · rw [← slice_zero, hslice]
    exact (slice_orAll xs).symm
  · rw [← slice_zero, hslice]
    exact (slice_xorAll xs).symm

omit [BlockHash] [ProjectionHash] in
lemma sextOf_mod_low (hx : x < 2 ^ v) {u : Nat} (hvu : v ≤ u) (hw : w ≤ v) :
    sextOf v u x % 2 ^ w = x % 2 ^ w := by
  apply Nat.eq_of_testBit_eq
  intro i
  rw [Nat.testBit_mod_two_pow, Nat.testBit_mod_two_pow, testBit_sextOf hx hvu]
  by_cases hi : i < w
  · rw [if_pos (hi.trans_le hw)]
  · simp [hi]

omit [BlockHash] [ProjectionHash] in
lemma isNary_of_projects (h : projects op = true) (hnot : op ≠ .not) : isNary op = true := by
  cases op with
  | not => exact absurd rfl hnot
  | add | mul | and | or | xor => rfl
  | _ => exact absurd h (by decide)

omit [ProjectionHash] in
lemma means_widenTo (hB : B.Sound last vals) {inner : SymRef} (ha : Has s a v)
    (hop : s.ctx.op a = .zext ∨ s.ctx.op a = .sext) (hinner : s.ctx.operand a 0 = inner)
    (hlt : s.ctx.width inner < w)
    (hw : w ≤ v) :
    Means last vals s (widenTo B (s.ctx.op a) inner w) w (last.num vals a % 2 ^ w) := by
  subst hinner
  apply means_of_at
  intro h
  refine means_ite (fun hz => ?_) fun hz => ?_
  · obtain ⟨-, hin, -, hnum⟩ := h.zext_num ha hz
    refine (hB.mkZExt hin hlt.le).congr ?_
    rw [hnum, Nat.mod_eq_of_lt ((h.lt hin).trans (Nat.pow_lt_pow_right one_lt_two hlt))]
  · obtain ⟨-, hin, -, hnum⟩ := h.sext_num ha (hop.resolve_left hz)
    refine (hB.mkSExt hin hlt.le).congr ?_
    have hx := h.lt hin
    rw [hnum]
    apply eq_of_bits (sextOf_lt hx hlt.le) (Nat.mod_lt _ (Nat.two_pow_pos w))
    intro i hi
    rw [Nat.testBit_mod_two_pow, testBit_sextOf hx hlt.le, testBit_sextOf hx (hlt.le.trans hw),
      decide_eq_true hi, decide_eq_true (hi.trans_le hw), Bool.true_and]
    rfl

omit [ProjectionHash] in
lemma means_projectNode (hB : B.Sound last vals) {t : SymBuilder} (h : At last vals t)
    (ha : Has t a v) (hw : w ≤ v) (hop : projects (t.ctx.op a) = true ∨
      (t.ctx.op a = .zext ∨ t.ctx.op a = .sext) ∧ w ≤ t.ctx.width (t.ctx.operand a 0))
    {children : List SymRef} (hc : ∀ c ∈ children, Has t c w)
    (hnums : children.map (last.num vals) = (t.ctx.operands a).map fun c =>
    last.num vals c % 2 ^ w) :
    Means last vals t (projectNode B (t.ctx.op a) children) w (last.num vals a % 2 ^ w) := by
  by_cases hn : isNary (t.ctx.op a) = true
  · obtain ⟨-, hnum⟩ := h.nary_num ha hn
    have hvalue : combine (t.ctx.op a) w (children.map (last.num vals)) =
        last.num vals a % 2 ^ w := by
      rw [hnum, ← combine_mod hn hw, hnums, map_map]
      rfl
    rw [← hvalue]
    simp only [isNary, decide_eq_true_eq] at hn
    rcases hn with ho | ho | ho | ho | ho
    · rw [ho]
      exact hB.mkAdd hc
    · rw [ho]
      exact hB.mkMul hc
    · rw [ho]
      exact hB.mkAnd hc
    · rw [ho]
      exact hB.mkOr hc
    · rw [ho]
      exact hB.mkXor hc
  · -- a complement or an extension has one operand
    have hone : ∀ c, t.ctx.operands a = [c] → ∃ q, children = [q] ∧
        last.num vals q = last.num vals c % 2 ^ w := by
      intro c hops
      rw [hops] at hnums
      obtain ⟨q, qs, rfl⟩ : ∃ q qs, children = q :: qs := by
        cases children with
        | nil => cases hnums
        | cons q qs => exact ⟨q, qs, rfl⟩
      simp only [map_cons, map_nil, List.cons.injEq, map_eq_nil_iff] at hnums
      exact ⟨q, by rw [hnums.2], hnums.1⟩
    rcases hop with hop | ⟨hop, hin⟩
    · have hnot : t.ctx.op a = .not := by
        by_contra hnot
        exact hn (isNary_of_projects hop hnot)
      obtain ⟨hin, hnum⟩ := h.not_num ha hnot
      have hs := h.shape ha
      rw [hnot] at hs
      obtain ⟨q, rfl, hq⟩ := hone _ (h.one ha hs).1
      rw [hnot]
      refine (hB.mkNot (hc q (mem_singleton_self _))).congr ?_
      rw [hq, hnum, ← slice_zero, ← slice_zero, slice_notOf (h.lt hin) (by omega)]
    · rcases hop with ho | ho
      · obtain ⟨hops, -, -, hnum⟩ := h.zext_num ha ho
        obtain ⟨q, rfl, hq⟩ := hone _ hops
        rw [ho]
        refine means_pure fun _ => ⟨hc q (mem_singleton_self _), ?_⟩
        rw [hnum]
        exact hq
      · obtain ⟨hops, hino, hlt, hnum⟩ := h.sext_num ha ho
        obtain ⟨q, rfl, hq⟩ := hone _ hops
        rw [ho]
        refine means_pure fun _ => ⟨hc q (mem_singleton_self _), ?_⟩
        rw [hnum, sextOf_mod_low (h.lt hino) hlt.le hin]
        exact hq

def DoneOk (last : SymContext) (vals : List APInt) (w : Nat) (done : List (SymRef × SymRef))
    (t : SymBuilder) : Prop :=
  ∀ p ∈ done, Den last vals t p.2 w (last.num vals p.1 % 2 ^ w)

variable {done : List (SymRef × SymRef)}

omit [BlockHash] [ProjectionHash] in
lemma DoneOk.mono (h : DoneOk last vals w done s) {t : SymBuilder}
    (he : s.ctx.Extends t.ctx) : DoneOk last vals w done t := fun p hp => (h p hp).mono he

omit [BlockHash] [ProjectionHash] in
lemma DoneOk.cons {done : List (SymRef × SymRef)} (h : DoneOk last vals w done s) {r : SymRef}
    (hr : Den last vals s r w (last.num vals a % 2 ^ w)) :
    DoneOk last vals w ((a, r) :: done) s := by
  intro p hp
  rcases mem_cons.mp hp with rfl | hp
  · exact hr
  · exact h p hp

omit [BlockHash] [ProjectionHash] in
lemma DoneOk.children (h : DoneOk last vals w done s) {rs children : List SymRef}
    (hc : rs.mapM (fun r => done.lookup r) = some children) : (∀ c ∈ children, Has s c w) ∧
      children.map (last.num vals) = rs.map fun r => last.num vals r % 2 ^ w := by
  have hall := mapM_forall₂ hc
  clear hc
  induction hall with
  | nil => exact ⟨forall_mem_nil _, rfl⟩
  | cons hx _ ih =>
    obtain ⟨h1, h2⟩ := h _ (mem_of_lookup hx)
    constructor
    · intro c hcm
      rcases mem_cons.mp hcm with rfl | hcm
      · exact h1
      · exact ih.1 c hcm
    · rw [map_cons, map_cons, ih.2, h2]

lemma cachedProjection_spec : Triple last vals s (cachedProjection op a w) fun o t =>
    ∀ image, o = some image → Den last vals t image w (last.num vals a % 2 ^ w) :=
  triple_ite (fun _ => triple_findLowWordProjection) fun _ => triple_pure fun _ _ h => (nomatch h)

lemma retainProjection_spec {r : SymRef} (ha : a < s.ctx.nodes.length)
    (hr : Den last vals s r w (last.num vals a % 2 ^ w)) :
    Triple last vals s (retainProjection op a w r) fun _ t => s.ctx.Extends t.ctx :=
  triple_ite (fun _ => triple_retainLowWordProjection ha hr) fun _ => triple_pure fun _ => .refl _

omit [ProjectionHash] in
lemma operand_wide (h : At last vals s) (ha : Has s a v) (hw : w ≤ v)
      (hop : projects (s.ctx.op a) = true ∨
      (s.ctx.op a = .zext ∨ s.ctx.op a = .sext) ∧ w ≤ s.ctx.width (s.ctx.operand a 0))
    {c : SymRef} (hc : c ∈ s.ctx.operands a) : w ≤ s.ctx.width c := by
  rcases hop with hop | ⟨hop, hin⟩
  · by_cases hnot : s.ctx.op a = .not
    · have hs := h.shape ha
      rw [hnot] at hs
      obtain ⟨hops, h0⟩ := h.one ha hs
      rw [hops] at hc
      rw [mem_singleton.mp hc, h0.2]
      exact hw
    · rw [((h.nary_num ha (isNary_of_projects hop hnot)).1 c hc).2]
      exact hw
  · have hops : s.ctx.operands a = [s.ctx.operand a 0] := by
      rcases hop with ho | ho
      · exact (h.zext_num ha ho).1
      · exact (h.sext_num ha ho).1
    rw [hops] at hc
    rw [mem_singleton.mp hc]
    exact hin

omit [BlockHash] [ProjectionHash] in
lemma or_of_not_narrow {p q : Prop} (h1 : ¬ (q ∧ x < w)) (h2 : ¬ (¬ p ∧ ¬ q)) : p ∨ q ∧ w ≤ x := by
  by_cases hp : p
  · exact .inl hp
  · have hq : q := by_contra fun hq => h2 ⟨hp, hq⟩
    exact .inr ⟨hq, not_lt.mp fun hx => h1 ⟨hq, hx⟩⟩

theorem projectLoop_spec (hB : B.Sound last vals) {n : Nat} {work : List (SymRef × Bool)}
    (hwork : ∀ p ∈ work, p.1 < s.ctx.nodes.length ∧ w ≤ s.ctx.width p.1)
    (hdone : DoneOk last vals w done s) :
    Triple last vals s (projectLoop B w n work done) fun done t => DoneOk last vals w done t := by
  induction n generalizing s work done with
  | zero =>
    cases work with
    | nil =>
      exact triple_pure fun _ => hdone
    | cons p work =>
      exact triple_stop
  | succ n ih =>
    cases work with
    | nil =>
      exact triple_pure fun _ => hdone
    | cons p work =>
      obtain ⟨current, expanded⟩ := p
      obtain ⟨hcur, hwide⟩ := hwork _ (mem_cons_self ..)
      have hrest : ∀ p ∈ work, p.1 < s.ctx.nodes.length ∧ w ≤ s.ctx.width p.1 := fun p hp =>
        hwork p (mem_cons_of_mem _ hp)
      have hgrown : ∀ {t : SymBuilder}, s.ctx.Extends t.ctx → ∀ p ∈ work,
          p.1 < t.ctx.nodes.length ∧ w ≤ t.ctx.width p.1 := fun he p hp =>
        ⟨(hrest p hp).1.trans_le he.length_le, (he.width (hrest p hp).1).symm ▸ (hrest p hp).2⟩
      have hhas : Has s current (s.ctx.width current) := ⟨hcur, rfl⟩
      apply triple_context
      intro h
      refine triple_ite (fun _ => ih hrest hdone) fun _ => triple_ite (fun heq => ?_) fun _ => ?_
      · refine ih hrest (hdone.cons ⟨⟨hcur, heq⟩, ?_⟩)
        have hlt := h.lt hhas
        rw [heq] at hlt
        rw [Nat.mod_eq_of_lt hlt]
      refine triple_bind cachedProjection_spec ?_
      intro o t _ he ho
      cases o with
      | some image => exact ih (hgrown he) ((hdone.mono he).cons (ho image rfl))
      | none =>
        have hcurt : current < t.ctx.nodes.length := hcur.trans_le he.length_le
        have hwt : t.ctx.width current = s.ctx.width current := he.width hcur
        have hopt : t.ctx.op current = s.ctx.op current := he.op hcur
        have hopst : t.ctx.operands current = s.ctx.operands current :=
          h.typed.operands_extend he hcur
        have hinner : t.ctx.operand current 0 = s.ctx.operand current 0 := by
          rw [SymContext.operand, hopst]
          rfl
        have hinlt : s.ctx.op current = .zext ∨ s.ctx.op current = .sext →
            s.ctx.operand current 0 < s.ctx.nodes.length := by
          rintro (ho | ho)
          · exact ((h.zext_num hhas ho).2.1).1
          · exact ((h.sext_num hhas ho).2.1).1
        refine triple_ite (fun hwiden => ?_) fun hwiden => triple_ite (fun _ => ?_) fun hkind =>
          triple_ite (fun _ => ?_) fun _ => ?_
        · have hm : Means last vals t (widenTo B (s.ctx.op current) (s.ctx.operand current 0) w) w
              (last.num vals current % 2 ^ w) := by
            rw [← hopt]
            refine means_widenTo hB (hhas.mono he) ?_ hinner ?_ hwide
            · rw [hopt]
              exact hwiden.1
            · rw [he.width (hinlt hwiden.1)]
              exact hwiden.2
          refine triple_bind hm ?_
          intro result u _ heu hres
          exact ih (hgrown (he.trans heu)) ((hdone.mono (he.trans heu)).cons hres)
        · have hm : Means last vals t (B.mkExtract current 0 w) w
              (last.num vals current % 2 ^ w) := by
            rw [← slice_zero]
            exact hB.mkExtract (hhas.mono he)
          refine triple_bind hm ?_
          intro result u _ heu hres
          exact ih (hgrown (he.trans heu)) ((hdone.mono (he.trans heu)).cons hres)
        · refine ih ?_ (hdone.mono he)
          intro p hp
          rcases mem_append.mp hp with hp | hp
          · obtain ⟨c, hc, rfl⟩ := mem_map.mp hp
            have hcm := (mem_filter.mp (mem_reverse.mp hc)).1
            have hclt := h.typed.operand_lt hcur hcm
            refine ⟨hclt.trans_le he.length_le, ?_⟩
            rw [he.width hclt]
            exact operand_wide h hhas hwide (or_of_not_narrow hwiden hkind) hcm
          · rcases mem_cons.mp hp with rfl | hp
            · exact ⟨hcurt, hwt.symm ▸ hwide⟩
            · exact hgrown he p hp
        · apply triple_ofOption
          intro children hch
          obtain ⟨hc1, hc2⟩ := (hdone.mono he).children hch
          have hm : Means last vals t (projectNode B (s.ctx.op current) children) w
              (last.num vals current % 2 ^ w) := by
            apply means_of_at
            intro ht
            rw [← hopt]
            refine means_projectNode hB ht (hhas.mono he) hwide ?_ hc1 ?_
            · rw [hopt, hinner]
              refine (or_of_not_narrow hwiden hkind).imp_right fun hx => ⟨hx.1, ?_⟩
              rw [he.width (hinlt hx.1)]
              exact hx.2
            · rw [hc2, hopst]
          refine triple_bind hm ?_
          intro result u _ heu hres
          refine triple_bind (retainProjection_spec (hcurt.trans_le heu.length_le) hres) ?_
          intro _ x _ hex _
          have hall := (he.trans heu).trans hex
          exact ih (hgrown hall) ((hdone.mono hall).cons (hres.mono hex))

lemma means_projectLow (hB : B.Sound last vals) {n : Nat} (ha : Has s a v) (hw : w ≤ v) :
    Means last vals s (projectLow n B a w) w (last.num vals a % 2 ^ w) := by
  refine triple_bind triple_findLowWordProjection ?_
  intro o t _ he ho
  cases o with
  | some image => exact means_pure fun _ => ho image rfl
  | none =>
    refine triple_bind (projectLoop_spec (w := w) hB ?_ fun p hp => (nomatch hp)) ?_
    · intro p hp
      rw [mem_singleton.mp hp]
      exact ⟨(ha.mono he).1, (ha.mono he).2.symm ▸ hw⟩
    · intro done u _ _ hdone
      unfold Build.ofOption
      split
      next r hr => exact means_pure fun _ => hdone _ (mem_of_lookup hr)
      · exact means_stop

end

section

variable [BlockHash] {last : SymContext} {vals : List APInt} {s : SymBuilder} {v w : Nat}
    {B : Builders} {a : SymRef}

omit [BlockHash] in
lemma slice_one (low x : Nat) : slice low 1 x = bit (x.testBit low) := by
  rw [slice, Nat.testBit_eq_decide_div_mod_eq, pow_one]
  have : x / 2 ^ low % 2 < 2 := Nat.mod_lt _ two_pos
  by_cases h : x / 2 ^ low % 2 = 1
  · simp [bit, h]
  · simp only [bit, h, decide_false, Bool.false_eq_true, if_false]
    omega

variable {low : Nat}

omit [BlockHash] in
lemma slice_mod {c : Nat} (h : low + w ≤ c) : slice low w (x % 2 ^ c) = slice low w x := by
  rw [slice_eq_iff (slice_lt ..)]
  intro i hi
  rw [Nat.testBit_mod_two_pow, testBit_slice, decide_eq_true hi,
    decide_eq_true (show low + i < c by omega)]

omit [BlockHash] in
lemma slice_two_pow_mul {k : Nat} (h : k ≤ low) :
    slice low w (2 ^ k * x) = slice (low - k) w x := by
  rw [slice_eq_iff (slice_lt ..)]
  intro i hi
  rw [Nat.testBit_two_pow_mul, testBit_slice, decide_eq_true hi,
    decide_eq_true (show k ≤ low + i by omega), show low + i - k = low - k + i by omega]

lemma meansIf_signSlice (hB : B.Sound last vals) (ha : Has s a v) :
    MeansIf last vals s (signSlice B a low w) w (slice low w (last.num vals a)) := by
  apply meansIf_context
  intro h
  refine meansIf_ite (fun hc => ?_) fun _ => meansIf_none
  obtain ⟨rfl, rfl⟩ := hc
  rw [slice_one, ha.2]
  exact meansIf_recoverSignComparison hB ha

lemma meansIf_commonWindow (ha : Has s a v) (hpos : 0 < w) :
    MeansIf last vals s (commonWindow a low w) w (slice low w (last.num vals a)) := by
  apply meansIf_context
  intro h
  split
  next value hvalue =>
    obtain ⟨hvw, hslice⟩ := constantWindowWithin_spec h ha hvalue
    refine meansIf_ite (fun _ => ?_) fun _ => meansIf_none
    apply meansIf_some
    exact means_mkConst (hvw ▸ hpos) hvw hslice.symm
  · exact meansIf_none

lemma unscaledSource_spec (h : At last vals s) (ha : Has s a v) :
      ∃ u, Has s (s.ctx.unscaledSource a).2 u ∧
      last.num vals a = 2 ^ (s.ctx.unscaledSource a).1 *
      last.num vals (s.ctx.unscaledSource a).2 := by
  unfold SymContext.unscaledSource
  dsimp only
  split
  next hc =>
    simp only [Bool.and_eq_true, decide_eq_true_eq] at hc
    obtain ⟨⟨⟨hscaled, hpow⟩, hext⟩, hfit⟩ := hc
    obtain ⟨h0, hc0, h1, -, hnum⟩ := h.scaled ha hscaled
    obtain ⟨-, hin, -, hnum1⟩ := h.zext_num h1 hext
    refine ⟨_, hin, ?_⟩
    have hlog := APInt.logBase2_lt hpow
    rw [h.const_width h0 hc0] at hlog
    rw [hnum, hnum1, APInt.countrZero_of_isPowerOf2 hpow, ← APInt.toNat_of_isPowerOf2 hpow]
    rw [APInt.countrZero_of_isPowerOf2 hpow, ha.2] at hfit
    rw [APInt.toNat_of_isPowerOf2 hpow]
    apply Nat.mod_eq_of_lt
    have hlt := (h.lt hin).trans_le (Nat.pow_le_pow_right two_pos hfit)
    have hsplit : 2 ^ v = 2 ^ (s.ctx.constValue (s.ctx.operand a 0)).logBase2 *
        2 ^ (v - (s.ctx.constValue (s.ctx.operand a 0)).logBase2) := by
      rw [← pow_add]
      congr 1
      omega
    rw [hsplit]
    exact Nat.mul_lt_mul_of_pos_left hlt (Nat.two_pow_pos _)
  · exact ⟨v, ha, by rw [pow_zero, one_mul]⟩

lemma zeroTail_spec (h : At last vals s) (ha : Has s a v) :
    last.num vals a = 2 ^ s.ctx.zeroTail a * (last.num vals a / 2 ^ s.ctx.zeroTail a) ∧
      s.ctx.zeroTail a ≤ v := by
  unfold SymContext.zeroTail
  dsimp only
  split
  next hc =>
    rw [SymContext.isConstZero, Bool.and_eq_true, Bool.and_eq_true, decide_eq_true_eq] at hc
    obtain ⟨hop, hconst, hzero⟩ := hc
    obtain ⟨hne, hsum, hnum⟩ := h.concat_num ha hop
    obtain ⟨front, tail, hops⟩ : ∃ front tail, s.ctx.operands a = front ++ [tail] :=
      ⟨_, _, (dropLast_append_getLast hne).symm⟩
    have htail : (s.ctx.operands a).getLastD 0 = tail := by rw [hops, getLastD_concat]
    rw [htail] at hconst hzero ⊢
    have hmem : tail ∈ s.ctx.operands a := by
      rw [hops]
      exact mem_append_right _ (mem_singleton_self _)
    have h0 := h.const_num (h.operand_has ha hmem) hconst
    rw [toNat_of_isZero hzero] at h0
    rw [hops, map_append, map_singleton, joinAll_append_singleton, h0, add_zero] at hnum
    constructor
    · rw [hnum, Nat.mul_div_cancel _ (Nat.two_pow_pos _), mul_comm]
    · rw [hops, map_append, sum_append, map_singleton, sum_singleton] at hsum
      omega
  · exact ⟨by rw [pow_zero, Nat.div_one, one_mul], Nat.zero_le _⟩

def narrowValue (last : SymContext) (vals : List APInt) (sources : List (SymRef × Nat)) : Nat :=
  (sources.map fun p => last.num vals p.1 / 2 ^ p.2).prod

/-- What is collected is a factor of what was read: no bit of the narrow words is lost. -/
structure NarrowOk (last : SymContext) (vals : List APInt) (s : SymBuilder) (low carrier : Nat)
    (parts : NarrowProduct) : Prop where
  shift : parts.shift ≤ low
  required : parts.required < carrier
  sources : ∀ p ∈ parts.sources, p.1 < s.ctx.nodes.length ∧ p.2 ≤ s.ctx.width p.1 ∧
    s.ctx.width p.1 - p.2 ≤ parts.required
  value : narrowValue last vals parts.sources ≤ 2 ^ parts.required
  fits : parts.sources ≠ [] → narrowValue last vals parts.sources < 2 ^ parts.required

lemma collectNarrow_spec (h : At last vals s) {carrier : Nat} {factors : List SymRef}
    (hfactors : ∀ r ∈ factors, Has s r carrier) {parts result : NarrowProduct}
    (hparts : NarrowOk last vals s low carrier parts)
    (hc : s.ctx.collectNarrow carrier low factors parts = some result) :
      NarrowOk last vals s low carrier result ∧
      2 ^ result.shift * narrowValue last vals result.sources =
        2 ^ parts.shift * narrowValue last vals parts.sources *
          (factors.map (last.num vals)).prod := by
  induction factors generalizing parts with
  | nil =>
    cases hc
    exact ⟨hparts, by simp⟩
  | cons factor rest ih =>
    have hf := hfactors factor (mem_cons_self ..)
    have hrest := fun r hr => hfactors r (mem_cons_of_mem _ hr)
    rw [SymContext.collectNarrow] at hc
    split at hc
    next hconst =>
      dsimp only at hc
      split at hc
      · cases hc
      next hn =>
        rw [not_or, Bool.not_eq_true, Bool.not_eq_false', not_lt] at hn
        have hnum := h.const_num hf hconst
        rw [APInt.toNat_of_isPowerOf2 hn.1, ← APInt.countrZero_of_isPowerOf2 hn.1] at hnum
        have hs := hparts.shift
        have hnext : NarrowOk last vals s low carrier
            { parts with shift := parts.shift + (s.ctx.constValue factor).countrZero } :=
          ⟨show _ + _ ≤ low by omega, hparts.required, hparts.sources, hparts.value, hparts.fits⟩
        obtain ⟨h1, h2⟩ := ih hrest hnext hc
        refine ⟨h1, h2.trans ?_⟩
        rw [map_cons, prod_cons, hnum, pow_add]
        ring
    · split at hc
      · cases hc
      next hext =>
        rw [not_not] at hext
        dsimp only at hc
        obtain ⟨-, hin, -, hnum⟩ := h.zext_num hf hext
        obtain ⟨u, hsrc, hunscaled⟩ := unscaledSource_spec h hin
        generalize s.ctx.unscaledSource (s.ctx.operand factor 0) = unscaled at hc hsrc hunscaled
        obtain ⟨htail, hdrop⟩ := zeroTail_spec h hsrc
        rw [← hsrc.2] at hdrop
        generalize s.ctx.zeroTail unscaled.2 = dropLow at hc htail hdrop
        split at hc
        · cases hc
        next hn =>
          simp only [not_or, not_lt, not_le] at hn
          have hs := hparts.shift
          have hr := hparts.required
          have hword : last.num vals unscaled.2 / 2 ^ dropLow <
              2 ^ (s.ctx.width unscaled.2 - dropLow) := by
            rw [Nat.div_lt_iff_lt_mul (Nat.two_pow_pos _), ← pow_add, Nat.sub_add_cancel hdrop,
              hsrc.2]
            exact h.lt hsrc
          have hval : narrowValue last vals (parts.sources ++ [(unscaled.2, dropLow)]) =
              narrowValue last vals parts.sources * (last.num vals unscaled.2 / 2 ^ dropLow) := by
            simp [narrowValue]
          have hfits : narrowValue last vals (parts.sources ++ [(unscaled.2, dropLow)]) <
              2 ^ (parts.required + (s.ctx.width unscaled.2 - dropLow)) := by
            rw [hval, pow_add]
            exact Nat.mul_lt_mul_of_le_of_lt hparts.value hword (Nat.two_pow_pos _)
          have hnext : NarrowOk last vals s low carrier ⟨parts.shift + unscaled.1 + dropLow,
              parts.required + (s.ctx.width unscaled.2 - dropLow),
              parts.sources ++ [(unscaled.2, dropLow)]⟩ := by
            refine ⟨show _ + _ + _ ≤
              low by omega, show _ + _ < carrier by omega, ?_, hfits.le, fun _ => hfits⟩
            intro p hp
            rcases mem_append.mp hp with hp | hp
            · obtain ⟨q1, q2, q3⟩ := hparts.sources p hp
              exact ⟨q1, q2, q3.trans (Nat.le_add_right ..)⟩
            · rw [mem_singleton.mp hp]
              exact ⟨hsrc.1, hdrop, Nat.le_add_left ..⟩
          obtain ⟨h1, h2⟩ := ih hrest hnext hc
          refine ⟨h1, h2.trans ?_⟩
          rw [hval, map_cons, prod_cons, hnum, hunscaled, pow_add, pow_add]
          generalize last.num vals unscaled.2 / 2 ^ dropLow = word at htail ⊢
          rw [htail]
          ring

lemma means_narrowFactor (hB : B.Sound last vals) {required : Nat} {p : SymRef × Nat}
    (hp : p.1 < s.ctx.nodes.length)
    (hd : p.2 ≤ s.ctx.width p.1) (hr : s.ctx.width p.1 - p.2 ≤ required) :
    Means last vals s (narrowFactor B required p) required (last.num vals p.1 / 2 ^ p.2) := by
  apply means_context
  intro h
  have hhas : Has s p.1 (s.ctx.width p.1) := ⟨hp, rfl⟩
  refine means_bind (hB.mkExtract hhas) ?_
  intro word t _ _ hword
  refine (hB.mkZExt hword.1 hr).congr ?_
  rw [hword.2, slice, Nat.mod_eq_of_lt]
  rw [Nat.div_lt_iff_lt_mul (Nat.two_pow_pos _), ← pow_add, Nat.sub_add_cancel hd]
  exact h.lt hhas

lemma meansIf_narrowUnsignedProductSlice (hB : B.Sound last vals) (ha : Has s a v) (hpos : 0 < w)
    (hw : low + w ≤ v) :
    MeansIf last vals s (narrowUnsignedProductSlice B a low w) w
      (slice low w (last.num vals a)) := by
  apply meansIf_context
  intro h
  refine meansIf_ite (fun _ => meansIf_none) fun hop => ?_
  rw [not_not] at hop
  rw [ha.2]
  split
  · exact meansIf_none
  next parts hparts =>
    have hall := (h.nary ha (by simp [hop])).2
    have hinit : NarrowOk last vals s low v {} :=
      ⟨Nat.zero_le _, h.pos ha, forall_mem_nil _, le_rfl, fun hne => absurd rfl hne⟩
    obtain ⟨hok, hvalue⟩ := collectNarrow_spec h hall hinit hparts
    have hslice : slice low w (last.num vals a) = slice (low - parts.shift) w
        (narrowValue last vals parts.sources) := by
      rw [h.mul_num ha hop, mulAll, slice_mod hw]
      have : ((s.ctx.operands a).map (last.num vals)).prod = 2 ^ parts.shift *
          narrowValue last vals parts.sources := by
        rw [hvalue]
        simp [narrowValue]
      rw [this, slice_two_pow_mul hok.shift]
    refine meansIf_ite (fun _ => meansIf_none) fun hne =>
      meansIf_ite (fun hbegin => ?_) fun hbegin => ?_
    · apply meansIf_some
      refine (means_mkZero hpos).congr ?_
      rw [hslice, slice, Nat.div_eq_of_lt, Nat.zero_mod]
      exact (hok.fits hne).trans_le (Nat.pow_le_pow_right two_pos hbegin)
    · apply meansIf_some
      refine triple_bind (triple_each_map (w := parts.required) parts.sources
        (g := fun p => last.num vals p.1 / 2 ^ p.2) ?_) ?_
      · intro t _ he p hp
        obtain ⟨q1, q2, q3⟩ := hok.sources p hp
        rw [← he.width q1] at q2 q3
        exact means_narrowFactor hB (q1.trans_le he.length_le) q2 q3
      intro factors t _ _ hfac
      refine means_bind (hB.mkMul hfac.1) ?_
      intro narrow t' _ _ hnarrow
      refine means_bind (hB.mkExtract hnarrow.1) ?_
      intro window u _ _ hwin
      refine (hB.mkZExt hwin.1 (min_le_left ..)).congr ?_
      have hprod : last.num vals narrow = narrowValue last vals parts.sources := by
        rw [hnarrow.2, hfac.2]
        exact Nat.mod_eq_of_lt (hok.fits hne)
      rw [hwin.2, hslice, hprod]
      rw [not_le] at hbegin
      apply Nat.eq_of_testBit_eq
      intro i
      rw [testBit_slice, testBit_slice]
      by_cases hi : low - parts.shift + i < parts.required
      · congr 1
        rw [decide_eq_decide]
        omega
      · rw [testBit_of_lt (hok.fits hne) (not_lt.mp hi), Bool.and_false, Bool.and_false]

/-- The total width and the word of parts that follow each other, the highest first. -/
def packed (last : SymContext) (vals : List APInt) (rs : List SymRef) : Nat × Nat :=
  ((rs.map last.width).sum, joinAll (rs.map fun r => (last.width r, last.num vals r)))

omit [BlockHash] in
lemma packed_append (last : SymContext) (vals : List APInt) (xs ys : List SymRef) :
    packed last vals (xs ++ ys) = ((packed last vals xs).1 + (packed last vals ys).1,
      (packed last vals xs).2 * 2 ^ (packed last vals ys).1 + (packed last vals ys).2) := by
  have hsum : ((ys.map fun r => (last.width r, last.num vals r)).map Prod.fst).sum =
      (ys.map last.width).sum := by
    rw [map_map]
    rfl
  rw [packed, map_append, map_append, sum_append, joinAll_append, hsum]
  rfl

omit [BlockHash] in
lemma packed_single (last : SymContext) (vals : List APInt) (r : SymRef) :
    packed last vals [r] = (last.width r, last.num vals r) := by
  simp [packed, joinAll]

omit [BlockHash] in
lemma slice_join {k m y : Nat} (hx : x < 2 ^ v) (hk : low + k = v ∨ m = 0 ∧ low + k ≤ v) :
    slice 0 m y * 2 ^ k + slice low k x = slice low (m + k) (y * 2 ^ v + x) := by
  apply Nat.eq_of_testBit_eq
  intro i
  rw [mul_comm, Nat.testBit_two_pow_mul_add _ (slice_lt ..), testBit_slice low k,
    testBit_slice low (m + k), mul_comm y, Nat.testBit_two_pow_mul_add y hx]
  by_cases hi : i < k
  · rw [if_pos hi, if_pos (by omega), decide_eq_true hi, decide_eq_true (by omega)]
  · rw [if_neg hi, testBit_slice, zero_add]
    rcases hk with hk | hk
    · rw [if_neg (by omega), show low + i - v = i - k by omega]
      congr 1
      rw [decide_eq_decide]
      omega
    · rw [decide_eq_false (by omega), decide_eq_false (by omega), Bool.false_and, Bool.false_and]

theorem slicedParts_spec (hB : B.Sound last vals) {parts : List SymRef} {partLow : Nat}
    (hparts : ∀ r ∈ parts, r < s.ctx.nodes.length) :
    Triple last vals s (slicedParts B low w parts partLow) fun kept t =>
      (∀ r ∈ kept, r < t.ctx.nodes.length) ∧
      packed last vals kept.reverse =
          (min (low + w) (partLow + (packed last vals parts.reverse).1) - max low partLow,
          slice (max low partLow - partLow)
            (min (low + w) (partLow + (packed last vals parts.reverse).1) - max low partLow)
            (packed last vals parts.reverse).2) := by
  induction parts generalizing s partLow with
  | nil =>
    refine triple_pure fun _ => ⟨forall_mem_nil _, ?_⟩
    have hz : min (low + w) (partLow + 0) - max low partLow = 0 := by omega
    show ((0 : Nat), (0 : Nat)) = _
    rw [show (packed last vals ([] : List SymRef).reverse).1 = 0 from rfl, hz]
    simp [slice, Nat.mod_one]
  | cons part rest ih =>
    have hp := hparts part (mem_cons_self ..)
    have hrest := fun r hr => hparts r (mem_cons_of_mem _ hr)
    unfold slicedParts
    apply triple_context
    intro h
    have hhas := h.has_last hp
    have hx := h.lt hhas
    rw [hhas.2, reverse_cons, packed_append, packed_single]
    generalize packed last vals rest.reverse = V at ih ⊢
    refine triple_ite (fun hover => ?_) fun hover => ?_
    · refine triple_bind (hB.mkExtract hhas) ?_
      intro kept t _ he hkept
      refine triple_bind (ih fun r hr => (hrest r hr).trans_le he.length_le) ?_
      intro others u hu heu hothers
      refine triple_pure fun _ => ⟨?_, ?_⟩
      · intro r hr
        rcases mem_cons.mp hr with rfl | hr
        · exact (hkept.1.mono heu).1
        · exact hothers.1 r hr
      · have hkw : last.width kept = min (low + w) (partLow + last.width part) - max low partLow :=
          (hu.width_eq (hkept.1.mono heu).1).symm.trans (hkept.1.mono heu).2
        rw [reverse_cons, packed_append, packed_single, hothers.2]
        rw [hkw, hkept.2]
        have hmax : max low (partLow + last.width part) = partLow + last.width part := by omega
        have hsum : min (low + w) (partLow + last.width part + V.1) - (partLow + last.width part) +
            (min (low + w) (partLow + last.width part) - max low partLow) =
              min (low + w) (partLow + (V.1 + last.width part)) - max low partLow := by omega
        rw [hmax, Nat.sub_self, slice_join hx (by omega), hsum]
    · refine triple_mono (ih hrest) ?_
      intro kept t _ _ hkept
      refine ⟨hkept.1, hkept.2.trans ?_⟩
      have hpos := h.pos hhas
      by_cases hbelow : partLow + last.width part ≤ low
      · -- the part lies below the window
        have hlow : max low partLow = low := by omega
        rw [max_eq_left hbelow, hlow, add_comm V.1, ← add_assoc, slice_join_high (by omega) hx,
          ← Nat.sub_sub]
      · -- the window ends before the part
        have h1 : min (low + w) (partLow + last.width part + V.1) - max low
            (partLow + last.width part) = 0 := by omega
        have h2 : min (low + w) (partLow + (V.1 + last.width part)) - max low partLow = 0 := by
          omega
        rw [h1, h2]
        simp [slice, Nat.mod_one]

lemma packed_operands (h : At last vals s) (ha : Has s a v) (hop : s.ctx.op a = .concat) :
    packed last vals (s.ctx.operands a) = (v, last.num vals a) := by
  obtain ⟨-, hsum, hnum⟩ := h.concat_num ha hop
  have hwidth : ∀ c ∈ s.ctx.operands a, last.width c = s.ctx.width c := fun c hc =>
    (h.width_eq (h.operand_has ha hc).1).symm
  rw [packed, map_congr_left hwidth, hsum, hnum]
  congr 2
  apply map_congr_left
  intro c hc
  rw [hwidth c hc]

lemma means_sliceParts (hB : B.Sound last vals) (ha : Has s a v) (hpos : 0 < w) (hw : low + w ≤ v) :
    Means last vals s (sliceParts B a low w) w (slice low w (last.num vals a)) := by
  have hnode : ∀ t, s.ctx.Extends t.ctx →
      Means last vals t (.intern .extract w [a] low) w (slice low w (last.num vals a)) :=
        fun t he =>
    means_unary hpos ⟨by decide, by decide⟩ (ha.mono he) ⟨v, rfl, hw⟩
  apply means_context
  intro h
  refine means_ite (fun hop => ?_) fun _ => hnode s (.refl _)
  refine triple_bind (slicedParts_spec hB fun r hr =>
    (h.operand_has ha (mem_reverse.mp hr)).1) ?_
  intro kept t ht he hkept
  refine means_ite (fun _ => hnode t he) fun _ => ?_
  obtain ⟨hk, hpack⟩ := hkept
  rw [reverse_reverse, packed_operands h ha hop] at hpack
  have hwidth : min (low + w) (0 + v) - max low 0 = w := by omega
  rw [hwidth, max_eq_left (Nat.zero_le low), Nat.sub_zero] at hpack
  have hrev : ∀ r ∈ kept.reverse, Has t r (last.width r) :=
    fun r hr => ht.has_last (hk r (mem_reverse.mp hr))
  have hm := hB.mkConcat hrev
  have h1 : (kept.reverse.map last.width).sum = w := congrArg Prod.fst hpack
  rw [h1] at hm
  exact hm.congr (congrArg Prod.snd hpack)

end

variable [BlockHash] [ProjectionHash] {last : SymContext} {vals : List APInt} {s : SymBuilder}
  {v w : Nat} {B : Builders} {a : SymRef}

lemma means_rewriteExtract (hB : B.Sound last vals) {n low : Nat} (ha : Has s a v) (hpos : 0 < w)
    (hw : low + w ≤ v) :
    Means last vals s (rewriteExtract n B a low w) w (slice low w (last.num vals a)) := by
  apply means_context
  intro h
  refine means_ite (fun hop => ?_) fun _ => means_ite (fun hc => ?_) fun _ =>
    means_ite (fun hc => ?_) fun _ => ?_
  · obtain ⟨-, hin, -, hnum⟩ := h.extract_num ha hop
    refine (hB.mkExtract hin).congr ?_
    rw [hnum]
    exact (slice_slice hw).symm
  · obtain ⟨hop, rfl, hle⟩ := hc
    rw [slice_zero]
    rcases hop with ho | ho
    · obtain ⟨-, hin, -, hnum⟩ := h.zext_num ha ho
      refine (hB.mkExtract hin).congr ?_
      rw [slice_zero, hnum]
    · obtain ⟨-, hin, hlt, hnum⟩ := h.sext_num ha ho
      refine (hB.mkExtract hin).congr ?_
      rw [slice_zero, hnum, sextOf_mod_low (h.lt hin) hlt.le hle]
  · obtain ⟨rfl, -⟩ := hc
    rw [slice_zero]
    exact means_projectLow hB ha (by omega)
  · refine means_orElse (meansIf_narrowUnsignedProductSlice hB ha hpos hw) ?_
    intro t _ he
    exact means_sliceParts hB (ha.mono he) hpos hw

lemma means_mkExtract (hB : B.Sound last vals) {n low : Nat} (ha : Has s a v) :
    Means last vals s (mkExtract n B a low w) w (slice low w (last.num vals a)) := by
  apply means_context
  intro h
  rw [ha.2]
  refine means_ite (fun _ => means_stop) fun hc => ?_
  rw [not_or] at hc
  have hpos : 0 < w := Nat.pos_of_ne_zero hc.1
  have hw : low + w ≤ v := not_lt.mp hc.2
  refine means_ite (fun hall => ?_) fun _ => means_ite (fun hconst => ?_) fun _ => ?_
  · obtain ⟨rfl, rfl⟩ := hall
    rw [slice_self (h.lt ha)]
    exact means_pure fun _ => ⟨ha, rfl⟩
  · refine means_mkConst (c := (s.ctx.constValue a).extractBits w low) hpos rfl ?_
    rw [toNat_extractBits, h.const_num ha hconst]
  · refine means_orElse (meansIf_signSlice hB ha) ?_
    intro t _ he
    refine means_orElse (meansIf_commonWindow (ha.mono he) hpos) ?_
    intro u _ heu
    exact means_rewriteExtract hB ((ha.mono he).mono heu) hpos hw

end NeverD.Sym
