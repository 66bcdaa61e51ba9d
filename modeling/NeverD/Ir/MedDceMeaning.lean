import NeverD.Ir.MedDceClosed

namespace NeverD.Ir
open List Function

/-- Operations that are no effects have an output or read nothing, joins have one, and what they
take at an exceptional entry has no number. -/
structure MedFunc.Numbered (f : MedFunc) : Prop where
  ops : ∀ op ∈ f.blocks.flatMap (·.ops), op.isEssential = true ∨ 0 ≤ op.output.id ∨ op.operands = []
  phis : ∀ phi ∈ f.blocks.flatMap (·.phis), 0 ≤ phi.output.id
  exceptional : ∀ phi ∈ f.blocks.flatMap (·.phis), ∀ v, phi.exceptionalEntry = some v → v.id < 0

/-- The variables that an operation assigns. Only an intrinsic has further outputs. -/
def MedOp.outputs (op : MedOp) : List MedVar :=
  op.output :: if op.opcode = .intrinsic then op.intrinsicOutputs else []

def MedFunc.Defines (f : MedFunc) (k : ValueId) : Prop :=
  (∃ op ∈ f.blocks.flatMap (·.ops), ∃ v ∈ op.outputs, 0 ≤ v.id ∧ v.valueId = k) ∨
    ∃ phi ∈ f.blocks.flatMap (·.phis), 0 ≤ phi.output.id ∧ phi.output.valueId = k

namespace DceContext

variable {ctx : DceContext} {f : MedFunc} {live : List ValueId}

def keptOp (ctx : DceContext) (live : List ValueId) (op : MedOp) : MedOp :=
  { ctx.clearFlags live op with dead := false }

variable (op : MedOp)
include op

lemma keptOp_opcode : (ctx.keptOp live op).opcode = op.opcode := by
  unfold keptOp clearFlags
  split <;> rfl

lemma keptOp_outputs : (ctx.keptOp live op).outputs = op.outputs := by
  unfold keptOp clearFlags
  split <;> rfl

lemma keptOp_callSiteId : (ctx.keptOp live op).callSiteId = op.callSiteId := by
  unfold keptOp clearFlags
  split <;> rfl

lemma keptOp_essential : (ctx.keptOp live op).isEssential = op.isEssential := by
  unfold keptOp clearFlags
  split <;> rfl

lemma keptOp_operands : (ctx.keptOp live op).operands = if ctx.hasDeadFlags live op then
      op.operands.set x86BoundedLeafFlagOperand (.makeConst 0 x86ArithmeticFlagsBytes .scalar)
        else op.operands := by
  unfold keptOp clearFlags MedOp.operands
  split
  · exact take_set
  · rfl

omit op

variable {op : MedOp}

lemma isKept_of_essential (h : op.isEssential = true) (entryCopies : Bool) :
    isKept live entryCopies op = true := if_pos (Or.inl h)

lemma isKept_of_outputLive (h : isOutputLive live op = true) (entryCopies : Bool) :
    isKept live entryCopies op = true := if_pos (Or.inr (Or.inl h))

lemma mem_sweepOps {op' : MedOp} {entryCopies : Bool} {ops : List MedOp}
    (h : op' ∈ ctx.sweepOps live entryCopies ops) :
    ∃ op ∈ ops, op' = ctx.keptOp live op ∧ ∃ entry, isKept live entry op = true := by
  induction ops generalizing entryCopies with
  | nil => cases h
  | cons op rest ih =>
    unfold sweepOps at h
    dsimp only at h
    split at h
    next hkept =>
      rcases mem_cons.mp h with rfl | h
      · exact ⟨op, mem_cons_self, rfl, _, hkept⟩
      · obtain ⟨op₁, hmem, hrest⟩ := ih h
        exact ⟨op₁, mem_cons_of_mem _ hmem, hrest⟩
    · obtain ⟨op₁, hmem, hrest⟩ := ih h
      exact ⟨op₁, mem_cons_of_mem _ hmem, hrest⟩

lemma keptOp_mem (h : ∀ entry, isKept live entry op = true) {entryCopies : Bool} {ops : List MedOp}
    (hop : op ∈ ops) : ctx.keptOp live op ∈ ctx.sweepOps live entryCopies ops := by
  induction ops generalizing entryCopies with
  | nil => cases hop
  | cons op₁ rest ih =>
    unfold sweepOps
    dsimp only
    rcases mem_cons.mp hop with rfl | hop
    · rw [if_pos (h _)]
      exact mem_cons_self
    · split
      · exact mem_cons_of_mem _ (ih hop)
      · exact ih hop

lemma sweepOps_essential (entryCopies : Bool) (ops : List MedOp) :
    (ctx.sweepOps live entryCopies ops).filter (·.isEssential) = (ops.filter (·.isEssential)).map
    (ctx.keptOp live) := by
  induction ops generalizing entryCopies with
  | nil => rfl
  | cons op rest ih =>
    unfold sweepOps
    dsimp only
    by_cases hess : op.isEssential = true
    · rw [if_pos (isKept_of_essential hess _), filter_cons_of_pos hess, map_cons,
        filter_cons_of_pos (by rw [← hess]; exact keptOp_essential op), ih]
      rfl
    · rw [filter_cons_of_neg hess]
      split
      · have hkept : ¬ (ctx.keptOp live op).isEssential = true := by
          rw [keptOp_essential]
          exact hess
        rw [← ih]
        exact filter_cons_of_neg hkept
      · exact ih _

lemma kept_inputs (h : Closed ctx f live) (hop : op ∈ f.blocks.flatMap (·.ops))
    (hnumbered : op.isEssential = true ∨ 0 ≤ op.output.id ∨ op.operands = []) {entry : Bool}
    (hkept : isKept live entry op = true) : ∀ k ∈ ctx.liveInputs live op, k ∈ live := by
  intro k hk
  unfold isKept at hkept
  split at hkept
  next hwhy =>
    rcases hwhy with hess | hout | hincoming
    · exact h.essential op hop hess k hk
    · have hlive := of_decide_eq_true hout
      exact h.defined op hop _ hlive.2 (decide_eq_true (Or.inl ⟨hlive.1, rfl⟩)) k hk
    · obtain ⟨v, hv, -, rfl⟩ := liveInputs_subset hk
      unfold isIncomingLive at hincoming
      split at hincoming
      next a hoperands =>
        rw [hoperands, mem_singleton] at hv
        rw [hv]
        exact (of_decide_eq_true hincoming).2.2.2.2.2.2.2.2.2
      · cases hincoming
  next hwhy =>
    rw [not_or] at hwhy
    split at hkept
    · cases hkept
    next hid =>
      obtain ⟨v, hv, -, -⟩ := liveInputs_subset hk
      rw [(hnumbered.resolve_left hwhy.1).resolve_left hid] at hv
      cases hv

lemma mem_sweep_ops {op' : MedOp} (h : op' ∈ (ctx.sweep f live).blocks.flatMap (·.ops)) :
    ∃ op ∈ f.blocks.flatMap (·.ops), op' = ctx.keptOp live op ∧
      ∃ entry, isKept live entry op = true := by
  obtain ⟨b', hb', hop'⟩ := mem_flatMap.mp h
  obtain ⟨e, he, rfl⟩ := mem_map.mp hb'
  obtain ⟨op, hop, hrest⟩ := mem_sweepOps hop'
  exact ⟨op, mem_flatMap.mpr ⟨e.1, (mem_zipIdx' he).2 ▸ getElem_mem _, hop⟩, hrest⟩

lemma sweep_ops_mem (h : ∀ entry, isKept live entry op = true)
    (hop : op ∈ f.blocks.flatMap (·.ops)) :
    ctx.keptOp live op ∈ (ctx.sweep f live).blocks.flatMap (·.ops) := by
  obtain ⟨b, hb, hop⟩ := mem_flatMap.mp hop
  obtain ⟨i, hi, rfl⟩ := mem_iff_getElem.mp hb
  refine mem_flatMap.mpr ⟨ctx.sweepBlock live (i = 0) f.blocks[i], ?_, keptOp_mem h hop⟩
  exact mem_map.mpr ⟨(f.blocks[i], i), mem_zipIdx_iff_getElem?.mpr (getElem?_eq_getElem hi), rfl⟩

lemma mem_sweep_phis {phi : PhiNode} : phi ∈ (ctx.sweep f live).blocks.flatMap (·.phis) ↔
    phi ∈ f.blocks.flatMap (·.phis) ∧ isPhiKept live phi = true := by
  constructor
  · intro h
    obtain ⟨b', hb', hphi⟩ := mem_flatMap.mp h
    obtain ⟨e, he, rfl⟩ := mem_map.mp hb'
    obtain ⟨hmem, hkept⟩ := mem_filter.mp hphi
    exact ⟨mem_flatMap.mpr ⟨e.1, (mem_zipIdx' he).2 ▸ getElem_mem _, hmem⟩, hkept⟩
  · rintro ⟨h, hkept⟩
    obtain ⟨b, hb, hphi⟩ := mem_flatMap.mp h
    obtain ⟨i, hi, rfl⟩ := mem_iff_getElem.mp hb
    refine mem_flatMap.mpr ⟨ctx.sweepBlock live (i = 0) f.blocks[i], ?_,
      mem_filter.mpr ⟨hphi, hkept⟩⟩
    exact mem_map.mpr ⟨(f.blocks[i], i), mem_zipIdx_iff_getElem?.mpr (getElem?_eq_getElem hi), rfl⟩

lemma defines_sweep {k : ValueId} (hk : k ∈ live) (h : f.Defines k) :
    (ctx.sweep f live).Defines k := by
  rcases h with ⟨op, hop, v, hv, hid, rfl⟩ | ⟨phi, hphi, hid, rfl⟩
  · apply Or.inl
    refine ⟨ctx.keptOp live op, sweep_ops_mem ?_ hop, v, by rw [keptOp_outputs]; exact hv, hid, rfl⟩
    intro entry
    -- Only intrinsics have further outputs, and they stay whatever is live.
    by_cases hintrinsic : op.opcode = .intrinsic
    · apply isKept_of_essential
      unfold MedOp.isEssential
      simp [hintrinsic]
    · unfold MedOp.outputs at hv
      rw [if_neg hintrinsic, mem_singleton] at hv
      rw [hv] at hid hk
      exact isKept_of_outputLive (decide_eq_true ⟨hid, hk⟩) entry
  · apply Or.inr
    exact ⟨phi, mem_sweep_phis.mpr ⟨hphi, decide_eq_true (Or.inr hk)⟩, hid, rfl⟩

lemma keptOp_reads {v : MedVar} (hv : v ∈ (ctx.keptOp live op).operands) (hid : 0 ≤ v.id) :
    v.valueId ∈ ctx.liveInputs live op := by
  rw [keptOp_operands] at hv
  by_cases hdead : ctx.hasDeadFlags live op = true
  · rw [if_pos hdead] at hv
    obtain ⟨i, hi, hget⟩ := mem_iff_getElem.mp hv
    rw [length_set] at hi
    rw [getElem_set] at hget
    split at hget
    · rw [← hget] at hid
      exact absurd hid (by decide)
    next hne =>
      refine mem_map.mpr ⟨(v, i), mem_filter.mpr ⟨?_, ?_⟩, rfl⟩
      · exact mem_zipIdx_iff_getElem?.mpr (by rw [getElem?_eq_getElem hi, hget])
      · exact decide_eq_true ⟨hid, fun hbad => hne hbad.1.symm⟩
  · rw [if_neg hdead] at hv
    obtain ⟨i, hi, hget⟩ := mem_iff_getElem.mp hv
    refine mem_map.mpr ⟨(v, i), mem_filter.mpr ⟨?_, ?_⟩, rfl⟩
    · exact mem_zipIdx_iff_getElem?.mpr (by rw [getElem?_eq_getElem hi, hget])
    · exact decide_eq_true ⟨hid, fun hbad => hdead hbad.2⟩

end DceContext

/-- What operations mean: the words of their outputs and the world after. The world decides where a
block goes. -/
structure MedSemantics (W : Type*) where
  leaf : MedVar → W → Nat
  words : MedOp → List Nat → W → Nat → Nat
  world : MedOp → List Nat → W → W
  clobber : MedCallClobber → Nat → W → Nat
  join : MedVar → W → Nat
  target : Int → W → Option Int

/-- Only essential operations change the world, and the old flags of a bounded leaf affect just the
flags it returns. -/
structure MedSemantics.Lawful {W : Type*} (S : MedSemantics W) (ctx : DceContext) : Prop where
  pure : ∀ op values w, op.isEssential = false → S.world op values w = w
  mark : ∀ op values w dead, S.words { op with dead := dead } values w = S.words op values w ∧
    S.world { op with dead := dead } values w = S.world op values w
  flags : ∀ op v values w a x, ctx.flagResult op = some v → (∀ i, i ≠ op.intrinsicOutputs.length →
      S.words { op with inputs := op.inputs.set x86BoundedLeafFlagOperand a }
        (values.set x86BoundedLeafFlagOperand x) w i = S.words op values w i) ∧
      S.world { op with inputs := op.inputs.set x86BoundedLeafFlagOperand a }
        (values.set x86BoundedLeafFlagOperand x) w = S.world op values w

namespace MedSemantics

variable {W : Type*} (S : MedSemantics W)

abbrev Values := VarKind × ValueId → Nat

def read (env : Values) (w : W) (v : MedVar) : Nat :=
  if v.isConst ∨ v.id < 0 then S.leaf v w else env (v.kind, v.valueId)

/-- Assign the variables that have a number and a size, in order. -/
def assign (env : Values) : List (MedVar × Nat) → Values
  | [] => env
  | (v, x) :: rest =>
    assign (if 0 ≤ v.id ∧ v.size ≠ 0 then Function.update env (v.kind, v.valueId) x else env) rest

structure Event where
  op : MedOp
  words : Nat → Nat

def clobbered (f : MedFunc) (op : MedOp) : List MedCallClobber :=
  if op.opcode = .call ∨ op.opcode = .indirCall then f.callClobbers.filter fun c => c.callSiteId =
    op.callSiteId else []

def opStep (f : MedFunc) (op : MedOp) (env : Values) (w : W) : Values × W :=
  let values := op.operands.map (S.read env w)
  let after := assign env (op.outputs.zipIdx.map fun e => (e.1, S.words op values w e.2))
  (assign after ((clobbered f op).map fun c =>
    (c.value, S.clobber c (if 0 < c.preservedPrefixSize then S.read env w c.preservedInput
      else 0) w)),
    S.world op values w)

def event (op : MedOp) (env : Values) (w : W) : Event :=
  ⟨op, S.words op (op.operands.map (S.read env w)) w⟩

def opsRun (f : MedFunc) : List MedOp → Values → W → List Event × Values × W
  | [], env, w => ([], env, w)
  | op :: rest, env, w =>
    let next := S.opStep f op env w
    let run := opsRun f rest next.1 next.2
    (S.event op env w :: run.1, run.2)

/-- The joins of a block, all at once, when it is entered from a predecessor, or from another block
at an exception. -/
def phisRun (phis : List PhiNode) (pred : Int) (env : Values) (w : W) : Values := fun k =>
  match phis.find? fun phi => 0 ≤ phi.output.id ∧ (phi.output.kind, phi.output.valueId) = k with
  | none => env k
  | some phi => match phi.args.find? fun e => e.1 = pred with
    | none => phi.exceptionalEntry.elim (S.join phi.output w) (S.read env w)
    | some e => S.read env w e.2

/-- The operations that are executed in so many blocks. -/
def run (f : MedFunc) : Nat → Option Int → Int → Values → W → List Event
  | 0, _, _, _, _ => []
  | n + 1, pred, id, env, w => match f.block id with
    | none => []
    | some b =>
      let env := match pred with
        | none => env
        | some pred => S.phisRun b.phis pred env w
      let ops := S.opsRun f b.ops env w
      ops.1 ++ match S.target id ops.2.2 with
        | none => []
        | some next => run f n (some id) next ops.2.1 ops.2.2

end MedSemantics

open MedSemantics

namespace DceContext

structure SameWords (ctx : DceContext) (live : List ValueId) (e e' : Event) : Prop where
  op : e'.op = ctx.keptOp live e.op
  words : ∀ i, (ctx.hasDeadFlags live e.op = true → i ≠ e.op.intrinsicOutputs.length) →
    e'.words i = e.words i

/-- The second run is the first without the operations that are removed, which are no effects. -/
inductive Thinned (ctx : DceContext) (live : List ValueId) : List Event → List Event → Prop
  | nil : Thinned ctx live [] []
  | kept {e e' : Event} {t t' : List Event} : SameWords ctx live e e' → Thinned ctx live t t' →
      Thinned ctx live (e :: t) (e' :: t')
  | removed {e : Event} {t t' : List Event} : e.op.isEssential = false →
      isOutputLive live e.op = false → Thinned ctx live t t' → Thinned ctx live (e :: t) t'

variable {W : Type*} {S : MedSemantics W} {ctx : DceContext} {f : MedFunc} {live : List ValueId}
  {env env' : Values} {w : W}

def Agree (live : List ValueId) (env env' : Values) : Prop := ∀ k, k.2 ∈ live → env' k = env k

lemma Thinned.append {t t' u u' : List Event} (h : Thinned ctx live t t')
    (h' : Thinned ctx live u u') : Thinned ctx live (t ++ u) (t' ++ u') := by
  induction h with
  | nil => exact h'
  | kept hsame _ ih => exact .kept hsame ih
  | removed hess hout _ ih => exact .removed hess hout ih

lemma read_agree (h : Agree live env env') {v : MedVar} (hv : 0 ≤ v.id → v.valueId ∈ live) :
    S.read env' w v = S.read env w v := by
  unfold MedSemantics.read
  split
  · rfl
  next hread =>
    rw [not_or] at hread
    exact h _ (hv (Int.not_lt.mp hread.2))

theorem assign_agree (h : Agree live env env') {α : Type*} {var : α → MedVar} {g g' : α → Nat}
    {outputs : List α} (hg : ∀ e ∈ outputs, 0 ≤ (var e).id → (var e).valueId ∈ live → g' e = g e) :
    Agree live (assign env (outputs.map fun e => (var e, g e)))
      (assign env' (outputs.map fun e => (var e, g' e))) := by
  induction outputs generalizing env env' with
  | nil => exact h
  | cons e rest ih =>
    rw [forall_mem_cons] at hg
    rw [map_cons, map_cons]
    apply ih _ hg.2
    split
    next hid =>
      intro k hk
      by_cases heq : k = ((var e).kind, (var e).valueId)
      · rw [heq, update_self, update_self]
        rw [heq] at hk
        exact hg.1 hid.1 hk
      · rw [update_of_ne heq, update_of_ne heq]
        exact h k hk
    · exact h

lemma kept_words (hS : S.Lawful ctx) (h : Agree live env env') {op : MedOp}
    (hin : ∀ k ∈ ctx.liveInputs live op, k ∈ live) :
    (∀ i, (ctx.hasDeadFlags live op = true → i ≠ op.intrinsicOutputs.length) →
      S.words (ctx.keptOp live op) ((ctx.keptOp live op).operands.map (S.read env' w)) w i =
        S.words op (op.operands.map (S.read env w)) w i) ∧
      S.world (ctx.keptOp live op) ((ctx.keptOp live op).operands.map (S.read env' w)) w =
        S.world op (op.operands.map (S.read env w)) w := by
  by_cases hdead : ctx.hasDeadFlags live op = true
  · obtain ⟨v, hv⟩ : ∃ v, ctx.flagResult op = some v := by
      unfold hasDeadFlags at hdead
      cases hflags : ctx.flagResult op with
      | none =>
        rw [hflags] at hdead
        cases hdead
      | some v => exact ⟨v, rfl⟩
    -- The old flags are replaced by a constant, and only the flags that are returned depend on
    -- them.
    have hvalues : (ctx.keptOp live op).operands.map (S.read env' w) =
        (op.operands.map (S.read env w)).set x86BoundedLeafFlagOperand
          (S.leaf (.makeConst 0 x86ArithmeticFlagsBytes .scalar) w) := by
      rw [keptOp_operands, if_pos hdead]
      apply ext_getElem?
      intro i
      rw [getElem?_map, getElem?_set, getElem?_set, getElem?_map, length_map]
      split
      · split
        · rfl
        · rfl
      next hne =>
        cases hget : op.operands[i]? with
        | none => rfl
        | some a =>
          apply congrArg some
          apply read_agree h
          intro hid
          apply hin
          refine mem_map.mpr ⟨(a, i), mem_filter.mpr ⟨mem_zipIdx_iff_getElem?.mpr hget, ?_⟩, rfl⟩
          exact decide_eq_true ⟨hid, fun hbad => hne hbad.1.symm⟩
    rw [hvalues]
    unfold keptOp clearFlags
    rw [if_pos hdead, (hS.mark _ _ _ _).1, (hS.mark _ _ _ _).2]
    obtain ⟨hwords, hworld⟩ := hS.flags op v (op.operands.map (S.read env w)) w
      (.makeConst 0 x86ArithmeticFlagsBytes .scalar)
      (S.leaf (.makeConst 0 x86ArithmeticFlagsBytes .scalar) w) hv
    exact ⟨fun i hi => hwords i (hi hdead), hworld⟩
  · have hvalues : (ctx.keptOp live op).operands.map (S.read env' w) =
        op.operands.map (S.read env w) := by
      rw [keptOp_operands, if_neg hdead]
      apply map_congr_left
      intro a ha
      apply read_agree h
      intro hid
      apply hin
      have hkept : a ∈ (ctx.keptOp live op).operands := by
        rw [keptOp_operands, if_neg hdead]
        exact ha
      exact keptOp_reads hkept hid
    rw [hvalues]
    unfold keptOp clearFlags
    rw [if_neg hdead, (hS.mark _ _ _ _).1, (hS.mark _ _ _ _).2]
    exact ⟨fun _ _ => rfl, rfl⟩

theorem flags_last {op : MedOp} {e : MedVar × Nat} (he : e ∈ op.outputs.zipIdx)
    (hlast : e.2 = op.intrinsicOutputs.length)
    (hdead : ctx.hasDeadFlags live op = true) : e.1.valueId ∉ live := by
  unfold hasDeadFlags at hdead
  cases hflags : ctx.flagResult op with
  | none =>
    rw [hflags] at hdead
    cases hdead
  | some v =>
    rw [hflags] at hdead
    have hnot : v.valueId ∉ live := of_decide_eq_true hdead
    unfold flagResult at hflags
    split at hflags
    next hleaf =>
      have hne : op.intrinsicOutputs ≠ [] := by
        intro hnil
        rw [hnil] at hflags
        cases hflags
      have hget := mem_zipIdx_iff_getElem?.mp he
      unfold MedOp.outputs at hget
      rw [if_pos hleaf.1, hlast] at hget
      have hpos := length_pos_iff.mpr hne
      have hindex : op.intrinsicOutputs.length = op.intrinsicOutputs.length - 1 + 1 := by omega
      rw [hindex, getElem?_cons_succ, ← getLast?_eq_getElem?, hflags] at hget
      cases hget
      exact hnot
    · cases hflags

def KeepsClobbers (f : MedFunc) (live : List ValueId) : Prop :=
  ∀ c ∈ f.callClobbers, 0 < c.preservedPrefixSize → 0 ≤ c.preservedInput.id →
    c.preservedInput.valueId ∈ live

lemma clobbers_agree (hclobbers : KeepsClobbers f live) (h : Agree live env env')
    {after after' : Values}
    (hafter : Agree live after after') (op : MedOp) :
    Agree live (assign after ((clobbered f op).map fun c =>
        (c.value, S.clobber c (if 0 < c.preservedPrefixSize then S.read env w c.preservedInput
          else 0) w)))
      (assign after' ((clobbered f op).map fun c =>
        (c.value, S.clobber c (if 0 < c.preservedPrefixSize then S.read env' w c.preservedInput
          else 0) w))) := by
  apply assign_agree hafter
  intro c hc _ _
  have hmem : c ∈ f.callClobbers := by
    unfold clobbered at hc
    split at hc
    · exact (mem_filter.mp hc).1
    · cases hc
  split
  next hsize => rw [read_agree h (hclobbers c hmem hsize)]
  · rfl

lemma opStep_kept (hS : S.Lawful ctx) (hclobbers : KeepsClobbers f live) (h : Agree live env env')
    {op : MedOp}
    (hin : ∀ k ∈ ctx.liveInputs live op, k ∈ live) (g : MedFunc)
    (hg : g.callClobbers = f.callClobbers) :
    SameWords ctx live (S.event op env w) (S.event (ctx.keptOp live op) env' w) ∧
      Agree live (S.opStep f op env w).1 (S.opStep g (ctx.keptOp live op) env' w).1 ∧
      (S.opStep g (ctx.keptOp live op) env' w).2 = (S.opStep f op env w).2 := by
  obtain ⟨hwords, hworld⟩ := kept_words (S := S) (w := w) hS h hin
  refine ⟨⟨rfl, hwords⟩, ?_, hworld⟩
  have hsame : clobbered g (ctx.keptOp live op) = clobbered f op := by
    unfold clobbered
    rw [keptOp_opcode, keptOp_callSiteId, hg]
  unfold opStep
  rw [hsame, keptOp_outputs]
  apply clobbers_agree hclobbers h
  apply assign_agree h
  intro e he _ hlive
  apply hwords
  intro hdead hlast
  exact flags_last he hlast hdead hlive

lemma opStep_removed (hS : S.Lawful ctx) (h : Agree live env env') {op : MedOp}
    (hess : op.isEssential = false) (hout : isOutputLive live op = false) :
    Agree live (S.opStep f op env w).1 env' ∧ (S.opStep f op env w).2 = w := by
  -- It is no intrinsic and no call, so it assigns its output only, which is not live.
  have hplain : op.opcode ≠ .intrinsic ∧ ¬ (op.opcode = .call ∨ op.opcode = .indirCall) := by
    have := of_decide_eq_false hess
    tauto
  refine ⟨?_, hS.pure op _ w hess⟩
  unfold opStep clobbered MedOp.outputs
  rw [if_neg hplain.1, if_neg hplain.2]
  intro k hk
  show env' k = assign env [(op.output, _)] k
  unfold assign
  rw [assign]
  split
  next hid =>
    by_cases heq : k = (op.output.kind, op.output.valueId)
    · rw [heq] at hk
      exact absurd ⟨hid.1, hk⟩ (of_decide_eq_false hout)
    · rw [update_of_ne heq]
      exact h k hk
  · exact h k hk

lemma opsRun_thinned (hS : S.Lawful ctx) (hclosed : Closed ctx f live)
    (hclobbers : KeepsClobbers f live)
    {ops : List MedOp} (hops : ∀ op ∈ ops, op ∈ f.blocks.flatMap (·.ops) ∧
      (op.isEssential = true ∨ 0 ≤ op.output.id ∨ op.operands = [])) (g : MedFunc)
        (hg : g.callClobbers = f.callClobbers)
    (entryCopies : Bool) (h : Agree live env env') :
    Thinned ctx live (S.opsRun f ops env w).1
      (S.opsRun g (ctx.sweepOps live entryCopies ops) env' w).1 ∧
      Agree live (S.opsRun f ops env w).2.1
      (S.opsRun g (ctx.sweepOps live entryCopies ops) env' w).2.1 ∧
      (S.opsRun g (ctx.sweepOps live entryCopies ops) env' w).2.2 = (S.opsRun f ops env w).2.2 := by
  -- The entry copies end at the first other operation, so the flag changes along the induction.
  induction ops generalizing env env' w entryCopies with
  | nil => exact ⟨.nil, h, rfl⟩
  | cons op rest ih =>
    rw [forall_mem_cons] at hops
    unfold sweepOps
    by_cases hkept : isKept live (entryCopies && op.opcode = .copy) op = true
    · rw [if_pos hkept]
      have hin := kept_inputs hclosed hops.1.1 hops.1.2 hkept
      obtain ⟨hsame, hagree, hworld⟩ := opStep_kept (S := S) (w := w) hS hclobbers h hin g hg
      obtain ⟨hthin, hrest, hend⟩ :=
        ih hops.2 (entryCopies && op.opcode = .copy) (w := (S.opStep f op env w).2) hagree
      have hrun : S.opsRun g (ctx.keptOp live op ::
          ctx.sweepOps live (entryCopies && op.opcode = .copy) rest) env' w =
          (S.event (ctx.keptOp live op) env' w ::
            (S.opsRun g (ctx.sweepOps live (entryCopies && op.opcode = .copy) rest)
              (S.opStep g (ctx.keptOp live op) env' w).1 (S.opStep f op env w).2).1,
            (S.opsRun g (ctx.sweepOps live (entryCopies && op.opcode = .copy) rest)
              (S.opStep g (ctx.keptOp live op) env' w).1 (S.opStep f op env w).2).2) := by
        rw [opsRun, hworld]
      change Thinned ctx live _ (S.opsRun g (ctx.keptOp live op :: _) env' w).1 ∧
        Agree live _ (S.opsRun g (ctx.keptOp live op :: _) env' w).2.1 ∧
        (S.opsRun g (ctx.keptOp live op :: _) env' w).2.2 = _
      rw [hrun]
      exact ⟨.kept hsame hthin, hrest, hend⟩
    · rw [if_neg hkept]
      have hess : op.isEssential = false := by
        rw [← Bool.not_eq_true]
        exact fun hess => hkept (isKept_of_essential hess _)
      have hout : isOutputLive live op = false := by
        rw [← Bool.not_eq_true]
        exact fun hout => hkept (isKept_of_outputLive hout _)
      obtain ⟨hagree, hworld⟩ := opStep_removed (S := S) (f := f) (w := w) hS h hess hout
      obtain ⟨hthin, hrest, hend⟩ :=
        ih hops.2 (entryCopies && op.opcode = .copy) (w := (S.opStep f op env w).2) hagree
      rw [hworld] at hthin hrest hend
      have hrun : S.opsRun f (op :: rest) env w =
          (S.event op env w :: (S.opsRun f rest (S.opStep f op env w).1 w).1,
          (S.opsRun f rest (S.opStep f op env w).1 w).2) := by
        rw [opsRun, hworld]
      rw [hrun]
      exact ⟨.removed hess hout hthin, hrest, hend⟩

lemma phisRun_agree (hclosed : Closed ctx f live) (hnumbered : f.Numbered) {phis : List PhiNode}
    (hphis : ∀ phi ∈ phis, phi ∈ f.blocks.flatMap (·.phis)) (pred : Int) (h : Agree live env env') :
    Agree live (S.phisRun phis pred env w)
      (S.phisRun (phis.filter (isPhiKept live)) pred env' w) := by
  intro k hk
  unfold phisRun
  -- A join that is removed defines no live value, so the first match is the same.
  have hfind : (phis.filter (isPhiKept live)).find?
      (fun phi => 0 ≤ phi.output.id ∧ (phi.output.kind, phi.output.valueId) = k) =
      phis.find? fun phi => 0 ≤ phi.output.id ∧ (phi.output.kind, phi.output.valueId) = k := by
    rw [find?_filter]
    congr 1
    funext phi
    apply decide_eq_decide.mpr
    constructor
    · exact fun hphi => of_decide_eq_true hphi.2
    · intro hphi
      refine ⟨decide_eq_true (Or.inr ?_), decide_eq_true hphi⟩
      have heq : phi.output.valueId = k.2 := congrArg Prod.snd hphi.2
      rw [heq]
      exact hk
  rw [hfind]
  cases hphi : phis.find? fun phi => 0 ≤ phi.output.id ∧
    (phi.output.kind, phi.output.valueId) = k with
  | none => exact h k hk
  | some phi =>
    dsimp only
    have hmem := hphis phi (mem_of_find?_eq_some hphi)
    cases harg : phi.args.find? fun e => e.1 = pred with
    | none =>
      cases hentry : phi.exceptionalEntry with
      | none => rfl
      | some v =>
        exact read_agree h fun hid =>
          absurd hid (Int.not_le.mpr (hnumbered.exceptional phi hmem v hentry))
    | some e =>
      apply read_agree h
      intro hid
      apply hclosed.phis k.2 hk
      refine mem_flatMap.mpr ⟨phi, mem_filter.mpr ⟨hmem, ?_⟩, ?_⟩
      · have hmatch := find?_some hphi
        have hboth : 0 ≤ phi.output.id ∧ (phi.output.kind, phi.output.valueId) = k :=
          of_decide_eq_true hmatch
        exact decide_eq_true ⟨hboth.1, congrArg Prod.snd hboth.2⟩
      · exact mem_map.mpr ⟨e, mem_filter.mpr ⟨mem_of_find?_eq_some harg, decide_eq_true hid⟩, rfl⟩

lemma find_sweepBlock (ctx : DceContext) (live : List ValueId) (blocks : List MedBlock)
    (start : Nat) (id : Int) : (blocks.find? (fun b => b.id = id) = none →
      ((blocks.zipIdx start).map fun e => ctx.sweepBlock live (e.2 = 0) e.1).find?
        (fun b => b.id = id) = none) ∧
    ∀ b, blocks.find? (fun b => b.id = id) = some b → ∃ isFront,
      ((blocks.zipIdx start).map fun e => ctx.sweepBlock live (e.2 = 0) e.1).find?
        (fun b => b.id = id) = some (ctx.sweepBlock live isFront b) := by
  induction blocks generalizing start with
  | nil => exact ⟨fun _ => rfl, fun b hb => by cases hb⟩
  | cons c rest ih =>
    rw [zipIdx_cons, map_cons, find?_cons, find?_cons]
    have hsame : (ctx.sweepBlock live (start = 0) c).id = c.id := rfl
    rw [hsame]
    cases decide (c.id = id) with
    | false => exact ih (start + 1)
    | true =>
      refine ⟨(fun hnone => by cases hnone), fun b hb => ?_⟩
      cases hb
      exact ⟨_, rfl⟩

lemma run_thinned (hS : S.Lawful ctx) (hclosed : Closed ctx f live)
    (hclobbers : KeepsClobbers f live)
    (hnumbered : f.Numbered) (n : Nat) (pred : Option Int) (id : Int) (h : Agree live env env') :
    Thinned ctx live (S.run f n pred id env w) (S.run (ctx.sweep f live) n pred id env' w) := by
  induction n generalizing pred id env env' w with
  | zero => exact .nil
  | succ n ih =>
    unfold MedSemantics.run
    obtain ⟨hnone, hsome⟩ := find_sweepBlock ctx live f.blocks 0 id
    cases hb : f.block id with
    | none =>
      have hnext : (ctx.sweep f live).block id = none := hnone hb
      rw [hnext]
      exact .nil
    | some b =>
      obtain ⟨isFront, hnext⟩ := hsome b hb
      change (ctx.sweep f live).block id = some (ctx.sweepBlock live isFront b) at hnext
      rw [hnext]
      dsimp only
      have hmem : b ∈ f.blocks := mem_of_find?_eq_some hb
      have hops : ∀ op ∈ b.ops, op ∈ f.blocks.flatMap (·.ops) ∧
          (op.isEssential = true ∨ 0 ≤ op.output.id ∨ op.operands = []) := by
        intro op hop
        have hall := mem_flatMap.mpr ⟨b, hmem, hop⟩
        exact ⟨hall, hnumbered.ops op hall⟩
      have hphis : ∀ phi ∈ b.phis, phi ∈ f.blocks.flatMap (·.phis) :=
        fun phi hphi => mem_flatMap.mpr ⟨b, hmem, hphi⟩
      have hentry :
          Agree live (match pred with | none => env | some pred => S.phisRun b.phis pred env w)
          (match pred with
            | none => env'
            | some pred => S.phisRun (ctx.sweepBlock live isFront b).phis pred env' w) := by
        cases pred with
        | none => exact h
        | some pred => exact phisRun_agree hclosed hnumbered hphis pred h
      obtain ⟨hthin, hagree, hworld⟩ :=
        opsRun_thinned (w := w) hS hclosed hclobbers hops (ctx.sweep f live) rfl isFront hentry
      have hswept : (ctx.sweepBlock live isFront b).ops = ctx.sweepOps live isFront b.ops := rfl
      rw [hswept]
      apply hthin.append
      -- The world chooses the next block, and it is the same in both.
      rw [hworld]
      generalize S.target id _ = target
      cases target with
      | none => exact .nil
      | some next =>
        exact ih (some id) next hagree

lemma keepsClobbers_seeds (ctx : DceContext) (f : MedFunc) (share setup : Bool) :
    KeepsClobbers f (ctx.liveDefs f (ctx.seeds share setup f).marked) := by
  intro c hc hsize hid
  apply (liveDefs_closed ctx f _).2 c.preservedInput
  · apply mem_append_left
    apply mem_append_right
    exact mem_map.mpr ⟨c, mem_filter.mpr ⟨hc, decide_eq_true hsize⟩, rfl⟩
  · unfold MedFunc.marks
    rw [if_neg (Int.not_lt.mpr hid)]
    exact mem_cons_self

end DceContext

end NeverD.Ir
