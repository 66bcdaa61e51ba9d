import NeverD.Ir.MedDceMeaning
import NeverD.Ir.MedDceReaching

namespace NeverD.Ir
open MedSemantics List

namespace DceContext

variable {ctx : DceContext} {f : MedFunc}

def liveValues (ctx : DceContext) (f : MedFunc) : List ValueId :=
  ctx.liveDefs f (ctx.seeds f.hasUniqueBlockIds true f).marked

lemma runDce_eq (ctx : DceContext) (f : MedFunc) : ctx.runDce f = ctx.sweep f (ctx.liveValues f) :=
  rfl

def Reads (f : MedFunc) (v : MedVar) : Prop :=
  (∃ op ∈ f.blocks.flatMap (·.ops), v ∈ op.operands) ∨ ∃ phi ∈ f.blocks.flatMap (·.phis), ∃ pred,
    (pred, v) ∈ phi.args

lemma runDce_live (ctx : DceContext) (hnumbered : f.Numbered) {v : MedVar} (hid : 0 ≤ v.id)
    (hread : Reads (ctx.runDce f) v) : v.valueId ∈ ctx.liveValues f := by
  have hclosed : Closed ctx f (ctx.liveValues f) := (liveDefs_closed ctx f _).1
  rw [runDce_eq] at hread
  rcases hread with ⟨op', hop', hv⟩ | ⟨phi, hphi, pred, hv⟩
  · obtain ⟨op, hop, rfl, entry, hkept⟩ := mem_sweep_ops hop'
    exact kept_inputs hclosed hop (hnumbered.ops op hop) hkept _ (keptOp_reads hv hid)
  · obtain ⟨hmem, hkept⟩ := mem_sweep_phis.mp hphi
    have hlive := (of_decide_eq_true hkept).resolve_left (Int.not_lt.mpr (hnumbered.phis phi hmem))
    apply hclosed.phis _ hlive
    refine mem_flatMap.mpr ⟨phi, mem_filter.mpr ⟨hmem, ?_⟩, ?_⟩
    · exact decide_eq_true ⟨hnumbered.phis phi hmem, rfl⟩
    · exact mem_map.mpr ⟨(pred, v), mem_filter.mpr ⟨hv, decide_eq_true hid⟩, rfl⟩

/-- What a kept operation or join reads keeps its definitions. -/
theorem runDce_reads (ctx : DceContext) (hnumbered : f.Numbered) {v : MedVar} (hid : 0 ≤ v.id)
    (hread : Reads (ctx.runDce f) v) (hdefined : f.Defines v.valueId) :
    (ctx.runDce f).Defines v.valueId := by
  rw [runDce_eq]
  exact defines_sweep (runDce_live ctx hnumbered hid hread) hdefined

/-- The old flags are cleared only where nothing that is kept reads the flags that are returned. -/
lemma runDce_flags (ctx : DceContext) (hnumbered : f.Numbered) {op : MedOp} {v u : MedVar}
    (hflags : ctx.flagResult op = some v) (hdead : ctx.hasDeadFlags (ctx.liveValues f) op = true)
    (hid : 0 ≤ u.id) (hread : Reads (ctx.runDce f) u) : u.valueId ≠ v.valueId := by
  intro heq
  unfold hasDeadFlags at hdead
  rw [hflags] at hdead
  exact of_decide_eq_true hdead (heq ▸ runDce_live ctx hnumbered hid hread)

theorem runDce_blocks (ctx : DceContext) (f : MedFunc) (i : Nat) (b : MedBlock)
    (hb : f.blocks[i]? = some b) :
    ∃ b', (ctx.runDce f).blocks[i]? = some b' ∧ b'.id = b.id ∧ b'.preds = b.preds ∧
      b'.succs = b.succs ∧
      (b'.ops.filter (·.isEssential)) = (b.ops.filter (·.isEssential)).map
      (ctx.keptOp (ctx.liveValues f)) := by
  refine ⟨ctx.sweepBlock (ctx.liveValues f) (i = 0) b, ?_, rfl, rfl, rfl, sweepOps_essential _ _⟩
  rw [runDce_eq]
  unfold sweep
  rw [getElem?_map, getElem?_zipIdx, hb]
  simp

lemma marks_same (ctx : DceContext) (f : MedFunc) (v : MedVar) :
    v ∈ (ctx.seeds f.hasUniqueBlockIds true f).marked ↔ v ∈ (ctx.seeds false false f).marked :=
  (seeds_same ctx apart_of_unique).marked v

/-- After dead code elimination every essential operation is in its place, what is kept finds every
definition it had and computes the words it did in every execution, and the shared walks have marked
what walks afresh mark. -/
theorem runDce_exact (ctx : DceContext) (f : MedFunc) (hnumbered : f.Numbered) :
    (∀ (i : Nat) (b : MedBlock), f.blocks[i]? = some b → ∃ b', (ctx.runDce f).blocks[i]? = some b' ∧
        b'.id = b.id ∧ b'.preds = b.preds ∧ b'.succs = b.succs ∧
        (b'.ops.filter (·.isEssential)) = (b.ops.filter (·.isEssential)).map
        (ctx.keptOp (ctx.liveValues f))) ∧
      (∀ v : MedVar, 0 ≤ v.id → Reads (ctx.runDce f) v → f.Defines v.valueId →
      (ctx.runDce f).Defines v.valueId) ∧
      (∀ op v, ctx.flagResult op = some v → ctx.hasDeadFlags (ctx.liveValues f) op = true →
        ∀ u : MedVar, 0 ≤ u.id → Reads (ctx.runDce f) u → u.valueId ≠ v.valueId) ∧
      (∀ (W : Type) (S : MedSemantics W), S.Lawful ctx → ∀ n id env w,
        Thinned ctx (ctx.liveValues f) (S.run f n none id env w)
          (S.run (ctx.runDce f) n none id env w)) ∧
      ∀ v, v ∈ (ctx.seeds f.hasUniqueBlockIds true f).marked ↔
        v ∈ (ctx.seeds false false f).marked := by
  refine ⟨runDce_blocks ctx f, ?_, ?_, ?_, marks_same ctx f⟩
  · exact fun v hid hread hdefined => runDce_reads ctx hnumbered hid hread hdefined
  · exact fun op v hflags hdead u hid hread => runDce_flags ctx hnumbered hflags hdead hid hread
  · intro W S hS n id env w
    rw [runDce_eq]
    exact run_thinned hS (liveDefs_closed ctx f _).1 (keepsClobbers_seeds ctx f _ _)
      hnumbered n none id fun _ _ => rfl

def smallContext : DceContext where
  registers := ⟨fun r => r = 8, fun _ => false, fun _ => false, fun _ => false, fun _ => false,
    fun _ => false, fun _ => false, fun _ _ => false, [], 0, 0, 0, [], [], 16, 0⟩
  alternateArgumentRegisters := []
  nonstandardArgumentRegisters := []
  isImport := fun _ => false
  callEntryReads := fun _ => none
  parentExits := []
  isBoundedLeaf := fun op => op.addr = 0x40
  endsSetupAt := fun _ => true

def argument (version : Int) : MedVar :=
  { kind := .reg, id := 1, ssaVer := version, size := 8, constVal := 8 }

def result : MedVar := { kind := .reg, id := 2, ssaVer := 1, size := 8 }

def leafOp : MedOp where
  opcode := .intrinsic
  output := { id := 5, size := 8 }
  intrinsicOutputs := [{ kind := .flag, id := 6, size := 2 }]
  inputs := [.makeConst 3 8 .scalar, result, result, result, result,
    { kind := .flag, id := 7, size := 2 }]
  numInputs := 6
  addr := 0x40

/-- Two arms pass an argument to a call; what it returns goes to a bounded leaf, whose flags nothing
reads. A sum is dead. -/
def callFunc : MedFunc where
  blocks :=
    [{ id := 0
       succs := [1, 2]
       ops := [{ opcode := .copy, output := argument 1, inputs := [.makeConst 5 8 .scalar],
                 numInputs := 1 },
               { opcode := .condBr, output := { id := -1 }, inputs := [argument 1],
                 numInputs := 1 }] },
     { id := 1
       preds := [0]
       succs := [2]
       ops := [{ opcode := .intAdd, output := argument 2, inputs := [argument 1, argument 1],
                 numInputs := 2 },
               { opcode := .intAdd, output := { id := 3, size := 8 },
                 inputs := [argument 1, argument 1], numInputs := 2 }] },
     { id := 2
       preds := [0, 1]
       phis := [{ output := argument 3, args := [(0, argument 1), (1, argument 2)] }]
       ops := [{ opcode := .call, output := result, inputs := [.makeConst 0x2000 8 .codeAddress],
                 numInputs := 1 },
               leafOp,
               { opcode := .ret, output := { id := -1 } }] }]

def firstOperand : MedSemantics Nat where
  leaf := fun v _ => v.constVal.toNat
  words := fun op values _ i => if op.opcode = .intrinsic ∧ i = op.intrinsicOutputs.length then
    values.sum else values.headD 0
  world := fun op _ w => if op.isEssential then w + 1 else w
  clobber := fun _ x _ => x
  join := fun _ _ => 0
  target := fun id _ => if id = 0 then some 1 else if id = 1 then some 2 else none

theorem runDce_exact_call : (smallContext.runDce callFunc).blocks.map (·.ops.length) = [2, 1, 3] ∧
      smallContext.hasDeadFlags (smallContext.liveValues callFunc) leafOp = true ∧
      (smallContext.runDce callFunc).Defines (1, 2) ∧
        (∀ u : MedVar, 0 ≤ u.id → Reads (smallContext.runDce callFunc) u → u.valueId ≠ (6, 0)) ∧
      Thinned smallContext (smallContext.liveValues callFunc)
        (firstOperand.run callFunc 3 none 0 (fun _ => 7) 0)
        (firstOperand.run (smallContext.runDce callFunc) 3 none 0 (fun _ => 7) 0) := by
  have hnumbered : callFunc.Numbered := by
    refine ⟨by decide, by decide, ?_⟩
    intro phi hphi v hv
    rw [mem_singleton.mp hphi] at hv
    cases hv
  obtain ⟨-, hreads, hflags, hruns, -⟩ := runDce_exact smallContext callFunc hnumbered
  have hdead : smallContext.hasDeadFlags (smallContext.liveValues callFunc) leafOp = true := by
    decide +kernel
  refine ⟨by decide +kernel, hdead, ?_, ?_, ?_⟩
  · apply hreads (argument 2) (by decide)
    · refine Or.inr ⟨{ output := argument 3, args := [(0, argument 1), (1, argument 2)] }, ?_,
        1, by simp⟩
      rw [runDce_eq]
      exact mem_sweep_phis.mpr ⟨mem_singleton_self _, by decide +kernel⟩
    · exact Or.inl ⟨_, mem_cons_of_mem _ (mem_cons_of_mem _ mem_cons_self), _,
        mem_cons_self, by decide, rfl⟩
  · exact hflags leafOp { kind := .flag, id := 6, size := 2 } rfl hdead
  · apply hruns Nat firstOperand
    refine ⟨fun op values w hess => if_neg (Bool.eq_false_iff.mp hess), fun _ _ _ _ => ⟨rfl, rfl⟩,
      ?_⟩
    intro op v values w a x _
    refine ⟨fun i hi => ?_, rfl⟩
    unfold firstOperand
    dsimp only
    rw [if_neg fun hcon => hi hcon.2, if_neg fun hcon => hi hcon.2]
    cases values with
    | nil => rfl
    | cons y rest => rfl

end DceContext

end NeverD.Ir
