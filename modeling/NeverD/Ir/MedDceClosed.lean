import NeverD.Ir.MedDceLive

namespace NeverD.Ir
open List

variable {op : MedOp} {live : List ValueId}

namespace DceContext

variable {ctx : DceContext} {f : MedFunc}

def missing (values live : List ValueId) : Nat := (values.filter fun k => k ∉ live).length

lemma missing_cons {values : List ValueId} {k : ValueId} (hk : k ∈ values) (hnew : k ∉ live) :
    missing values (k :: live) < missing values live := by
  unfold missing
  have hfilter : (values.filter fun k' => k' ∉ k :: live) =
      (values.filter fun k' => k' ∉ live).filter fun k' => k' ≠ k := by
    rw [filter_filter]
    apply filter_congr
    intro x _
    simp [not_or]
  rw [hfilter, length_filter_lt_length_iff_exists]
  refine ⟨k, mem_filter.mpr ⟨hk, decide_eq_true hnew⟩, ?_⟩
  simp

structure Extends (values : List ValueId) (s s' : List ValueId × List ValueId) : Prop where
  live : ∀ k ∈ s.1, k ∈ s'.1
  work : ∀ k ∈ s.2, k ∈ s'.2
  fresh : ∀ k ∈ s'.1, k ∈ s.1 ∨ k ∈ s'.2
  potential : s'.2.length + missing values s'.1 ≤ s.2.length + missing values s.1

variable {values : List ValueId} {s s' s'' : List ValueId × List ValueId}

lemma Extends.refl (s : List ValueId × List ValueId) : Extends values s s :=
  ⟨fun _ h => h, fun _ h => h, fun _ h => .inl h, le_rfl⟩

lemma Extends.trans (h : Extends values s s') (h' : Extends values s' s'') :
    Extends values s s'' := by
  refine ⟨fun k hk => h'.live k (h.live k hk), fun k hk => h'.work k (h.work k hk), ?_,
    le_trans h'.potential h.potential⟩
  intro k hk
  rcases h'.fresh k hk with hk | hk
  · rcases h.fresh k hk with hk | hk
    · exact .inl hk
    · exact .inr (h'.work k hk)
  · exact .inr hk

lemma extends_insertLive {ks : List ValueId} (hks : ∀ k ∈ ks, k ∈ values)
    (s : List ValueId × List ValueId) :
    Extends values s (insertLive ks s) ∧ ∀ k ∈ ks, k ∈ (insertLive ks s).1 := by
  induction ks generalizing s with
  | nil => exact ⟨.refl s, forall_mem_nil _⟩
  | cons k ks ih =>
    obtain ⟨live, work⟩ := s
    unfold insertLive
    rw [forall_mem_cons] at hks
    split
    next hk =>
      obtain ⟨hext, hmem⟩ := ih hks.2 (live, work)
      exact ⟨hext, forall_mem_cons.mpr ⟨hext.live k hk, hmem⟩⟩
    next hk =>
      obtain ⟨hext, hmem⟩ := ih hks.2 (k :: live, k :: work)
      refine ⟨.trans ?_ hext, forall_mem_cons.mpr ⟨hext.live k mem_cons_self, hmem⟩⟩
      refine ⟨fun x hx => mem_cons_of_mem _ hx, fun x hx => mem_cons_of_mem _ hx, ?_, ?_⟩
      · intro x hx
        rcases mem_cons.mp hx with rfl | hx
        · exact .inr mem_cons_self
        · exact .inl hx
      · have := missing_cons hks.1 hk
        dsimp only [length_cons]
        omega

/-- The inputs of the operation are live, or the flags it returns are about to be. -/
def Settled (ctx : DceContext) (s : List ValueId × List ValueId) (op : MedOp) : Prop :=
  (∀ k ∈ ctx.liveInputs s.1 op, k ∈ s.1) ∨ ∃ v, ctx.flagResult op = some v ∧ v.valueId ∈ s.2

lemma liveInputs_mono {live' : List ValueId}
    (h : ctx.hasDeadFlags live' op = ctx.hasDeadFlags live op) :
    ctx.liveInputs live' op = ctx.liveInputs live op := by
  unfold liveInputs
  rw [h]

/-- Where the flags that an operation returns become live, they are in the worklist. -/
theorem flags_fresh (hext : Extends values s s')
    (hchange : ¬ ctx.hasDeadFlags s'.1 op = ctx.hasDeadFlags s.1 op) :
    ∃ v, ctx.flagResult op = some v ∧ v.valueId ∈ s'.2 := by
  unfold hasDeadFlags at hchange
  cases hflags : ctx.flagResult op with
  | none =>
    rw [hflags] at hchange
    exact absurd rfl hchange
  | some v =>
    rw [hflags] at hchange
    refine ⟨v, rfl, ?_⟩
    by_cases hold : v.valueId ∈ s.1
    · exact absurd (by simp [hold, hext.live _ hold]) hchange
    · by_cases hnew : v.valueId ∈ s'.1
      · exact (hext.fresh _ hnew).resolve_left hold
      · exact absurd (by simp [hold, hnew]) hchange

lemma Settled.extend (h : Settled ctx s op) (hext : Extends values s s') : Settled ctx s' op := by
  rcases h with h | ⟨v, hv, hwork⟩
  · by_cases hsame : ctx.hasDeadFlags s'.1 op = ctx.hasDeadFlags s.1 op
    · apply Or.inl
      rw [liveInputs_mono hsame]
      exact fun k hk => hext.live k (h k hk)
    · exact .inr (flags_fresh hext hsame)
  · exact .inr ⟨v, hv, hext.work _ hwork⟩

lemma liveInputs_subset {k : ValueId} (h : k ∈ ctx.liveInputs live op) :
    ∃ v ∈ op.operands, 0 ≤ v.id ∧ v.valueId = k := by
  obtain ⟨e, he, rfl⟩ := mem_map.mp h
  obtain ⟨hmem, hcond⟩ := mem_filter.mp he
  exact ⟨e.1, (mem_zipIdx' hmem).2 ▸ getElem_mem _, (of_decide_eq_true hcond).1, rfl⟩

lemma extends_settle (ctx : DceContext) (hop : ∀ v ∈ op.operands, v.valueId ∈ values)
    (s : List ValueId × List ValueId) : Extends values s (insertLive (ctx.liveInputs s.1 op) s) ∧
      Settled ctx (insertLive (ctx.liveInputs s.1 op) s) op := by
  have hvalues : ∀ k ∈ ctx.liveInputs s.1 op, k ∈ values := by
    intro k hk
    obtain ⟨v, hv, -, rfl⟩ := liveInputs_subset hk
    exact hop v hv
  obtain ⟨hext, hmem⟩ := extends_insertLive hvalues s
  refine ⟨hext, ?_⟩
  by_cases hsame : ctx.hasDeadFlags (insertLive (ctx.liveInputs s.1 op) s).1 op =
    ctx.hasDeadFlags s.1 op
  · apply Or.inl
    rw [liveInputs_mono hsame]
    exact hmem
  · -- The operation reads the flags it returns, which are live now.
    exact .inr (flags_fresh hext hsame)

lemma extends_markDefinitions (ctx : DceContext) (k : ValueId) {ops : List MedOp}
    (hops : ∀ op ∈ ops, ∀ v ∈ op.operands, v.valueId ∈ values) (s : List ValueId × List ValueId) :
      Extends values s (ctx.markDefinitions k ops s) ∧
      ∀ op ∈ ops, ctx.definesValue k op = true → Settled ctx (ctx.markDefinitions k ops s) op := by
  induction ops generalizing s with
  | nil => exact ⟨.refl s, forall_mem_nil _⟩
  | cons op rest ih =>
    rw [forall_mem_cons] at hops
    unfold markDefinitions
    split
    · obtain ⟨hext, hsettled⟩ := extends_settle ctx hops.1 s
      obtain ⟨hrest, hall⟩ := ih hops.2 (insertLive (ctx.liveInputs s.1 op) s)
      exact ⟨hext.trans hrest, forall_mem_cons.mpr ⟨fun _ => hsettled.extend hrest, hall⟩⟩
    next hno =>
      obtain ⟨hrest, hall⟩ := ih hops.2 s
      exact ⟨hrest, forall_mem_cons.mpr ⟨fun hyes => absurd hyes hno, hall⟩⟩

lemma extends_markEssential (ctx : DceContext) {ops : List MedOp}
    (hops : ∀ op ∈ ops, ∀ v ∈ op.operands, v.valueId ∈ values)
    (s : List ValueId × List ValueId) : Extends values s (ctx.markEssential ops s) ∧
      ∀ op ∈ ops, op.isEssential = true → Settled ctx (ctx.markEssential ops s) op := by
  induction ops generalizing s with
  | nil => exact ⟨.refl s, forall_mem_nil _⟩
  | cons op rest ih =>
    rw [forall_mem_cons] at hops
    unfold markEssential
    split
    · obtain ⟨hext, hsettled⟩ := extends_settle ctx hops.1 s
      obtain ⟨hrest, hall⟩ := ih hops.2 (insertLive (ctx.liveInputs s.1 op) s)
      exact ⟨hext.trans hrest, forall_mem_cons.mpr ⟨fun _ => hsettled.extend hrest, hall⟩⟩
    next hno =>
      obtain ⟨hrest, hall⟩ := ih hops.2 s
      exact ⟨hrest, forall_mem_cons.mpr ⟨fun hyes => absurd hyes hno, hall⟩⟩

/-- Everything that is read by what is live is live. -/
structure Closed (ctx : DceContext) (f : MedFunc) (live : List ValueId) : Prop where
  essential : ∀ op ∈ f.blocks.flatMap (·.ops), op.isEssential = true →
    ∀ k ∈ ctx.liveInputs live op, k ∈ live
  defined : ∀ op ∈ f.blocks.flatMap (·.ops), ∀ k ∈ live, ctx.definesValue k op = true →
    ∀ k' ∈ ctx.liveInputs live op, k' ∈ live
  phis : ∀ k ∈ live, ∀ k' ∈ phiInputs f k, k' ∈ live

structure Pending (ctx : DceContext) (f : MedFunc) (s : List ValueId × List ValueId) : Prop where
  essential : ∀ op ∈ f.blocks.flatMap (·.ops), op.isEssential = true → Settled ctx s op
  defined : ∀ k ∈ s.1, k ∈ s.2 ∨
      ((∀ op ∈ f.blocks.flatMap (·.ops), ctx.definesValue k op = true → Settled ctx s op) ∧
      ∀ k' ∈ phiInputs f k, k' ∈ s.1)

def readValues (f : MedFunc) : List ValueId :=
  ((f.blocks.flatMap (·.ops)).flatMap fun op => op.operands.map (·.valueId)) ++
    (f.blocks.flatMap (·.phis)).flatMap fun phi => phi.args.map fun e => e.2.valueId

lemma operands_read (f : MedFunc) : ∀ op ∈ f.blocks.flatMap (·.ops), ∀ v ∈ op.operands,
    v.valueId ∈ readValues f :=
  fun op hop _ hv => mem_append_left _ (mem_flatMap.mpr ⟨op, hop, mem_map_of_mem hv⟩)

lemma phiInputs_read {k k' : ValueId} (h : k' ∈ phiInputs f k) : k' ∈ readValues f := by
  obtain ⟨phi, hphi, hk'⟩ := mem_flatMap.mp h
  obtain ⟨e, he, rfl⟩ := mem_map.mp hk'
  apply mem_append_right
  exact mem_flatMap.mpr ⟨phi, (mem_filter.mp hphi).1, mem_map.mpr ⟨e, (mem_filter.mp he).1, rfl⟩⟩

theorem Pending.closed (h : Pending ctx f s) (hnil : s.2 = []) : Closed ctx f s.1 := by
  have hsettled : ∀ op, Settled ctx s op → ∀ k ∈ ctx.liveInputs s.1 op, k ∈ s.1 := by
    rintro op (hop | ⟨v, -, hv⟩)
    · exact hop
    · rw [hnil] at hv
      cases hv
  have hdefined : ∀ k ∈ s.1, (∀ op ∈ f.blocks.flatMap (·.ops), ctx.definesValue k op = true →
      Settled ctx s op) ∧ ∀ k' ∈ phiInputs f k, k' ∈ s.1 := by
    intro k hk
    rcases h.defined k hk with hwork | hdef
    · rw [hnil] at hwork
      cases hwork
    · exact hdef
  refine ⟨fun op hop hess => hsettled op (h.essential op hop hess), ?_,
    fun k hk => (hdefined k hk).2⟩
  exact fun op hop k hk hdef => hsettled op ((hdefined k hk).1 op hop hdef)

lemma propagate_closed {fuel : Nat} (h : Pending ctx f s)
    (hfuel : s.2.length + missing (readValues f) s.1 ≤ fuel) :
    Closed ctx f (ctx.propagate f fuel s) ∧ ∀ k ∈ s.1, k ∈ ctx.propagate f fuel s := by
  induction fuel generalizing s with
  | zero =>
    have hnil : s.2 = [] := eq_nil_of_length_eq_zero (by omega)
    exact ⟨h.closed hnil, fun _ hk => hk⟩
  | succ fuel ih =>
    obtain ⟨live, work⟩ := s
    cases work with
    | nil => exact ⟨h.closed rfl, fun _ hk => hk⟩
    | cons k work =>
      unfold propagate
      have hvalues : ∀ k' ∈ phiInputs f k, k' ∈ readValues f := fun k' => phiInputs_read
      obtain ⟨hphis, hmem⟩ := extends_insertLive hvalues (live, work)
      obtain ⟨hops, hsettled⟩ := extends_markDefinitions ctx k (operands_read f)
        (insertLive (phiInputs f k) (live, work))
      have hext := hphis.trans hops
      generalize ctx.markDefinitions k (f.blocks.flatMap (·.ops))
        (insertLive (phiInputs f k) (live, work)) = next
        at hops hsettled hext ⊢
      -- What was owed to the value that was taken is paid now.
      have hpaid : ∀ op ∈ f.blocks.flatMap (·.ops), Settled ctx (live, k :: work) op →
          Settled ctx next op := by
        rintro op hop (hop' | ⟨v, hv, hwork⟩)
        · exact .extend (.inl hop' : Settled ctx (live, work) op) hext
        · rcases mem_cons.mp hwork with hk | hwork
          · apply hsettled op hop
            apply decide_eq_true
            apply Or.inr
            rw [hv]
            exact decide_eq_true hk
          · exact .extend (.inr ⟨v, hv, hwork⟩ : Settled ctx (live, work) op) hext
      have hnext : Pending ctx f next := by
        refine ⟨fun op hop hess => hpaid op hop (h.essential op hop hess), ?_⟩
        intro k' hk'
        rcases hext.fresh k' hk' with hold | hwork
        · by_cases hk : k' = k
          · rw [hk]
            exact .inr ⟨hsettled, fun x hx => hops.live x (hmem x hx)⟩
          · rcases h.defined k' hold with hwork | ⟨hdef, hphi⟩
            · exact .inl (hext.work k' ((mem_cons.mp hwork).resolve_left hk))
            · exact .inr ⟨fun op hop hd => hpaid op hop (hdef op hop hd),
                fun x hx => hext.live x (hphi x hx)⟩
        · exact .inl hwork
      obtain ⟨hclosed, hsub⟩ := ih hnext (by
        have := hext.potential
        dsimp only [length_cons] at hfuel this
        omega)
      exact ⟨hclosed, fun x hx => hsub x (hext.live x hx)⟩

lemma missing_le (f : MedFunc) (live : List ValueId) :
    missing (readValues f) live ≤ propagateFuel f := by
  refine le_trans (length_filter_le _ _) ?_
  unfold readValues propagateFuel
  rw [length_append, length_flatMap, length_flatMap]
  simp only [length_map, Nat.le_refl]

lemma liveDefs_closed (ctx : DceContext) (f : MedFunc) (marked : List MedVar) :
    Closed ctx f (ctx.liveDefs f marked) ∧ ∀ v ∈ marked, ∀ k ∈ f.marks v,
      k ∈ ctx.liveDefs f marked := by
  unfold liveDefs
  generalize hlive : (marked.flatMap f.marks).dedup = live
  obtain ⟨hext, hess⟩ := extends_markEssential ctx (operands_read f) (live, live)
  have hpending : Pending ctx f (ctx.markEssential (f.blocks.flatMap (·.ops)) (live, live)) := by
    refine ⟨hess, ?_⟩
    intro k hk
    rcases hext.fresh k hk with hk | hk
    · exact .inl (hext.work k hk)
    · exact .inl hk
  obtain ⟨hclosed, hsub⟩ := propagate_closed hpending (Nat.add_le_add_left (missing_le f _) _)
  refine ⟨hclosed, ?_⟩
  intro v hv k hk
  apply hsub
  apply hext.live
  rw [← hlive, mem_dedup]
  exact mem_flatMap.mpr ⟨v, hv, hk⟩

end DceContext

end NeverD.Ir
