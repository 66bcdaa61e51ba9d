import NeverD.Sym.Context

namespace NeverD.Sym
open Lib List Nat

namespace SymContext

def identity (ctx : SymContext) (r : SymRef) : SymOp × Nat × List SymRef × Nat :=
  (ctx.op r, ctx.width r, ctx.operands r, ctx.aux r)

structure LeafTables where
  vars : List SymVarInfo
  wideConsts : List APInt
  varByNameAndWidth : String × Nat → Option SymRef
  inputVarByIdentity : InputVariableKey → Option Nat
  varByName : String → Option (Option Nat)
  wideConstByKey : String → Option Nat

def leafTables (ctx : SymContext) : LeafTables :=
  ⟨ctx.vars, ctx.wideConsts, ctx.varByNameAndWidth, ctx.inputVarByIdentity, ctx.varByName,
    ctx.wideConstByKey⟩

inductive Linked (next : List (Option SymRef)) : Option SymRef → SymRef → Prop
  | here (r : SymRef) : Linked next (some r) r
  | step {c r : SymRef} : Linked next (next.getD c none) r → Linked next (some c) r

/-- Nodes refer to earlier nodes and keep their operands inside the pool. -/
structure Acyclic (ctx : SymContext) : Prop where
  pool : ∀ r < ctx.nodes.length, (ctx.node r).firstOperand + (ctx.node r).numOperands ≤
    ctx.operandPool.length
  below : ∀ r < ctx.nodes.length, ∀ c ∈ ctx.operands r, c < r

/-- A later context still has every node, literal and variable under its number. -/
structure Extends (ctx ctx' : SymContext) : Prop where
  nodes : ctx.nodes <+: ctx'.nodes
  pool : ctx.operandPool <+: ctx'.operandPool
  wide : ctx.wideConsts <+: ctx'.wideConsts
  vars : ∀ (id : Nat) (v : SymVarInfo), ctx.vars[id]? = some v →
    ∃ v' : SymVarInfo, ctx'.vars[id]? = some v' ∧ v'.name = v.name ∧ v'.width = v.width ∧
    v'.inputOrigin = v.inputOrigin

lemma Extends.refl (ctx : SymContext) : Extends ctx ctx :=
  ⟨prefix_rfl, prefix_rfl, prefix_rfl, fun _ v h => ⟨v, h, rfl, rfl, rfl⟩⟩

lemma Extends.trans {a b c : SymContext} (h : Extends a b) (h' : Extends b c) : Extends a c := by
  refine ⟨h.nodes.trans h'.nodes, h.pool.trans h'.pool, h.wide.trans h'.wide, ?_⟩
  intro id v hv
  obtain ⟨v₁, hv₁, hn₁, hw₁, ho₁⟩ := h.vars id v hv
  obtain ⟨v₂, hv₂, hn₂, hw₂, ho₂⟩ := h'.vars id v₁ hv₁
  exact ⟨v₂, hv₂, hn₂.trans hn₁, hw₂.trans hw₁, ho₂.trans ho₁⟩

section

variable {ctx ctx' : SymContext} {r : SymRef}

lemma Extends.length_le (h : Extends ctx ctx') : ctx.nodes.length ≤ ctx'.nodes.length :=
  h.nodes.length_le

lemma Extends.node (h : Extends ctx ctx') (hr : r < ctx.nodes.length) :
    ctx'.node r = ctx.node r := by
  obtain ⟨t, ht⟩ := h.nodes
  rw [SymContext.node, SymContext.node, ← ht, List.getD, List.getD, getElem?_append_left hr]

lemma Extends.op (h : Extends ctx ctx') (hr : r < ctx.nodes.length) : ctx'.op r = ctx.op r := by
  rw [SymContext.op, h.node hr, SymContext.op]

variable (h : Extends ctx ctx')
include h

lemma Extends.width (hr : r < ctx.nodes.length) : ctx'.width r = ctx.width r := by
  rw [SymContext.width, h.node hr, SymContext.width]

lemma Extends.aux (hr : r < ctx.nodes.length) : ctx'.aux r = ctx.aux r := by
  rw [SymContext.aux, h.node hr, SymContext.aux]

lemma Extends.operands (hr : r < ctx.nodes.length)
    (hp : (ctx.node r).firstOperand + (ctx.node r).numOperands ≤ ctx.operandPool.length) :
    ctx'.operands r = ctx.operands r := by
  obtain ⟨t, ht⟩ := h.pool
  rw [SymContext.operands, SymContext.operands, h.node hr, ← ht,
    drop_append_of_le_length (by omega), take_append_of_le_length]
  rw [length_drop]
  omega

omit h

end

lemma sameIdentity_iff {ctx : SymContext} {r : SymRef} {op : SymOp} {width aux : Nat}
    {ops : List SymRef}
    (hr : (ctx.node r).firstOperand + (ctx.node r).numOperands ≤ ctx.operandPool.length) :
    ctx.sameIdentity r op width ops aux = true ↔ ctx.identity r = (op, width, ops, aux) := by
  have hlen : (ctx.operands r).length = (ctx.node r).numOperands := by
    rw [operands, length_take, length_drop]
    omega
  simp only [sameIdentity, identity, Bool.and_eq_true, decide_eq_true_eq, Prod.mk.injEq]
  constructor
  · intro ⟨⟨⟨⟨h1, h2⟩, h3⟩, _⟩, h5⟩
    exact ⟨h1, h2, h5, h3⟩
  · intro ⟨h1, h2, h3, h4⟩
    exact ⟨⟨⟨⟨h1, h2⟩, h4⟩, by rw [← hlen, h3]⟩, h3⟩

variable {ctx : SymContext} {op : SymOp} {width aux : Nat} {ops : List SymRef}

variable {cand : Option SymRef}

lemma findInterned_some {fuel : Nat} {r : SymRef}
    (h : ctx.findInterned op width ops aux fuel cand = some r) :
    Linked ctx.internNext cand r ∧ ctx.sameIdentity r op width ops aux = true := by
  induction fuel generalizing cand with
  | zero => cases cand <;> cases h
  | succ fuel ih =>
    cases cand with
    | none => cases h
    | some c =>
      rw [findInterned] at h
      split at h
      next hs =>
        cases h
        exact ⟨.here r, hs⟩
      · exact ⟨.step (ih h).1, (ih h).2⟩

lemma findInterned_none {fuel : Nat} (hlinks : ∀ r c, ctx.internNext.getD r none = some c → c < r)
    (hcand : ∀ c, cand = some c → c < fuel) (h : ctx.findInterned op width ops aux fuel cand = none)
    {r : SymRef}
    (hr : Linked ctx.internNext cand r) : ctx.sameIdentity r op width ops aux = false := by
  induction fuel generalizing cand with
  | zero =>
    cases cand with
    | none => cases hr
    | some c => exact absurd (hcand c rfl) (Nat.not_lt_zero c)
  | succ fuel ih =>
    cases cand with
    | none => cases hr
    | some c =>
      rw [findInterned] at h
      split at h
      · cases h
      next hs =>
        cases hr with
        | here => simpa using hs
        | step hnext =>
          apply ih _ h hnext
          intro d hd
          exact lt_of_lt_of_le (hlinks c d hd) (le_of_lt_succ (hcand c rfl))

theorem Linked.le {next : List (Option SymRef)} (hlinks : ∀ r c, next.getD r none = some c → c < r)
    {r : SymRef} (h : Linked next cand r) : ∃ c, cand = some c ∧ r ≤ c := by
  induction h with
  | here r => exact ⟨r, rfl, le_refl r⟩
  | @step c r _ ih =>
    obtain ⟨d, hd, hle⟩ := ih
    exact ⟨c, rfl, hle.trans (le_of_lt (hlinks c d hd))⟩

theorem Linked.append {next : List (Option SymRef)} (x : Option SymRef) {r : SymRef}
    (h : Linked next cand r) (hcand : ∀ c, cand = some c → c < next.length)
    (hlinks : ∀ r c, next.getD r none = some c → c < r) : Linked (next ++ [x]) cand r := by
  induction h with
  | here r => exact .here r
  | @step c r _ ih =>
    have hc : c < next.length := hcand c rfl
    have hsame : (next ++ [x]).getD c none = next.getD c none := by
      rw [List.getD, List.getD, getElem?_append_left hc]
    apply Linked.step
    rw [hsame]
    exact ih fun d hd => (hlinks c d hd).trans hc

section

variable (ctx : SymContext) (key : InternKey) (r : SymRef)

@[simp] lemma setInternHead_nodes : (ctx.setInternHead key r).nodes = ctx.nodes := by
  unfold setInternHead
  split_ifs <;> rfl

@[simp] lemma setInternHead_operandPool :
    (ctx.setInternHead key r).operandPool = ctx.operandPool := by
  unfold setInternHead
  split_ifs <;> rfl

@[simp] lemma setInternHead_internNext : (ctx.setInternHead key r).internNext = ctx.internNext := by
  unfold setInternHead
  split_ifs <;> rfl

@[simp] lemma setInternHead_leafTables : (ctx.setInternHead key r).leafTables = ctx.leafTables := by
  unfold setInternHead
  split_ifs <;> rfl

/-- The reserved keys have heads of their own, so that each key has exactly one. -/
theorem setInternHead_internHead (key' : InternKey) : (ctx.setInternHead key r).internHead key' =
      if key' = key then some r else ctx.internHead key' := by
  have hne : tombstoneKey ≠ emptyKey := by decide
  unfold setInternHead internHead
  by_cases h1 : key = emptyKey
  · subst h1
    by_cases h2 : key' = emptyKey <;> simp [h2]
  · by_cases h2 : key = tombstoneKey
    · subst h2
      by_cases h3 : key' = emptyKey
      · simp [h3, hne, hne.symm]
      · by_cases h4 : key' = tombstoneKey <;> simp [h3, h4, hne]
    · by_cases h5 : key' = key
      · subst h5
        simp [h1, h2]
      · simp [h1, h2, h5]

end

section

variable (ctx : SymContext) (op : SymOp) (width : Nat) (ops : List SymRef) (aux : Nat)
    (hash : UInt64)

@[simp] lemma appendInterned_nodes : (ctx.appendInterned op width ops aux hash).2.nodes =
    ctx.nodes ++ [⟨op, width, ctx.operandPool.length, ops.length, aux⟩] := by
  simp [appendInterned]

@[simp] lemma appendInterned_operandPool :
    (ctx.appendInterned op width ops aux hash).2.operandPool = ctx.operandPool ++ ops := by
  simp [appendInterned]

@[simp] lemma appendInterned_internNext : (ctx.appendInterned op width ops aux hash).2.internNext =
      ctx.internNext ++ [ctx.internHead (internKey hash)] := by
  simp [appendInterned]

lemma appendInterned_internHead (key : InternKey) :
      (ctx.appendInterned op width ops aux hash).2.internHead key =
      if key = internKey hash then some ctx.nodes.length else ctx.internHead key := by
  rw [appendInterned, setInternHead_internHead]
  rfl

@[simp] lemma appendInterned_leafTables :
    (ctx.appendInterned op width ops aux hash).2.leafTables = ctx.leafTables := by
  rw [appendInterned, setInternHead_leafTables]
  rfl

lemma appendInterned_extends : Extends ctx (ctx.appendInterned op width ops aux hash).2 := by
  have htables := ctx.appendInterned_leafTables op width ops aux hash
  have hwide : (ctx.appendInterned op width ops aux hash).2.wideConsts = ctx.wideConsts :=
    congrArg LeafTables.wideConsts htables
  have hvars : (ctx.appendInterned op width ops aux hash).2.vars = ctx.vars :=
    congrArg LeafTables.vars htables
  refine ⟨?_, ?_, ?_, fun id v hv => ⟨v, ?_, rfl, rfl, rfl⟩⟩
  · rw [appendInterned_nodes]
    exact prefix_append ..
  · rw [appendInterned_operandPool]
    exact prefix_append ..
  · exact hwide ▸ prefix_rfl
  · rw [hvars]
    exact hv

lemma appendInterned_node : (ctx.appendInterned op width ops aux hash).2.node ctx.nodes.length =
    ⟨op, width, ctx.operandPool.length, ops.length, aux⟩ := by
  simp [node]

lemma appendInterned_operands :
    (ctx.appendInterned op width ops aux hash).2.operands ctx.nodes.length = ops := by
  simp [operands, appendInterned_node]

lemma appendInterned_identity :
      (ctx.appendInterned op width ops aux hash).2.identity ctx.nodes.length =
      (op, width, ops, aux) := by
  rw [identity, appendInterned_operands, SymContext.op, SymContext.width, SymContext.aux,
    appendInterned_node]

end

lemma Acyclic.operands_extend {ctx ctx' : SymContext} (h : Acyclic ctx) (he : Extends ctx ctx')
    {r : SymRef} (hr : r < ctx.nodes.length) : ctx'.operands r = ctx.operands r :=
  he.operands hr (h.pool r hr)

lemma Acyclic.identity_extend {ctx ctx' : SymContext} (h : Acyclic ctx) (he : Extends ctx ctx')
    {r : SymRef} (hr : r < ctx.nodes.length) : ctx'.identity r = ctx.identity r := by
  rw [identity, identity, he.op hr, he.width hr, he.aux hr, h.operands_extend he hr]

lemma Acyclic.append {ctx : SymContext} (h : Acyclic ctx) (op : SymOp) (width aux : Nat)
    {ops : List SymRef} (hash : UInt64) (hops : ∀ c ∈ ops, c < ctx.nodes.length) :
    Acyclic (ctx.appendInterned op width ops aux hash).2 := by
  have he := ctx.appendInterned_extends op width ops aux hash
  constructor
  · intro r hr
    rw [appendInterned_nodes, length_append, length_singleton] at hr
    rcases Nat.lt_succ_iff_lt_or_eq.mp hr with hr | rfl
    · rw [he.node hr, appendInterned_operandPool, length_append]
      exact (h.pool r hr).trans (Nat.le_add_right _ _)
    · rw [appendInterned_node, appendInterned_operandPool, length_append]
  · intro r hr c hc
    rw [appendInterned_nodes, length_append, length_singleton] at hr
    rcases Nat.lt_succ_iff_lt_or_eq.mp hr with hr | rfl
    · rw [h.operands_extend he hr] at hc
      exact h.below r hr c hc
    · rw [appendInterned_operands] at hc
      exact hops c hc

variable [BlockHash]

def nodeKey (ctx : SymContext) (r : SymRef) : InternKey :=
  internKey (internHash (ctx.op r) (ctx.width r) (ctx.operands r) (ctx.aux r))

structure Interned (ctx : SymContext) : Prop extends Acyclic ctx where
  linksLength : ctx.internNext.length = ctx.nodes.length
  links : ∀ r c, ctx.internNext.getD r none = some c → c < r
  heads : ∀ key r, ctx.internHead key = some r → r < ctx.nodes.length
  chained : ∀ r < ctx.nodes.length, Linked ctx.internNext (ctx.internHead (ctx.nodeKey r)) r
  unique : ∀ r < ctx.nodes.length, ∀ s < ctx.nodes.length, ctx.identity r = ctx.identity s → r = s

lemma Interned.append {ctx : SymContext} (h : Interned ctx) {op : SymOp} {width aux : Nat}
    {ops : List SymRef} (hops : ∀ c ∈ ops, c < ctx.nodes.length)
    (hnew : ∀ r < ctx.nodes.length, ctx.identity r ≠ (op, width, ops, aux)) :
    Interned (ctx.appendInterned op width ops aux (internHash op width ops aux)).2 := by
  generalize hhash : internHash op width ops aux = hash
  have he := ctx.appendInterned_extends op width ops aux hash
  have hold : ∀ {r}, r < ctx.nodes.length →
      (ctx.appendInterned op width ops aux hash).2.identity r = ctx.identity r :=
    fun hr => h.toAcyclic.identity_extend he hr
  have hlast := ctx.appendInterned_identity op width ops aux hash
  have hlen : (ctx.appendInterned op width ops aux hash).2.nodes.length = ctx.nodes.length + 1 := by
    simp
  have hlinks : ∀ r c, (ctx.internNext ++ [ctx.internHead (internKey hash)]).getD r none = some c →
      c < r := by
    intro r c hc
    rcases Nat.lt_trichotomy r ctx.internNext.length with hr | rfl | hr
    · rw [List.getD, getElem?_append_left hr] at hc
      exact h.links r c hc
    · rw [List.getD, getElem?_concat_length] at hc
      rw [h.linksLength]
      exact h.heads _ c hc
    · rw [List.getD, getElem?_eq_none (by rw [length_append]; exact hr)] at hc
      cases hc
  refine ⟨h.toAcyclic.append op width aux hash hops, ?_, ?_, ?_, ?_, ?_⟩
  · simp [h.linksLength]
  · rw [appendInterned_internNext]
    exact hlinks
  · intro key r hr
    rw [appendInterned_internHead] at hr
    rw [hlen]
    split at hr
    · cases hr
      exact lt_succ_self _
    · exact (h.heads key r hr).trans (lt_succ_self _)
  · -- The new node heads its chain; an older one is reached through it or as before.
    intro r hr
    rw [hlen] at hr
    rw [appendInterned_internNext, appendInterned_internHead]
    rcases Nat.lt_succ_iff_lt_or_eq.mp hr with hr | rfl
    · have hkey : (ctx.appendInterned op width ops aux hash).2.nodeKey r = ctx.nodeKey r := by
        rw [nodeKey, nodeKey, he.op hr, he.width hr, he.aux hr, h.toAcyclic.operands_extend he hr]
      have hchain := (h.chained r hr).append (ctx.internHead (internKey hash))
        (fun c hc => h.linksLength ▸ h.heads _ c hc) h.links
      rw [hkey]
      split
      next hsame =>
        apply Linked.step
        rw [List.getD, ← h.linksLength, getElem?_concat_length]
        rw [hsame] at hchain
        exact hchain
      · exact hchain
    · have hkey : (ctx.appendInterned op width ops aux hash).2.nodeKey ctx.nodes.length =
          internKey hash := by
        simp only [identity, Prod.mk.injEq] at hlast
        rw [nodeKey, hlast.1, hlast.2.1, hlast.2.2.1, hlast.2.2.2, hhash]
      rw [hkey, if_pos rfl]
      exact .here _
  · intro r hr s hs heq
    rw [hlen] at hr hs
    rcases Nat.lt_succ_iff_lt_or_eq.mp hr with hr | rfl <;>
      rcases Nat.lt_succ_iff_lt_or_eq.mp hs with hs | rfl
    · rw [hold hr, hold hs] at heq
      exact h.unique r hr s hs heq
    · rw [hold hr, hlast] at heq
      exact absurd heq (hnew r hr)
    · rw [hold hs, hlast] at heq
      exact absurd heq.symm (hnew s hs)
    · rfl

/-- The result of interning: the one node with the requested identity, in a
context that has at most this node more. -/
structure Filed (ctx : SymContext) (op : SymOp) (width : Nat) (ops : List SymRef) (aux : Nat)
    (r : SymRef) (ctx' : SymContext) : Prop where
  interned : Interned ctx'
  extension : Extends ctx ctx'
  lt : r < ctx'.nodes.length
  identity : ctx'.identity r = (op, width, ops, aux)
  only : ∀ s < ctx'.nodes.length, s < ctx.nodes.length ∨ s = r
  tables : ctx'.leafTables = ctx.leafTables

lemma Interned.filed {ctx : SymContext} (h : Interned ctx) (op : SymOp) (width aux : Nat)
    {ops : List SymRef} (hops : ∀ c ∈ ops, c < ctx.nodes.length) :
    Filed ctx op width ops aux (ctx.intern op width ops aux).1 (ctx.intern op width ops aux).2 := by
  rw [SymContext.intern, internHashed]
  split
  next r hr =>
    obtain ⟨hlinked, hsame⟩ := findInterned_some hr
    obtain ⟨c, hc, hle⟩ := hlinked.le h.links
    have hlt : r < ctx.nodes.length := hle.trans_lt (h.heads _ c hc)
    exact ⟨h, .refl ctx, hlt, (sameIdentity_iff (h.pool r hlt)).mp hsame, fun s hs => .inl hs, rfl⟩
  next hnone =>
    have hnew : ∀ r < ctx.nodes.length, ctx.identity r ≠ (op, width, ops, aux) := by
      intro r hr heq
      have hkey : ctx.nodeKey r = internKey (internHash op width ops aux) := by
        simp only [SymContext.identity, Prod.mk.injEq] at heq
        rw [nodeKey, heq.1, heq.2.1, heq.2.2.1, heq.2.2.2]
      have hmiss :=
        findInterned_none h.links (fun c hc => h.heads _ c hc) hnone (hkey ▸ h.chained r hr)
      rw [(sameIdentity_iff (h.pool r hr)).mpr heq] at hmiss
      cases hmiss
    refine ⟨h.append hops hnew, appendInterned_extends .., ?_, appendInterned_identity .., ?_,
      appendInterned_leafTables ..⟩
    · rw [appendInterned_nodes, length_append]
      exact lt_succ_self _
    · intro s hs
      rw [appendInterned_nodes, length_append, length_singleton] at hs
      exact Nat.lt_succ_iff_lt_or_eq.mp hs

end SymContext

end NeverD.Sym
