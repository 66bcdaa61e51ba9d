import Mathlib.Algebra.Order.Group.Nat
import Mathlib.Data.List.Nodup
import Mathlib.Data.List.Perm.Subperm
import NeverD.Sym.Intern

namespace NeverD.Sym
open Lib List Function Nat

variable {r : SymRef} {id : Nat} {v : SymVarInfo}

/-- Numbers in decimal, each after a colon. -/
def colonJoined (ws : List Nat) : List Char := ws.flatMap fun w => ':' :: Nat.toDigits 10 w

lemma takeWhile_digits (w : Nat) (ws : List Nat) :
    (Nat.toDigits 10 w ++ colonJoined ws).takeWhile Char.isDigit = Nat.toDigits 10 w := by
  have hrest : (colonJoined ws).takeWhile Char.isDigit = [] := by
    cases ws with
    | nil => rfl
    | cons x xs =>
      rw [colonJoined, flatMap_cons, cons_append]
      exact takeWhile_cons_of_neg (by decide)
  rw [takeWhile_append_of_pos, hrest, append_nil]
  intro c hc
  exact isDigit_of_mem_toDigits (by decide) (by decide) hc

lemma toDigits_inj {v w : Nat} (h : Nat.toDigits 10 v = Nat.toDigits 10 w) : v = w := by
  rw [← ofDigitChars_ten_toDigits (n := v), h, ofDigitChars_ten_toDigits]

lemma colonJoined_inj {v w : Nat} {vs ws : List Nat}
    (h : Nat.toDigits 10 v ++ colonJoined vs = Nat.toDigits 10 w ++ colonJoined ws) :
    v = w ∧ vs = ws := by
  induction vs generalizing v w ws with
  | nil =>
    have hd := congrArg (List.takeWhile Char.isDigit) h
    rw [takeWhile_digits, takeWhile_digits] at hd
    rw [hd] at h
    have hr := append_cancel_left h
    cases ws with
    | nil => exact ⟨toDigits_inj hd, rfl⟩
    | cons x xs => cases hr
  | cons x xs ih =>
    have hd := congrArg (List.takeWhile Char.isDigit) h
    rw [takeWhile_digits, takeWhile_digits] at hd
    rw [hd] at h
    have hr := append_cancel_left h
    cases ws with
    | nil => cases hr
    | cons y ys =>
      obtain ⟨rfl, rfl⟩ := ih (List.cons.inj hr).2
      exact ⟨toDigits_inj hd, rfl⟩

lemma wideConstKey_toList (v : APInt) :
    (wideConstKey v).toList = Nat.toDigits 10 v.width ++ colonJoined v.rawData := by
  have hfold : ∀ (ws : List Nat) (key : String),
        (ws.foldl (fun key w => key ++ ":" ++ toString w) key).toList =
        key.toList ++ colonJoined ws := by
    intro ws
    induction ws with
    | nil => intro key; simp [colonJoined]
    | cons w ws ih =>
      intro key
      rw [foldl_cons, ih]
      simp [colonJoined]
  rw [wideConstKey, hfold]
  simp

lemma wideConstKey_inj {v w : APInt} (h : wideConstKey v = wideConstKey w) : v = w := by
  have hl := congrArg String.toList h
  rw [wideConstKey_toList, wideConstKey_toList] at hl
  obtain ⟨hw, hd⟩ := colonJoined_inj hl
  exact APInt.eq_of_rawData hw hd

namespace SymContext

structure NodeOk (ctx : SymContext) (op : SymOp) (width : Nat) (ops : List SymRef) (aux : Nat) :
    Prop where
  positive : 0 < width
  leaf : op = .const ∨ op = .var → ops = []
  narrow : op = .const → width ≤ 64 → aux < 2 ^ width
  wide : op = .const → 64 < width → ∃ v, ctx.wideConsts[aux]? = some v ∧ v.width = width
  var : op = .var → ∃ v, ctx.vars[aux]? = some v ∧ v.width = width

variable {ctx ctx' : SymContext} {width : Nat}

lemma NodeOk.extend (he : Extends ctx ctx') {op : SymOp}
    {aux : Nat} {ops : List SymRef} (h : ctx.NodeOk op width ops aux) :
    ctx'.NodeOk op width ops aux := by
  refine ⟨h.positive, h.leaf, h.narrow, fun ho hw => ?_, fun ho => ?_⟩
  · obtain ⟨v, hv, hvw⟩ := h.wide ho hw
    obtain ⟨t, ht⟩ := he.wide
    refine ⟨v, ?_, hvw⟩
    rw [← ht, getElem?_append_left (List.getElem?_eq_some_iff.mp hv).1, hv]
  · obtain ⟨v, hv, hvw⟩ := h.var ho
    obtain ⟨v', hv', -, hw', -⟩ := he.vars _ v hv
    exact ⟨v', hv', hw'.trans hvw⟩

/-- The tables of literals and variables agree with the nodes and the pools. -/
structure Leaves (ctx : SymContext) : Prop where
  nodes : ∀ r < ctx.nodes.length, ctx.NodeOk (ctx.op r) (ctx.width r) (ctx.operands r) (ctx.aux r)
  slots : ∀ key slot, ctx.wideConstByKey key = some slot → ∃ v, ctx.wideConsts[slot]? = some v ∧
    wideConstKey v = key
  filed : ∀ (slot : Nat) (v : APInt), ctx.wideConsts[slot]? = some v →
    ctx.wideConstByKey (wideConstKey v) = some slot
  named : ∀ name w r, ctx.varByNameAndWidth (name, w) = some r →
    r < ctx.nodes.length ∧ ctx.op r = .var ∧ ctx.width r = w
  inputs : ∀ key id, ctx.inputVarByIdentity key = some id → ∃ v, ctx.vars[id]? = some v ∧
    v.width = key.width
  names : ∀ name, (ctx.varByName name).isSome → ∃ v ∈ ctx.vars, v.name = name
  declared : ∀ v ∈ ctx.vars, 0 < v.width

variable [BlockHash]

structure Ok (ctx : SymContext) : Prop extends Interned ctx, Leaves ctx

lemma init_ok : Ok {} := by
  refine ⟨⟨⟨?_, ?_⟩, rfl, ?_, ?_, ?_, ?_⟩, ⟨?_, ?_, ?_, ?_, ?_, ?_, ?_⟩⟩
  · intro r hr
    cases hr
  · intro r hr
    cases hr
  · intro r c hc
    simp at hc
  · intro key r hr
    simp [internHead] at hr
  · intro r hr
    cases hr
  · intro r hr
    cases hr
  · intro r hr
    cases hr
  · intro key slot h
    cases h
  · intro slot v h
    cases h
  · intro name w r h
    cases h
  · intro key id h
    cases h
  · intro name h
    cases h
  · intro v h
    cases h

lemma Ok.intern (h : Ok ctx) {op : SymOp} {aux : Nat} {ops : List SymRef}
    (hops : ∀ c ∈ ops, c < ctx.nodes.length)
    (hnode : ctx.NodeOk op width ops aux) : Ok (ctx.intern op width ops aux).2 ∧
      Filed ctx op width ops aux (ctx.intern op width ops aux).1
        (ctx.intern op width ops aux).2 := by
  have hf := h.toInterned.filed op width aux hops
  generalize ctx.intern op width ops aux = res at hf ⊢
  obtain ⟨r, ctx'⟩ := res
  have hvars : ctx'.vars = ctx.vars := congrArg LeafTables.vars hf.tables
  have hwide : ctx'.wideConsts = ctx.wideConsts := congrArg LeafTables.wideConsts hf.tables
  have hkeys : ctx'.wideConstByKey = ctx.wideConstByKey :=
    congrArg LeafTables.wideConstByKey hf.tables
  have hnamed : ctx'.varByNameAndWidth = ctx.varByNameAndWidth :=
    congrArg LeafTables.varByNameAndWidth hf.tables
  have hinputs : ctx'.inputVarByIdentity = ctx.inputVarByIdentity :=
    congrArg LeafTables.inputVarByIdentity hf.tables
  have hnames : ctx'.varByName = ctx.varByName := congrArg LeafTables.varByName hf.tables
  refine ⟨⟨hf.interned, ?_, ?_, ?_, ?_, ?_, ?_, ?_⟩, hf⟩
  · intro s hs
    rcases hf.only s hs with hold | rfl
    · rw [hf.extension.op hold, hf.extension.width hold, hf.extension.aux hold,
        h.toAcyclic.operands_extend hf.extension hold]
      exact (h.nodes s hold).extend hf.extension
    · have hid := hf.identity
      simp only [SymContext.identity, Prod.mk.injEq] at hid
      rw [hid.1, hid.2.1, hid.2.2.1, hid.2.2.2]
      exact hnode.extend hf.extension
  · rw [hkeys, hwide]
    exact h.slots
  · rw [hkeys, hwide]
    exact h.filed
  · intro name w s hs
    rw [hnamed] at hs
    obtain ⟨h1, h2, h3⟩ := h.named name w s hs
    exact ⟨h1.trans_le hf.extension.length_le, (hf.extension.op h1).trans h2,
      (hf.extension.width h1).trans h3⟩
  · rw [hinputs, hvars]
    exact h.inputs
  · rw [hnames, hvars]
    exact h.names
  · rw [hvars]
    exact h.declared

theorem Interned.tables (h : Interned ctx) (hn : ctx'.nodes = ctx.nodes)
    (hp : ctx'.operandPool = ctx.operandPool) (ht : ctx'.internTable = ctx.internTable)
    (hr : ctx'.reservedInternHeads = ctx.reservedInternHeads)
    (hx : ctx'.internNext = ctx.internNext) : Interned ctx' := by
  obtain ⟨nodes, pool, _, _, table, reserved, next, _⟩ := ctx'
  obtain rfl : nodes = ctx.nodes := hn
  obtain rfl : pool = ctx.operandPool := hp
  obtain rfl : table = ctx.internTable := ht
  obtain rfl : reserved = ctx.reservedInternHeads := hr
  obtain rfl : next = ctx.internNext := hx
  exact ⟨⟨h.pool, h.below⟩, h.linksLength, h.links, h.heads, h.chained, h.unique⟩

lemma Ok.wideSlot (h : Ok ctx) (v : APInt) :
      Ok (ctx.wideSlot v).2 ∧ Extends ctx (ctx.wideSlot v).2 ∧
      (ctx.wideSlot v).2.wideConsts[(ctx.wideSlot v).1]? = some v := by
  unfold SymContext.wideSlot
  cases hkey : ctx.wideConstByKey (wideConstKey v) with
  | some slot =>
    obtain ⟨w, hw, hsame⟩ := h.slots _ slot hkey
    rw [← wideConstKey_inj hsame]
    exact ⟨h, .refl ctx, hw⟩
  | none =>
    have he : Extends ctx { ctx with
        wideConsts := ctx.wideConsts ++ [v]
        wideConstByKey :=
          Function.update ctx.wideConstByKey (wideConstKey v) (some ctx.wideConsts.length) } :=
      ⟨prefix_rfl, prefix_rfl, prefix_append .., fun _ x hx => ⟨x, hx, rfl, rfl, rfl⟩⟩
    refine ⟨⟨h.toInterned.tables rfl rfl rfl rfl rfl, fun r hr => (h.nodes r hr).extend he, ?_, ?_,
      h.named, h.inputs, h.names, h.declared⟩, he, getElem?_concat_length⟩
    · intro key slot hslot
      dsimp only at hslot ⊢
      by_cases hk : key = wideConstKey v
      · rw [hk, update_self, Option.some.injEq] at hslot
        exact ⟨v, hslot ▸ getElem?_concat_length, hk.symm⟩
      · rw [update_of_ne hk] at hslot
        obtain ⟨w, hw, hsame⟩ := h.slots key slot hslot
        refine ⟨w, ?_, hsame⟩
        rw [getElem?_append_left (List.getElem?_eq_some_iff.mp hw).1, hw]
    · intro slot w hw
      dsimp only at hw ⊢
      by_cases hs : slot < ctx.wideConsts.length
      · rw [getElem?_append_left hs] at hw
        have hold := h.filed slot w hw
        rw [update_of_ne, hold]
        intro hk
        rw [hk, hkey] at hold
        cases hold
      · rw [getElem?_append_right (not_lt.mp hs), getElem?_singleton] at hw
        split at hw
        · cases hw
          rw [update_self]
          congr 1
          omega
        · cases hw

omit [BlockHash] in
lemma and_ones_shiftRight (val : UInt64) (h0 : width ≠ 0) (h : width ≤ 64) :
    (val &&& ((0xFFFFFFFFFFFFFFFF : UInt64) >>> UInt64.ofNat (64 - width))).toNat =
    val.toNat % 2 ^ width := by
  have hshift : (UInt64.ofNat (64 - width)).toNat % 64 = 64 - width := by
    rw [UInt64.toNat_ofNat']
    omega
  have hones : (0xFFFFFFFFFFFFFFFF : UInt64).toNat = 2 ^ 64 - 1 := rfl
  have hmask : (2 ^ 64 - 1) >>> (64 - width) = 2 ^ width - 1 := by
    apply eq_of_testBit_eq
    intro i
    rw [testBit_shiftRight, testBit_two_pow_sub_one, testBit_two_pow_sub_one]
    congr 1
    apply propext
    omega
  rw [UInt64.toNat_and, UInt64.toNat_shiftRight, hshift, hones, hmask, and_two_pow_sub_one_eq_mod]

def IsLiteral (ctx : SymContext) (r : SymRef) (v : APInt) : Prop :=
  r < ctx.nodes.length ∧ ctx.op r = .const ∧ ctx.width r = v.width ∧ ctx.constValue r = v

lemma Filed.isLiteral_narrow {aux : Nat} (h : Filed ctx .const width [] aux r ctx')
    (hw : width ≤ 64) : ctx'.IsLiteral r (APInt.ofNat width aux) := by
  have hid := h.identity
  simp only [SymContext.identity, Prod.mk.injEq] at hid
  refine ⟨h.lt, hid.1, hid.2.1, ?_⟩
  rw [constValue, hid.2.1, hid.2.2.2, if_pos hw]

lemma Filed.isLiteral_wide {slot : Nat} {v : APInt}
    (h : Filed ctx .const v.width [] slot r ctx') (hw : 64 < v.width)
    (hv : ctx.wideConsts[slot]? = some v) : ctx'.IsLiteral r v := by
  have hid := h.identity
  simp only [SymContext.identity, Prod.mk.injEq] at hid
  have hwide : ctx'.wideConsts = ctx.wideConsts := congrArg LeafTables.wideConsts h.tables
  refine ⟨h.lt, hid.1, hid.2.1, ?_⟩
  rw [constValue, hid.2.1, hid.2.2.2, if_neg (Nat.not_le_of_lt hw), hwide, List.getD, hv]
  rfl

lemma Ok.mkConst (h : Ok ctx) {v : APInt} (hv : 0 < v.width) :
    Ok (ctx.mkConst v).2 ∧ Extends ctx (ctx.mkConst v).2 ∧
      (ctx.mkConst v).2.IsLiteral (ctx.mkConst v).1 v := by
  unfold SymContext.mkConst
  split
  next hw =>
    have hnode : ctx.NodeOk .const v.width [] v.toNat :=
      ⟨hv, fun _ => rfl, fun _ _ => v.toNat_lt, fun _ hlt =>
        absurd hw (Nat.not_le_of_lt hlt), fun ho => (nomatch ho)⟩
    obtain ⟨hok, hf⟩ := h.intern (forall_mem_nil _) hnode
    have hlit := hf.isLiteral_narrow hw
    rw [APInt.ofNat_self] at hlit
    exact ⟨hok, hf.extension, hlit⟩
  next hw =>
    obtain ⟨hok₁, he₁, hslot⟩ := h.wideSlot v
    have hnode : (ctx.wideSlot v).2.NodeOk .const v.width [] (ctx.wideSlot v).1 :=
      ⟨hv, fun _ => rfl, fun _ hle =>
        absurd hle hw, fun _ _ => ⟨v, hslot, rfl⟩, fun ho => (nomatch ho)⟩
    obtain ⟨hok, hf⟩ := hok₁.intern (forall_mem_nil _) hnode
    exact ⟨hok, he₁.trans hf.extension, hf.isLiteral_wide (not_le.mp hw) hslot⟩

lemma Ok.mkConstWord (h : Ok ctx) (hw : 0 < width)
    (val : UInt64) : Ok (ctx.mkConstWord width val).2 ∧ Extends ctx (ctx.mkConstWord width val).2 ∧
      (ctx.mkConstWord width val).2.IsLiteral (ctx.mkConstWord width val).1
      (APInt.ofNat width val.toNat) := by
  unfold SymContext.mkConstWord
  split
  next hn =>
    rw [and_ones_shiftRight val hn.1 hn.2]
    have hnode : ctx.NodeOk .const width [] (val.toNat % 2 ^ width) :=
      ⟨hw, fun _ => rfl, fun _ _ => mod_lt _ (Nat.two_pow_pos width),
        fun _ hlt => absurd hn.2 (Nat.not_le_of_lt hlt), fun ho => (nomatch ho)⟩
    obtain ⟨hok, hf⟩ := h.intern (forall_mem_nil _) hnode
    have hlit := hf.isLiteral_narrow hn.2
    have hmod : APInt.ofNat width (val.toNat % 2 ^ width) = APInt.ofNat width val.toNat :=
      APInt.ext rfl (by simp)
    rw [hmod] at hlit
    exact ⟨hok, hf.extension, hlit⟩
  · exact h.mkConst hw

def IsVariable (ctx : SymContext) (r : SymRef) (id width : Nat) : Prop :=
  r < ctx.nodes.length ∧ ctx.op r = .var ∧ ctx.width r = width ∧ ctx.aux r = id

lemma Filed.isVariable (h : Filed ctx .var width [] id r ctx') : ctx'.IsVariable r id width := by
  have hid := h.identity
  simp only [SymContext.identity, Prod.mk.injEq] at hid
  exact ⟨h.lt, hid.1, hid.2.1, hid.2.2.2⟩

omit [BlockHash] in
lemma nodeOk_var (hw : 0 < width)
    (hv : ctx.vars[id]? = some v) (hvw : v.width = width) : ctx.NodeOk .var width [] id :=
  ⟨hw, fun _ => rfl, fun ho => (nomatch ho), fun ho => (nomatch ho), fun _ => ⟨v, hv, hvw⟩⟩

omit [BlockHash] in
lemma pushVar_eq (ctx : SymContext) (v : SymVarInfo) : ∃ names : String → Option (Option Nat),
    ctx.pushVar v = { ctx with vars := ctx.vars ++ [v], varByName := names } ∧
      ∀ name, (names name).isSome → (ctx.varByName name).isSome ∨ name = v.name := by
  have hupdate : ∀ x : Option (Option Nat), ∀ name,
        (Function.update ctx.varByName v.name x name).isSome →
        (ctx.varByName name).isSome ∨ name = v.name := by
    intro x name hn
    by_cases he : name = v.name
    · exact .inr he
    · rw [update_of_ne he] at hn
      exact .inl hn
  unfold pushVar recordVariableName
  split
  · exact ⟨_, rfl, hupdate _⟩
  · split
    · exact ⟨_, rfl, hupdate _⟩
    · exact ⟨ctx.varByName, rfl, fun name hn => .inl hn⟩

lemma Ok.pushVar (h : Ok ctx) (hw : 0 < v.width) :
    Ok (ctx.pushVar v) ∧ Extends ctx (ctx.pushVar v) ∧
      (ctx.pushVar v).vars[ctx.vars.length]? = some v := by
  obtain ⟨names, heq, hnames⟩ := ctx.pushVar_eq v
  have he : Extends ctx { ctx with vars := ctx.vars ++ [v], varByName := names } := by
    refine ⟨prefix_rfl, prefix_rfl, prefix_rfl, fun id x hx => ⟨x, ?_, rfl, rfl, rfl⟩⟩
    rw [getElem?_append_left (List.getElem?_eq_some_iff.mp hx).1, hx]
  rw [heq]
  refine ⟨⟨h.toInterned.tables rfl rfl rfl rfl rfl, fun r hr => (h.nodes r hr).extend he, h.slots,
    h.filed, h.named, ?_, ?_, ?_⟩, he, getElem?_concat_length⟩
  · intro key id hid
    obtain ⟨x, hx, hw⟩ := h.inputs key id hid
    obtain ⟨x', hx', -, hw', -⟩ := he.vars id x hx
    exact ⟨x', hx', hw'.trans hw⟩
  · intro name hn
    rcases hnames name hn with hold | rfl
    · obtain ⟨x, hx, hxn⟩ := h.names name hold
      exact ⟨x, mem_append_left _ hx, hxn⟩
    · exact ⟨v, mem_append_right _ mem_cons_self, rfl⟩
  · intro x hx
    rcases mem_append.mp hx with hx | hx
    · exact h.declared x hx
    · rw [mem_singleton.mp hx]
      exact hw

lemma Ok.withName (h : Ok ctx) {name : String}
    (hlt : r < ctx.nodes.length) (hop : ctx.op r = .var) (hw : ctx.width r = width) : Ok { ctx with
      varByNameAndWidth := Function.update ctx.varByNameAndWidth (name, width) (some r) } := by
  have he : Extends ctx { ctx with
      varByNameAndWidth := Function.update ctx.varByNameAndWidth (name, width) (some r) } :=
    ⟨prefix_rfl, prefix_rfl, prefix_rfl, fun _ v hv => ⟨v, hv, rfl, rfl, rfl⟩⟩
  refine ⟨h.toInterned.tables rfl rfl rfl rfl rfl, fun s hs => (h.nodes s hs).extend he, h.slots,
    h.filed, fun name' w s hs => ?_, h.inputs, h.names, h.declared⟩
  dsimp only at hs
  by_cases heq : (name', w) = (name, width)
  · rw [heq, update_self, Option.some.injEq] at hs
    cases heq
    rw [← hs]
    exact ⟨hlt, hop, hw⟩
  · rw [update_of_ne heq] at hs
    exact h.named name' w s hs

lemma Ok.withInput (h : Ok ctx) {k : InputVariableKey} (hv : ctx.vars[id]? = some v)
    (hw : v.width = k.width) :
    Ok { ctx with inputVarByIdentity := Function.update ctx.inputVarByIdentity k (some id) } ∧
      Extends ctx { ctx with
        inputVarByIdentity := Function.update ctx.inputVarByIdentity k (some id) } := by
  have he : Extends ctx { ctx with
      inputVarByIdentity := Function.update ctx.inputVarByIdentity k (some id) } :=
    ⟨prefix_rfl, prefix_rfl, prefix_rfl, fun _ v hv => ⟨v, hv, rfl, rfl, rfl⟩⟩
  refine ⟨⟨h.toInterned.tables rfl rfl rfl rfl rfl, fun s hs => (h.nodes s hs).extend he, h.slots,
    h.filed, h.named, fun k' id' hid => ?_, h.names, h.declared⟩, he⟩
  dsimp only at hid
  by_cases heq : k' = k
  · rw [heq, update_self, Option.some.injEq] at hid
    exact ⟨v, hid ▸ hv, heq ▸ hw⟩
  · rw [update_of_ne heq] at hid
    exact h.inputs k' id' hid

structure Made (ctx : SymContext) (r : SymRef) (ctx' : SymContext) : Prop where
  ok : Ok ctx'
  extension : Extends ctx ctx'
  lt : r < ctx'.nodes.length

lemma Ok.mkVar (h : Ok ctx) (name : String) (hw : 0 < width) :
    Made ctx (ctx.mkVar name width).1 (ctx.mkVar name width).2 ∧
      (ctx.mkVar name width).2.op (ctx.mkVar name width).1 = .var ∧
      (ctx.mkVar name width).2.width (ctx.mkVar name width).1 = width := by
  unfold SymContext.mkVar
  cases hknown : ctx.varByNameAndWidth (name, width) with
  | some r =>
    obtain ⟨hlt, hop⟩ := h.named name width r hknown
    exact ⟨⟨h, .refl ctx, hlt⟩, hop⟩
  | none =>
    obtain ⟨hok₁, he₁, hpush⟩ := h.pushVar (v := { name := name, width := width }) hw
    obtain ⟨hok₂, hf⟩ := hok₁.intern (forall_mem_nil _) (nodeOk_var hw hpush rfl)
    obtain ⟨hlt, hop, hvw, -⟩ := hf.isVariable
    have he := he₁.trans hf.extension
    exact ⟨⟨hok₂.withName hlt hop hvw, ⟨he.nodes, he.pool, he.wide, he.vars⟩, hlt⟩, hop, hvw⟩

lemma Ok.declareInput (h : Ok ctx) (name : String) (hw : 0 < width) (origin : SymInputOrigin) :
    Made ctx (ctx.declareInput name width origin).1 (ctx.declareInput name width origin).2 := by
  unfold SymContext.declareInput
  cases hknown : ctx.inputVarByIdentity ⟨name, width, origin⟩ with
  | some id =>
    obtain ⟨v, hv, hvw⟩ := h.inputs _ id hknown
    obtain ⟨hok, hf⟩ := h.intern (forall_mem_nil _) (nodeOk_var hw hv hvw)
    exact ⟨hok, hf.extension, hf.lt⟩
  | none =>
    obtain ⟨hok₁, he₁, hpush⟩ :=
      h.pushVar (v := { name := name, width := width, inputOrigin := some origin }) hw
    obtain ⟨hok₂, he₂⟩ := hok₁.withInput (k := ⟨name, width, origin⟩) hpush rfl
    obtain ⟨hok, hf⟩ := hok₂.intern (forall_mem_nil _) (nodeOk_var hw hpush rfl)
    exact ⟨hok, (he₁.trans he₂).trans hf.extension, hf.lt⟩

lemma Ok.varRef (h : Ok ctx) (hr : ctx.varRef id = some (r, ctx')) : Made ctx r ctx' := by
  obtain ⟨v, hv, heq⟩ := Option.map_eq_some_iff.mp hr
  obtain ⟨hok, hf⟩ :=
    h.intern (forall_mem_nil _) (nodeOk_var (h.declared v (mem_of_getElem? hv)) hv rfl)
  rw [heq] at hok hf
  exact ⟨hok, hf.extension, hf.lt⟩

omit [BlockHash] in
theorem freshName_taken {stem : String} {fuel counter : Nat}
    (h : (ctx.varByName (ctx.freshName stem fuel counter).1).isSome) :
    ∀ i ≤ fuel, (ctx.varByName (stem ++ toString (counter + i))).isSome := by
  induction fuel generalizing counter with
  | zero =>
    intro i hi
    obtain rfl : i = 0 := le_zero.mp hi
    exact h
  | succ fuel ih =>
    rw [freshName] at h
    split at h
    next htaken =>
      intro i hi
      cases i with
      | zero => exact htaken
      | succ i =>
        have hi' := ih h i (le_of_succ_le_succ hi)
        rwa [add_right_comm, add_assoc] at hi'
    next hfree => exact absurd h hfree

omit [BlockHash] in
lemma numbered_inj (stem : String) : Function.Injective fun i : Nat => stem ++ toString i := by
  intro i j h
  have hl := congrArg String.toList h
  simp only [String.toList_append] at hl
  have hd := append_cancel_left hl
  exact toDigits_inj (by simpa using hd)

lemma Ok.freshName_free (h : Ok ctx) (stem : String) (counter : Nat) :
    ctx.varByName (ctx.freshName stem ctx.vars.length counter).1 = none := by
  by_contra hne
  have htaken := freshName_taken (Option.isSome_iff_ne_none.mpr hne)
  let tried := (List.range (ctx.vars.length + 1)).map fun i => stem ++ toString (counter + i)
  have hnodup : tried.Nodup := by
    refine List.Nodup.map ?_ nodup_range
    exact (numbered_inj stem).comp (add_right_injective counter)
  have hsub : tried ⊆ ctx.vars.map SymVarInfo.name := by
    intro name hname
    obtain ⟨i, hi, rfl⟩ := mem_map.mp hname
    obtain ⟨v, hv, hvn⟩ := h.names _ (htaken i (le_of_lt_succ (mem_range.mp hi)))
    exact mem_map.mpr ⟨v, hv, hvn⟩
  -- One more name was tried than there are variables.
  have hle := (subperm_of_subset hnodup hsub).length_le
  rw [length_map, length_map, length_range] at hle
  exact absurd hle (not_succ_le_self _)

lemma Ok.withCounter (h : Ok ctx) (counter : Nat) : Ok { ctx with freshCounter := counter } := by
  have he : Extends ctx { ctx with freshCounter := counter } :=
    ⟨prefix_rfl, prefix_rfl, prefix_rfl, fun _ v hv => ⟨v, hv, rfl, rfl, rfl⟩⟩
  exact ⟨h.toInterned.tables rfl rfl rfl rfl rfl, fun s hs => (h.nodes s hs).extend he, h.slots,
    h.filed, h.named, h.inputs, h.names, h.declared⟩

theorem Ok.markFresh (h : Ok ctx) (id : Nat) :
    Ok { ctx with vars := ctx.vars.modify id fun v => { v with fresh := true } } ∧
      Extends ctx { ctx with vars := ctx.vars.modify id fun v => { v with fresh := true } } := by
  have hvars : ∀ (i : Nat) (v : SymVarInfo), ctx.vars[i]? = some v → ∃ v' : SymVarInfo,
      (ctx.vars.modify id fun v => { v with fresh := true })[i]? = some v' ∧ v'.name = v.name ∧
        v'.width = v.width ∧ v'.inputOrigin = v.inputOrigin := by
    intro i v hv
    rw [getElem?_modify, hv]
    by_cases hi : id = i
    · exact ⟨{ v with fresh := true }, by simp [hi], rfl, rfl, rfl⟩
    · exact ⟨v, by simp [hi], rfl, rfl, rfl⟩
  have he : Extends ctx { ctx with vars := ctx.vars.modify id fun v => { v with fresh := true } } :=
    ⟨prefix_rfl, prefix_rfl, prefix_rfl, hvars⟩
  refine ⟨⟨h.toInterned.tables rfl rfl rfl rfl rfl, fun s hs => (h.nodes s hs).extend he, h.slots,
    h.filed, h.named, fun key i hi => ?_, fun name hn => ?_, fun v hv => ?_⟩, he⟩
  · obtain ⟨v, hv, hw⟩ := h.inputs key i hi
    obtain ⟨v', hv', -, hw', -⟩ := hvars i v hv
    exact ⟨v', hv', hw'.trans hw⟩
  · obtain ⟨v, hv, hvn⟩ := h.names name hn
    obtain ⟨i, hi⟩ := getElem?_of_mem hv
    obtain ⟨v', hv', hn', -, -⟩ := hvars i v hi
    exact ⟨v', mem_of_getElem? hv', hn'.trans hvn⟩
  · obtain ⟨i, hi⟩ := getElem?_of_mem hv
    have hlt : i < ctx.vars.length := by
      have := (List.getElem?_eq_some_iff.mp hi).1
      rwa [length_modify] at this
    obtain ⟨v', hv', -, hw', -⟩ := hvars i _ (getElem?_eq_getElem hlt)
    obtain rfl : v' = v := Option.some.inj (hv'.symm.trans hi)
    rw [hw']
    exact h.declared _ (getElem_mem hlt)

lemma Ok.mkFreshVar (h : Ok ctx) (hw : 0 < width)
    (stem : String) : Made ctx (ctx.mkFreshVar width stem).1 (ctx.mkFreshVar width stem).2 := by
  have hok₁ := h.withCounter (ctx.freshName stem ctx.vars.length ctx.freshCounter).2
  obtain ⟨hmade, -, -⟩ := hok₁.mkVar (ctx.freshName stem ctx.vars.length ctx.freshCounter).1 hw
  obtain ⟨hok, he⟩ := hmade.ok.markFresh _
  have he₁ := hmade.extension
  have he₂ : Extends ctx _ := ⟨he₁.nodes, he₁.pool, he₁.wide, he₁.vars⟩
  exact ⟨hok, he₂.trans he, hmade.lt⟩

end SymContext

end NeverD.Sym
