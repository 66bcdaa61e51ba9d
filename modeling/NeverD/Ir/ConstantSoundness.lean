import NeverD.Ir.ConstantFixpoint
import NeverD.Ir.MedExecution

namespace NeverD.Ir
open List MedFunc
open Option (some bind_eq_some_iff bind_eq_bind bind_some)

variable {env : Env} {v : MedVar} {phi : PhiNode} {id : Int} {budget : Nat}

lemma toNat_mask {n : Nat} (h : n < 64) : ((1 : BitVec 64) <<< n - 1).toNat = 2 ^ n - 1 := by
  have hlt : 2 ^ n < 2 ^ 64 := Nat.pow_lt_pow_right (by decide) h
  have hshift : ((1 : BitVec 64) <<< n).toNat = 2 ^ n := by
    rw [BitVec.toNat_shiftLeft, show (1 : BitVec 64).toNat = 1 from rfl, Nat.one_shiftLeft,
      Nat.mod_eq_of_lt hlt]
  have hle : (1 : BitVec 64) ≤ (1 : BitVec 64) <<< n := by
    rw [BitVec.le_def, hshift]
    exact Nat.one_le_two_pow
  rw [BitVec.toNat_sub_of_le hle, hshift]
  rfl

lemma toNat_and_mask {n : Nat} (h : n < 64) (x : BitVec 64) :
    (x &&& ((1 : BitVec 64) <<< n - 1)).toNat = x.toNat % 2 ^ n := by
  rw [BitVec.toNat_and, toNat_mask h, Nat.and_two_pow_sub_one_eq_mod]

lemma toNat_low_bits {size : Nat} (h : size ≤ 8) (x : BitVec 64) :
    (if size * 8 < 64 then x &&& ((1 : BitVec 64) <<< (size * 8) - 1) else x).toNat =
    x.toNat % 2 ^ (8 * size) := by
  rw [mul_comm 8]
  split
  next hlt => exact toNat_and_mask hlt x
  · have hfull : size * 8 = 64 := by omega
    rw [hfull]
    exact (Nat.mod_eq_of_lt x.isLt).symm

lemma MedVar.number_lt (v : MedVar) : v.number < 2 ^ (8 * v.size) :=
  Nat.mod_lt _ (Nat.two_pow_pos _)

lemma Alike.number {a b : MedVar} (h : Alike a b) : a.number = b.number := by
  unfold MedVar.number
  rw [h.2.1, h.2.2]

lemma toNat_sign_fill {n : Nat} (h : n < 64) {x : BitVec 64} (hx : x.toNat < 2 ^ n) :
    (x ||| (BitVec.allOnes 64 <<< n)).toNat = x.toNat + (2 ^ 64 - 2 ^ n) := by
  have hones : (BitVec.allOnes 64 <<< n).toNat = 2 ^ 64 - 2 ^ n := by
    rw [BitVec.toNat_shiftLeft, BitVec.toNat_allOnes, Nat.shiftLeft_eq]
    have hle : 2 ^ n ≤ 2 ^ 64 := Nat.pow_le_pow_right (by decide) (by omega)
    have hsplit : (2 ^ 64 - 1) * 2 ^ n = 2 ^ 64 * (2 ^ n - 1) + (2 ^ 64 - 2 ^ n) := by
      have hpos : 1 ≤ 2 ^ n := Nat.one_le_two_pow
      obtain ⟨k, hk⟩ := Nat.exists_eq_add_of_le hpos
      rw [hk] at hle ⊢
      rw [Nat.sub_mul, Nat.add_sub_cancel_left]
      omega
    rw [hsplit, Nat.mul_add_mod, Nat.mod_eq_of_lt (by have := Nat.two_pow_pos n; omega)]
  have hmultiple : 2 ^ 64 - 2 ^ n = 2 ^ n * (2 ^ (64 - n) - 1) := by
    rw [Nat.mul_sub, ← Nat.pow_add, Nat.mul_one, Nat.add_sub_cancel' (by omega)]
  rw [BitVec.toNat_or, hones, hmultiple, Nat.or_comm, add_comm]
  exact (Nat.two_pow_add_eq_or_of_lt hx _).symm

lemma viewOfConstant_number {view : NdOp} {viewOffset : BitVec 64} {input value : MedVar}
    {size : Nat}
    (h : viewOfConstant view viewOffset input size = some value) (hinput : input.size ≤ 8)
    (hsize : size ≤ 8) :
    (view = .subbytes → value.number = input.number / 2 ^ (8 * viewOffset.toNat) % 2 ^ (8 * size)) ∧
      (view = .intZext → input.size < size → value.number = input.number) ∧
      (view = .intSext → input.size ≠ 0 → input.size < size →
        value.number = ((BitVec.ofNat (8 * input.size) input.number).signExtend
          (8 * size)).toNat) := by
  unfold viewOfConstant at h
  split at h
  · cases h
  · injection h with h
    have hbits := toNat_low_bits hinput input.constVal
    generalize (if input.size * 8 < 64 then
      input.constVal &&& ((1 : BitVec 64) <<< (input.size * 8) - 1)
      else input.constVal) = bits at h hbits
    change bits.toNat = input.number at hbits
    have hlt := input.number_lt
    have hfull : input.number < 2 ^ 64 :=
      lt_of_lt_of_le hlt (Nat.pow_le_pow_right (by decide) (by omega))
    -- Cutting to the width of the view does nothing that reading at that width does not do.
    have hcut : ∀ x : BitVec 64, MedVar.makeConst
        (if size < 8 then x &&& ((1 : BitVec 64) <<< (size * 8) - 1) else x) size input.provenance =
        value →
        value.number = x.toNat % 2 ^ (8 * size) := by
      intro x hx
      rw [← hx]
      show (if size < 8 then x &&& ((1 : BitVec 64) <<< (size * 8) - 1) else x).toNat % 2 ^
        (8 * size) = _
      have hsame : (size < 8) = (size * 8 < 64) := propext ⟨fun _ => by omega, fun _ => by omega⟩
      simp only [hsame]
      rw [toNat_low_bits hsize, Nat.mod_mod]
    refine ⟨?_, ?_, ?_⟩
    · rintro rfl
      rw [hcut _ h, if_pos rfl]
      congr 1
      split
      · rw [BitVec.toNat_ushiftRight, hbits, Nat.shiftRight_eq_div_pow, mul_comm]
      next hoff =>
        symm
        apply Nat.div_eq_of_lt
        exact lt_of_lt_of_le hfull (Nat.pow_le_pow_right (by decide) (by omega))
    · rintro rfl hless
      rw [hcut _ h, if_neg (by decide), if_neg (by simp), hbits, Nat.mod_eq_of_lt]
      exact lt_of_lt_of_le hlt (Nat.pow_le_pow_right (by decide) (by omega))
    · rintro rfl hzero hless
      rw [hcut _ h, if_neg (by decide), BitVec.toNat_signExtend, BitVec.toNat_setWidth]
      have hnat : (BitVec.ofNat (8 * input.size) input.number).toNat = input.number := by
        rw [BitVec.toNat_ofNat, Nat.mod_eq_of_lt hlt]
      have hsign : bits.getLsbD (input.size * 8 - 1) =
          (BitVec.ofNat (8 * input.size) input.number).msb := by
        rw [BitVec.msb_eq_getLsbD_last, BitVec.getLsbD_ofNat, mul_comm 8, ← hbits]
        rw [decide_eq_true (by omega : input.size * 8 - 1 < input.size * 8), Bool.true_and]
        rfl
      have hwide : 2 ^ (8 * input.size) ≤ 2 ^ (8 * size) :=
        Nat.pow_le_pow_right (by decide) (by omega)
      rw [hnat, Nat.mod_eq_of_lt (lt_of_lt_of_le hlt hwide)]
      by_cases hs : bits.getLsbD (input.size * 8 - 1) = true
      · have hbound : bits.toNat < 2 ^ (input.size * 8) := by
          rw [hbits, mul_comm]
          exact hlt
        rw [if_pos ⟨rfl, by omega, by omega, hs⟩, ← hsign, if_pos hs,
          toNat_sign_fill (by omega) hbound, hbits, mul_comm input.size]
        -- The bits above the width of the view are a multiple of its modulus.
        have htop : 2 ^ 64 = 2 ^ (8 * size) * 2 ^ (64 - 8 * size) := by
          rw [← pow_add, Nat.add_sub_cancel' (by omega)]
        obtain ⟨k, hk⟩ := Nat.exists_eq_add_of_le (Nat.one_le_two_pow (n := 64 - 8 * size))
        rw [hk, mul_add, mul_one] at htop
        have hsplit : input.number + (2 ^ 64 - 2 ^ (8 * input.size)) =
            input.number + (2 ^ (8 * size) - 2 ^ (8 * input.size)) + 2 ^ (8 * size) * k := by omega
        rw [hsplit, Nat.add_mul_mod_self_left]
        exact Nat.mod_eq_of_lt (by omega)
      · rw [if_neg (fun hc => hs hc.2.2.2), ← hsign, if_neg hs, hbits, add_zero, Nat.mod_eq_of_lt]
        exact lt_of_lt_of_le hlt hwide

def Site.node (s : Site) : ConstantNode where
  output := s.output
  inputs := s.inputs
  start := if s.valid = false ∨ 8 < s.output.size ∨ s.inputs = [] then .varying else .pending
  view := s.view
  viewOffset := s.viewOffset

def Site.isNoted (s : Site) : Bool :=
  s.output.isDefined ∨ (s.view ≠ .copy ∧ s.output.isConst = false ∧ 0 ≤ s.output.id)

lemma foldl_addSite (sites : List Site) (nodes : List ConstantNode)
    (hapart : ∀ s ∈ sites, s.isNoted = true → ∀ n ∈ nodes, n.output.key ≠ s.output.key)
    (hnodup : ((sites.filter (·.isNoted)).map (·.output.key)).Nodup) :
    sites.foldl addSite nodes = nodes ++ (sites.filter (·.output.isDefined)).map Site.node := by
  induction sites generalizing nodes with
  | nil => simp
  | cons s sites ih =>
    have hlater : ∀ t ∈ sites, s.isNoted = true → t.isNoted = true →
        s.output.key ≠ t.output.key := by
      intro t ht hs htn heq
      rw [filter_cons_of_pos hs, map_cons, nodup_cons] at hnodup
      exact hnodup.1 (heq ▸ mem_map_of_mem (mem_filter.mpr ⟨ht, htn⟩))
    have hnodup' : ((sites.filter (·.isNoted)).map (·.output.key)).Nodup := by
      by_cases hs : s.isNoted = true
      · rw [filter_cons_of_pos hs, map_cons, nodup_cons] at hnodup
        exact hnodup.2
      · rw [filter_cons_of_neg hs] at hnodup
        exact hnodup
    have hnone : s.isNoted = true → (nodes.findIdx? fun n => n.output.key = s.output.key) =
        none := by
      intro hs
      rw [findIdx?_eq_none_iff]
      intro n hn
      exact decide_eq_false (hapart s mem_cons_self hs n hn)
    rw [foldl_cons]
    by_cases hdef : s.output.isDefined = true
    · have hnoted : s.isNoted = true := decide_eq_true (.inl hdef)
      have hadd : addSite nodes s = nodes ++ [s.node] := by
        unfold addSite
        rw [if_pos hdef, hnone hnoted]
        rfl
      rw [hadd, ih _ _ hnodup', filter_cons_of_pos (p := fun s : Site => s.output.isDefined) hdef,
        map_cons, append_assoc]
      · rfl
      · intro t ht htn n hn
        rcases mem_append.mp hn with hn | hn
        · exact hapart t (mem_cons_of_mem _ ht) htn n hn
        · rw [mem_singleton.mp hn]
          exact hlater t ht hnoted htn
    · have hadd : addSite nodes s = nodes := by
        unfold addSite
        rw [if_neg hdef]
        split
        next hview => rw [hnone (decide_eq_true (.inr hview))]
        · rfl
      rw [hadd, ih nodes (fun t ht => hapart t (mem_cons_of_mem _ ht)) hnodup',
        filter_cons_of_neg (p := fun s : Site => s.output.isDefined) hdef]

lemma sublist_flatMap {α β : Type} {f g : α → List β} (l : List α)
    (h : ∀ a ∈ l, (f a).Sublist (g a)) : (l.flatMap f).Sublist (l.flatMap g) := by
  induction l with
  | nil => exact .slnil
  | cons a l ih =>
    rw [flatMap_cons, flatMap_cons]
    exact (h a mem_cons_self).append (ih fun b hb => h b (mem_cons_of_mem _ hb))

def MedFunc.namedKeys (f : MedFunc) : List Key :=
  f.blocks.flatMap fun b => (b.phis.filter fun phi => phi.output.isConst = false).map
    (·.output.key) ++ (b.ops.filter (·.defines)).map (·.output.key)

def MedFunc.silentKeys (f : MedFunc) : List Key :=
  (f.blocks.flatMap fun b => b.ops.flatMap fun op => op.intrinsicOutputs.map (·.key)) ++
    f.callClobbers.map (·.value.key)

variable {f : MedFunc}

lemma isNoted_phiSite {b : MedBlock} (h : (phiSite f b phi).isNoted = true) :
    phi.output.isConst = false := by
  rcases of_decide_eq_true h with h | h
  · exact (of_decide_eq_true h).1
  · exact absurd rfl h.1

lemma isNoted_opSite {op : MedOp} (h : (opSite op).isNoted = true) : op.defines = true := by
  rcases of_decide_eq_true h with h | ⟨hview, hconst, hid⟩
  · have h := of_decide_eq_true h
    exact decide_eq_true ⟨h.1, h.2.1, .inl h.2.2⟩
  · refine decide_eq_true ⟨hconst, hid, ?_⟩
    unfold opSite at hview
    dsimp only at hview
    split at hview
    next hop =>
      rcases hop with hop | hop
      · have hop := of_decide_eq_true hop
        exact .inl (by omega)
      · exact .inr (of_decide_eq_true hop).2.1
    · exact absurd rfl hview

lemma sublist_namedKeys (f : MedFunc) :
    ((f.sites.filter (·.isNoted)).map (·.output.key)).Sublist f.namedKeys := by
  unfold sites namedKeys
  rw [filter_flatMap, map_flatMap]
  apply sublist_flatMap
  intro b _
  rw [filter_append, map_append, filter_map, filter_map, map_map, map_map]
  apply List.Sublist.append
  · exact (monotone_filter_right b.phis fun phi h => decide_eq_true (isNoted_phiSite h)).map _
  · exact (monotone_filter_right b.ops fun op h => isNoted_opSite h).map _

variable (h : f.namedKeys.Nodup)
include h

lemma nodes_eq : f.nodes = (f.sites.filter (·.output.isDefined)).map Site.node := by
  unfold nodes
  rw [foldl_addSite f.sites [] (by simp) (h.sublist (sublist_namedKeys f)), nil_append]

lemma mem_nodes {n : ConstantNode} (hn : n ∈ f.nodes) : ∃ s ∈ f.sites, s.output.isDefined = true ∧
    s.node = n := by
  rw [nodes_eq h] at hn
  obtain ⟨s, hs, hnode⟩ := mem_map.mp hn
  exact ⟨s, (mem_filter.mp hs).1, (mem_filter.mp hs).2, hnode⟩

lemma wellStarted_nodes : WellStarted f.nodes := by
  intro n hn
  obtain ⟨s, _, _, rfl⟩ := mem_nodes h hn
  unfold Site.node
  split
  · exact .inl rfl
  next hs => exact .inr ⟨rfl, fun hnil => hs (.inr (.inr hnil))⟩

theorem node_of_site {s : Site} (hs : s ∈ f.sites)
    (hdef : s.output.isDefined = true) {i : Nat} (hi : i < f.nodes.length)
    (hkey : (node f.nodes i).output.key = s.output.key) : node f.nodes i = s.node := by
  have hnodup := h.sublist (sublist_namedKeys f)
  obtain ⟨t, htmem, htdef, hnode⟩ := mem_nodes h (known_startStates hi).2
  rw [← hnode] at hkey ⊢
  have heq : t = s := by
    apply inj_on_of_nodup_map hnodup
    · exact mem_filter.mpr ⟨htmem, decide_eq_true (.inl htdef)⟩
    · exact mem_filter.mpr ⟨hs, decide_eq_true (.inl hdef)⟩
    · exact hkey
  rw [heq]

theorem seeded_nodes {key : Key} (hkey : Seeded f.nodes key) : f.Seeded key := by
  induction hkey with
  | literal hi hv hconst =>
    obtain ⟨s, hs, _, hnode⟩ := mem_nodes h (known_startStates hi).2
    rw [← hnode] at hv ⊢
    exact .literal hs hv hconst
  | through hi hv hvar _ ih =>
    obtain ⟨s, hs, _, hnode⟩ := mem_nodes h (known_startStates hi).2
    rw [← hnode] at hv ⊢
    exact .through hs hv hvar ih

lemma node_key_mem {i : Nat} (hi : i < f.nodes.length) :
    (node f.nodes i).output.key ∈ f.namedKeys := by
  obtain ⟨t, htmem, htdef, hnode⟩ := mem_nodes h (known_startStates hi).2
  rw [← hnode]
  exact (sublist_namedKeys f).subset
    (mem_map_of_mem (mem_filter.mpr ⟨htmem, decide_eq_true (.inl htdef)⟩))

omit h

section

variable {f : MedFunc} {roots : Set Int} {p : Propagation}

/-- What is known at the end: the operands of a constant node are constant, and make its
constant. -/
structure Consistent (nodes : List ConstantNode) (states : List Known) : Prop where
  start : ∀ i < nodes.length, (known states i).state = .constant → (node nodes i).start ≠ .varying
  seen : ∀ v, (seen nodes states v).state = .constant →
    (seen nodes states v).value.isConst = true ∧ (seen nodes states v).value.size = v.size
  seeded : ∀ v, (Ir.seen nodes states v).state = .constant → v.isConst = false → Seeded nodes v.key
  inputs : ∀ i < nodes.length, (known states i).state = .constant → ∀ v ∈ (node nodes i).inputs,
    ((node nodes i).view = .copy → v.size = (node nodes i).output.size) ∧
      (Ir.seen nodes states v).state = .constant ∧
      ∃ c, viewed (node nodes i) (Ir.seen nodes states v).value = some c ∧
        c.number = (known states i).value.number

variable {states : List Known} {b : MedBlock} {nodes : List ConstantNode} {op : MedOp}

lemma seen_pending
    (h : (seen nodes states v).state = .pending) :
    ∃ i < nodes.length, (known states i).state = .pending := by
  unfold seen at h
  split at h
  · cases h
  · split at h
    · cases h
    next i hdef =>
      split at h
      · cases h
      · exact ⟨i, (definition_spec hdef).1, h⟩

lemma consistent_solve (h : WellStarted nodes) (hs : solve nodes budget = some p) :
    Consistent nodes p.states := by
  obtain ⟨hinv, hwork, hdecided⟩ := solve_spec h hs
  constructor
  · intro i hi hc hstart
    rw [hinv.start i hi hstart] at hc
    cases hc
  · exact fun v hv => seen_constant hinv hv
  · exact fun v hv hvar => seeded_of_seen hinv hv hvar
  · intro i hi hc v hv
    have hagrees : Agrees nodes p.states i := by
      rcases hinv.settled i hi with hs | hs | hs
      · rw [hwork] at hs
        cases hs
      · rw [hs] at hc
        cases hc
      · exact hs
    have hmet := meetInputs_constant (fun w _ hw => seen_constant hinv hw) (fun hk => by cases hk)
      (hagrees.1.trans hc)
    obtain ⟨hcopy, hseen⟩ := hmet.2.2 v hv
    rcases hseen with hpending | ⟨hconst, c, hview, halike⟩
    · obtain ⟨j, hj, hjp⟩ := seen_pending hpending
      exact absurd hjp (hdecided j hj)
    · exact ⟨hcopy, hconst, c, hview, halike.number.trans (hagrees.2 hc).number.symm⟩

def Holds (nodes : List ConstantNode) (states : List Known) (env : Env) : Prop :=
  ∀ i < nodes.length, (known states i).state = .constant →
    ∀ size w, env (node nodes i).output.key = some (size, w) →
    size = (node nodes i).output.size ∧ w = (known states i).value.number

lemma Holds.reads (h : Holds nodes states env)
    (hseen : (seen nodes states v).state = .constant)
    (hassigned : v.isConst = false → (env v.key).isSome)
    {w : Nat} (hw : Reads env v w) : w = (seen nodes states v).value.number := by
  unfold seen at hseen ⊢
  split at hseen
  next hconst =>
    rw [if_pos hconst]
    cases hw with
    | const _ => rfl
    | assigned hv _ => exact absurd (hconst.symm.trans hv) (by decide)
    | unknown hv _ _ => exact absurd (hconst.symm.trans hv) (by decide)
  next hconst =>
    rw [if_neg hconst]
    have hvar := Bool.eq_false_iff.mpr hconst
    split at hseen
    · cases hseen
    next i hdef =>
      obtain ⟨hi, hkey⟩ := definition_spec hdef
      split at hseen
      · cases hseen
      next hsize =>
        have hsize := not_not.mp hsize
        rw [if_neg (not_not.mpr hsize)]
        obtain ⟨⟨size, x⟩, hx⟩ := Option.isSome_iff_exists.mp (hassigned hvar)
        have hheld := h i hi hseen size x (hkey ▸ hx)
        have hx : env v.key = some (v.size, x) := by
          rw [hx, hheld.1, hsize]
        cases hw with
        | const hc => exact absurd hc hconst
        | assigned _ hy =>
          rw [hx] at hy
          cases hy
          exact hheld.2
        | unknown _ hno _ => exact absurd hx (hno x)

variable (hlen : op.numInputs ≤ op.inputs.length)
include hlen

lemma operands_one (h : op.numInputs = 1) : op.operands = [op.input 0] := by
  unfold MedOp.operands MedOp.input
  rw [h] at hlen ⊢
  match hin : op.inputs, hlen with
  | a :: rest, _ => rfl

lemma operands_two (h : op.numInputs = 2) : op.operands = [op.input 0, op.input 1] := by
  unfold MedOp.operands MedOp.input
  rw [h] at hlen ⊢
  match hin : op.inputs, hlen with
  | a :: b :: rest, _ => rfl

theorem evaluate_viewed {c d : MedVar} {values : List Nat}
    (htracked : (opSite op).valid = true) (hwidth : op.output.size ≤ 8)
    (hcopy : (opSite op).node.view = .copy → (op.input 0).size = op.output.size)
    (hview : viewed (opSite op).node d = some c) (hsize : d.size = (op.input 0).size)
    (hvalues : ∃ rest, values = d.number :: rest ∧ values.length = op.operands.length) :
    op.evaluate values = some c.number := by
  obtain ⟨rest, rfl, hcount⟩ := hvalues
  rcases of_decide_eq_true htracked with h | h | h
  · have h' := of_decide_eq_true h
    have hview' : (opSite op).node.view = .copy := by
      show (if op.isExtend = true ∨ op.isSlice = true then op.opcode else NdOp.copy) = .copy
      split
      · exact h'.2.1
      · rfl
    rw [operands_one hlen h'.2.2] at hcount
    have hrest : rest = [] := eq_nil_of_length_eq_zero (Nat.succ.inj hcount)
    unfold viewed at hview
    rw [if_pos hview'] at hview
    unfold MedOp.evaluate
    rw [h'.2.1, operands_one hlen h'.2.2, hrest, ← some.inj hview]
    exact if_pos (hcopy hview')
  · have h' := of_decide_eq_true h
    have hview' : (opSite op).node.view = op.opcode := if_pos (.inl h)
    have hne : op.opcode ≠ .copy := by
      rcases h'.2.1 with ho | ho
      · simp [ho]
      · simp [ho]
    rw [operands_one hlen h'.2.2.1] at hcount
    have hrest : rest = [] := eq_nil_of_length_eq_zero (Nat.succ.inj hcount)
    unfold viewed at hview
    rw [if_neg (by rw [hview']; exact hne), hview'] at hview
    obtain ⟨_, hzext, hsext⟩ := viewOfConstant_number hview (by omega) hwidth
    unfold MedOp.evaluate
    rw [operands_one hlen h'.2.2.1, hrest]
    rcases h'.2.1 with ho | ho
    · rw [ho, hzext ho (hsize ▸ h'.2.2.2.2.1)]
      exact if_pos h'.2.2.2.2.1
    · rw [ho, hsext ho (by omega) (hsize ▸ h'.2.2.2.2.1), hsize]
      exact if_pos h'.2.2.2.2.1
  · have h' := of_decide_eq_true h
    have hview' : (opSite op).node.view = op.opcode := if_pos (.inr h)
    have hoffset : (opSite op).node.viewOffset = (op.input 1).constVal := if_pos h
    rw [operands_two hlen h'.2.2.1] at hcount
    obtain ⟨y, rfl⟩ := length_eq_one_iff.mp (Nat.succ.inj hcount)
    unfold viewed at hview
    rw [if_neg (by rw [hview', h'.2.1]; decide), hview', hoffset] at hview
    obtain ⟨hslice, _, _⟩ := viewOfConstant_number hview (hsize ▸ h'.2.2.2.2.1) hwidth
    unfold MedOp.evaluate
    rw [h'.2.1, operands_two hlen h'.2.2.1, hslice h'.2.1]
    exact if_pos h'.2.2.2.1

omit hlen

lemma block_mem (h : f.block id = some b) : b ∈ f.blocks ∧ b.id = id := by
  have hid := find?_some (p := fun x : MedBlock => decide (x.id = id)) h
  exact ⟨mem_of_find?_eq_some h, of_decide_eq_true hid⟩

lemma definitions_eq (f : MedFunc) : f.definitions = f.namedKeys ++ f.silentKeys := rfl

lemma SSAForm.named (h : SSAForm f roots) : f.namedKeys.Nodup :=
  (definitions_eq f ▸ h.unique).of_append_left

variable (hb : b ∈ f.blocks)
include hb

lemma implicitKeys_subset (hop : op ∈ b.ops) {key : Key} (hkey : key ∈ f.implicitKeys op) :
    key ∈ f.silentKeys := by
  rcases mem_append.mp hkey with hkey | hkey
  · exact mem_append_left _ (mem_flatMap.mpr ⟨b, hb, mem_flatMap.mpr ⟨op, hop, hkey⟩⟩)
  · split at hkey
    · obtain ⟨c, hc, rfl⟩ := mem_map.mp hkey
      exact mem_append_right _ (mem_map_of_mem (mem_filter.mp hc).1)
    · cases hkey

lemma opSite_mem (hop : op ∈ b.ops) : opSite op ∈ f.sites :=
  mem_flatMap.mpr ⟨b, hb, mem_append_right _ (mem_map_of_mem hop)⟩

lemma phiSite_mem (hphi : phi ∈ b.phis) : phiSite f b phi ∈ f.sites :=
  mem_flatMap.mpr ⟨b, hb, mem_append_left _ (mem_map_of_mem hphi)⟩

omit hb

theorem Consistent.valid (h : Consistent nodes states) {s : Site}
    {i : Nat} (hi : i < nodes.length) (hc : (known states i).state = .constant)
    (hnode : node nodes i = s.node) : s.valid = true ∧ s.output.size ≤ 8 ∧ s.inputs ≠ [] := by
  have hstart := h.start i hi hc
  rw [hnode] at hstart
  unfold Site.node at hstart
  split at hstart
  · exact absurd rfl hstart
  next hs =>
    rw [not_or, not_or] at hs
    exact ⟨Bool.not_eq_false _ ▸ hs.1, not_lt.mp hs.2.1, hs.2.2⟩

lemma assigned_of_seen (h : f.namedKeys.Nodup) (hc : Consistent f.nodes states)
    (hseen : (seen f.nodes states v).state = .constant)
    (hassigned : f.Seeded v.key → (env v.key).isSome) : v.isConst = false → (env v.key).isSome :=
  fun hv => hassigned (seeded_nodes h (hc.seeded v hseen hv))

lemma holds_op (hc : Consistent f.nodes states) (hssa : SSAForm f roots)
    {env' : Env} (hb : b ∈ f.blocks) (hop : op ∈ b.ops) (hlen : op.numInputs ≤ op.inputs.length)
    (hreads : ∀ v ∈ op.operands, f.Seeded v.key → (env v.key).isSome) (hstep : OpStep f op env env')
    (h : Holds f.nodes states env) : Holds f.nodes states env' := by
  intro i hi hconst size w hw
  by_cases himplicit : (node f.nodes i).output.key ∈ f.implicitKeys op
  · exact absurd (implicitKeys_subset hb hop himplicit)
      (disjoint_of_nodup_append (definitions_eq f ▸ hssa.unique) (node_key_mem hssa.named hi))
  · by_cases hout : op.output.isDefined = true ∧ (node f.nodes i).output.key = op.output.key
    · -- The one definition of the variable is executed.
      have hnode : node f.nodes i = (opSite op).node :=
        node_of_site hssa.named (opSite_mem hb hop) hout.1 hi hout.2
      obtain ⟨hvalid, hwidth, hinputs⟩ := hc.valid hi hconst hnode
      obtain ⟨x, _, hx, hplain⟩ := hstep.output hout.1
      rw [hout.2, hx] at hw
      obtain ⟨rfl, rfl⟩ := Prod.mk.inj (some.inj hw)
      refine ⟨by rw [hnode]; rfl, ?_⟩
      have hisPlain : op.isPlain = true := by
        rcases of_decide_eq_true hvalid with ht | ht | ht
        · exact (of_decide_eq_true ht).1
        · exact (of_decide_eq_true ht).1
        · exact (of_decide_eq_true ht).1
      obtain ⟨values, hvalues, hresult⟩ := hplain hisPlain
      have hins : (node f.nodes i).inputs = [op.input 0] := by
        rw [hnode]
        exact if_pos (of_decide_eq_true hvalid)
      obtain ⟨hcopy, hseen, c, hview, hnumber⟩ :=
        hc.inputs i hi hconst (op.input 0) (by rw [hins]; simp)
      have hops : ∃ rest, op.operands = op.input 0 :: rest := by
        rcases of_decide_eq_true hvalid with ht | ht | ht
        · exact ⟨[], operands_one hlen (of_decide_eq_true ht).2.2⟩
        · exact ⟨[], operands_one hlen (of_decide_eq_true ht).2.2.1⟩
        · exact ⟨_, operands_two hlen (of_decide_eq_true ht).2.2.1⟩
      obtain ⟨rest, hoperands⟩ := hops
      rw [hoperands] at hvalues
      obtain ⟨y, ys, hy, hys, rfl⟩ := List.forall₂_cons_left_iff.mp hvalues
      have hread :=
        h.reads hseen (assigned_of_seen hssa.named hc hseen (hreads _ (by rw [hoperands]; simp))) hy
      rw [← hnumber]
      apply hresult
      apply evaluate_viewed hlen hvalid hwidth
      · intro hv
        rw [← hnode] at hv
        rw [hcopy hv, hnode]
        rfl
      · rw [← hnode]
        exact hview
      · exact (hc.seen _ hseen).2
      · refine ⟨ys, by rw [hread], ?_⟩
        rw [hoperands, length_cons, length_cons, hys.length_eq]
    · have hkept := hstep.kept _ (fun hd heq => hout ⟨hd, heq⟩) himplicit
      exact h i hi hconst size w (hkept ▸ hw)

theorem exists_argument {c : MedBlock} (hvalid : (phiSite f c phi).valid = true) (hb : b ∈ f.blocks)
    (hedge : c.id ∈ b.succs) : ∃ v, (b.id, v) ∈ phi.args ∧ v.size = phi.output.size := by
  obtain ⟨_, harguments⟩ := of_decide_eq_true hvalid
  obtain ⟨_, _, hsizes, hpreds⟩ := of_decide_eq_true harguments
  have hmem : b.id ∈ f.incoming c.id := by
    unfold incoming
    rw [mem_insertionSort]
    exact mem_map_of_mem (mem_filter.mpr ⟨hb, decide_eq_true hedge⟩)
  rw [← hpreds, mem_insertionSort] at hmem
  obtain ⟨arg, harg, hid⟩ := mem_map.mp hmem
  exact ⟨arg.2, hid ▸ harg, hsizes arg harg⟩

lemma holds_phi (hc : Consistent f.nodes states) (hssa : SSAForm f roots) {c : MedBlock}
    {env' : Env} (hb : b ∈ f.blocks) (hcb : c ∈ f.blocks) (hedge : c.id ∈ b.succs)
    (hreads : ∀ phi ∈ c.phis, ∀ v, (b.id, v) ∈ phi.args → f.Seeded v.key → (env v.key).isSome)
    (hstep : PhiStep c b.id env env') (h : Holds f.nodes states env) :
    Holds f.nodes states env' := by
  intro i hi hconst size w hw
  by_cases hout : ∃ phi ∈ c.phis, phi.output.isDefined = true ∧
    (node f.nodes i).output.key = phi.output.key
  · obtain ⟨phi, hphi, hdef, hkey⟩ := hout
    have hnode : node f.nodes i = (phiSite f c phi).node :=
      node_of_site hssa.named (phiSite_mem hcb hphi) hdef hi hkey
    obtain ⟨hvalid, _, _⟩ := hc.valid hi hconst hnode
    obtain ⟨x, _, hx, hvalue⟩ := hstep.output phi hphi hdef
    rw [hkey, hx] at hw
    obtain ⟨rfl, rfl⟩ := Prod.mk.inj (some.inj hw)
    refine ⟨by rw [hnode]; rfl, ?_⟩
    obtain ⟨u, hu, _⟩ := exists_argument hvalid hb hedge
    obtain ⟨v, hv, hread⟩ := hvalue.resolve_right fun hno => hno u hu
    have hsize : v.size = phi.output.size :=
      (of_decide_eq_true (of_decide_eq_true hvalid).2).2.2.1 _ hv
    have hmem : v ∈ (node f.nodes i).inputs := by
      rw [hnode]
      exact mem_map_of_mem hv
    obtain ⟨_, hseen, d, hview, hnumber⟩ := hc.inputs i hi hconst v hmem
    have hviewed : viewed (node f.nodes i) (seen f.nodes states v).value =
        some (seen f.nodes states v).value := by
      rw [hnode]
      exact if_pos rfl
    rw [← hnumber, ← some.inj (hviewed.symm.trans hview)]
    exact h.reads hseen (assigned_of_seen hssa.named hc hseen (hreads phi hphi v hv)) (hread hsize)
  · have hkept := hstep.kept _ fun phi hphi hdef heq => hout ⟨phi, hphi, hdef, heq⟩
    exact h i hi hconst size w (hkept ▸ hw)

/-- In every execution, the variables hold the constants that were found. -/
theorem Reached.holds (hc : Consistent f.nodes states) (hssa : SSAForm f roots)
    (hlen : ∀ b ∈ f.blocks, ∀ op ∈ b.ops, op.numInputs ≤ op.inputs.length) {k : Nat}
    (hreached : Reached f roots id k env) : Holds f.nodes states env := by
  induction hreached with
  | entry _ =>
    intro i _ _ size w hw
    cases hw
  | @op id b op k env env' hreached hblock hop hstep ih =>
    have hb := (block_mem hblock).1
    have hmem := mem_of_getElem? hop
    exact holds_op hc hssa hb hmem (hlen b hb op hmem)
      (fun v hv hdef => hssa.op_reads id k env b op v hreached hblock hop hv hdef) hstep ih
  | @edge id s b c env env' hreached hblock hedge hblock' hstep ih =>
    obtain ⟨hb, rfl⟩ := block_mem hblock
    obtain ⟨hcb, rfl⟩ := block_mem hblock'
    exact holds_phi hc hssa hb hcb hedge
      (fun phi hphi v hv hdef => hssa.phi_reads b.id env b c.id c phi v hreached hblock hedge
        hblock' hphi hv hdef)
      hstep ih

end

section

variable {f : MedFunc} {roots : Set Int} {s : Solution}

lemma analyze_spec (h : f.analyze budget = some s) : f.isAnalyzable = true ∧ s.nodes = f.nodes ∧
    ∃ left p, solve f.nodes left = some p ∧ s.states = p.states := by
  unfold analyze at h
  split at h
  next hanalyzable =>
    obtain ⟨left, _, h⟩ := bind_eq_some_iff.mp h
    obtain ⟨p, hp, h⟩ := bind_eq_some_iff.mp h
    obtain ⟨views, _, h⟩ := bind_eq_some_iff.mp h
    cases h
    exact ⟨hanalyzable, rfl, left, p, hp, rfl⟩
  · cases h

def Replaced (env : Env) (before after : MedVar) : Prop :=
  after = before ∨ after.isConst = true ∧ after.size = before.size ∧ ∀ w, Reads env before w →
    w = after.number

lemma replaced_getD (hc : Consistent f.nodes s.states) (hnodes : s.nodes = f.nodes)
    (hssa : SSAForm f roots) (hholds : Holds f.nodes s.states env) {numeric keepsViews : Bool}
    (hassigned : f.Seeded v.key → (env v.key).isSome) :
    Replaced env v ((s.replacement v numeric keepsViews).getD v) := by
  cases hr : s.replacement v numeric keepsViews with
  | none => exact .inl rfl
  | some c =>
    right
    unfold Solution.replacement at hr
    rw [hnodes] at hr
    split at hr
    · cases hr
    next hvar =>
      split at hr
      · cases hr
      next i hdef =>
        split at hr
        · cases hr
        next hguard =>
          rw [not_or, not_or] at hguard
          have hconst := not_not.mp hguard.1
          have hsize := not_not.mp hguard.2.1
          have hseen : seen f.nodes s.states v = known s.states i := by
            unfold seen
            rw [if_neg hvar, hdef]
            exact if_neg (not_not.mpr hsize)
          have hstate : (seen f.nodes s.states v).state = .constant := hseen ▸ hconst
          have hvalue := hc.seen v hstate
          rw [hseen] at hvalue
          have hsame : c.isConst = (known s.states i).value.isConst ∧
              c.size = (known s.states i).value.size ∧
              c.number = (known s.states i).value.number := by
            cases hr
            split
            · exact ⟨rfl, rfl, rfl⟩
            · exact ⟨rfl, rfl, rfl⟩
          refine ⟨hsame.1.trans hvalue.1, hsame.2.1.trans hvalue.2, ?_⟩
          intro w hw
          have hread := hholds.reads hstate (assigned_of_seen hssa.named hc hstate hassigned) hw
          rw [hread, hseen]
          exact hsame.2.2.symm

structure OpReplaced (env : Env) (op after : MedOp) : Prop where
  rest : after = { op with inputs := after.inputs }
  operands : List.Forall₂ (Replaced env) op.operands after.operands
  storage : after.inputs.drop op.numInputs = op.inputs.drop op.numInputs

structure PhiReplaced (env : Env) (pred : Int) (phi after : PhiNode) : Prop where
  rest : after = { phi with args := after.args }
  args : List.Forall₂ (fun a b => b.1 = a.1 ∧ (a.1 = pred → Replaced env a.2 b.2))
    phi.args after.args

lemma forall₂_zipWith {α β : Type} {R : α → α → Prop} {g : α → β → α} {l : List α} {r : List β}
    (hlen : r.length = l.length) (h : ∀ (i : Nat) (a : α) (b : β), l[i]? = some a → r[i]? = some b →
    R a (g a b)) : List.Forall₂ R l (List.zipWith g l r) := by
  rw [List.forall₂_iff_get]
  refine ⟨by rw [length_zipWith, hlen, Nat.min_self], ?_⟩
  intro i hi hz
  simp only [get_eq_getElem, getElem_zipWith]
  exact h i _ _ (getElem?_eq_getElem hi) (getElem?_eq_getElem (hlen ▸ hi))

lemma rewriteOp_replaced (hc : Consistent f.nodes s.states) (hnodes : s.nodes = f.nodes)
    (hssa : SSAForm f roots) (hholds : Holds f.nodes s.states env) {op : MedOp}
    (hlen : op.numInputs ≤ op.inputs.length)
    (hassigned : ∀ v ∈ op.operands, f.Seeded v.key → (env v.key).isSome) :
    OpReplaced env op (s.rewriteOp op) := by
  have hcount : (s.opReplacements op).length = op.inputs.length := length_mapIdx
  have hread : ∀ i v r, op.inputs[i]? = some v → (s.opReplacements op)[i]? = some r →
      r = if i < op.numInputs ∧ canPropagateConstantToOperand op.opcode i then
        s.replacement v (isNumericConstantOperand op.opcode i) op.keepsViews else none := by
    intro i v r hv hr
    unfold Solution.opReplacements at hr
    rw [getElem?_mapIdx, hv] at hr
    exact (some.inj hr).symm
  constructor
  · rfl
  · show List.Forall₂ _ (op.inputs.take op.numInputs)
      ((List.zipWith _ op.inputs (s.opReplacements op)).take op.numInputs)
    rw [take_zipWith]
    apply forall₂_zipWith
    · rw [length_take, length_take, hcount]
    · intro i v r hv hr
      have hi : i < op.numInputs := by
        obtain ⟨hlt, _⟩ := List.getElem?_eq_some_iff.mp hv
        rw [length_take] at hlt
        omega
      have hmem : v ∈ op.operands := mem_of_getElem? hv
      rw [getElem?_take, if_pos hi] at hv hr
      rw [hread i v r hv hr]
      split
      · exact replaced_getD hc hnodes hssa hholds (hassigned v hmem)
      · exact .inl rfl
  · apply ext_getElem?
    intro i
    show ((List.zipWith _ op.inputs (s.opReplacements op)).drop op.numInputs)[i]? = _
    rw [getElem?_drop, getElem?_drop, getElem?_zipWith]
    cases hv : op.inputs[op.numInputs + i]? with
    | none => rfl
    | some v =>
      obtain ⟨hlt, _⟩ := List.getElem?_eq_some_iff.mp hv
      have hr := getElem?_eq_getElem (hcount.symm ▸ hlt)
      have hnone := hread _ v _ hv hr
      rw [if_neg (fun hpos => by have := hpos.1; omega)] at hnone
      rw [hr, hnone]
      rfl

lemma rewritePhi_replaced {pred : Int} (hc : Consistent f.nodes s.states)
    (hnodes : s.nodes = f.nodes) (hssa : SSAForm f roots) (hholds : Holds f.nodes s.states env)
    (hassigned : ∀ v, (pred, v) ∈ phi.args → f.Seeded v.key → (env v.key).isSome) :
    PhiReplaced env pred phi (s.rewritePhi phi) := by
  constructor
  · rfl
  · apply forall₂_zipWith
    · exact length_map ..
    · intro i a r ha hr
      refine ⟨rfl, ?_⟩
      intro hpred
      unfold Solution.phiReplacements at hr
      rw [getElem?_map, ha] at hr
      rw [← some.inj hr]
      apply replaced_getD hc hnodes hssa hholds
      apply hassigned
      rw [← hpred]
      exact mem_of_getElem? ha

lemma zipWith_eq_left {α β : Type} {g : α → β → α} {l : List α} {r : List β}
    (hlen : r.length = l.length) (h : ∀ a, ∀ b ∈ r, g a b = a) : List.zipWith g l r = l := by
  induction l generalizing r with
  | nil => rfl
  | cons a l ih =>
    cases r with
    | nil => cases hlen
    | cons b r =>
      rw [zipWith_cons_cons, h a b mem_cons_self, ih (Nat.succ.inj hlen) fun a c hc =>
        h a c (mem_cons_of_mem _ hc)]

lemma rewriteBlock_eq {b : MedBlock} (h : s.changes b = false) : s.rewriteBlock b = b := by
  obtain ⟨hphis, hops⟩ := Bool.or_eq_false_iff.mp h
  rw [any_eq_false] at hphis hops
  have hnone : ∀ r : List (Option MedVar), ¬r.any (·.isSome) = true → ∀ x ∈ r, x = none := by
    intro r hr x hx
    rw [Bool.not_eq_true, any_eq_false] at hr
    exact Option.not_isSome_iff_eq_none.mp (hr x hx)
  have hphi : b.phis.map s.rewritePhi = b.phis := by
    apply (map_congr_left _).trans (map_id _)
    intro phi hphi
    show ({ phi with args := _ } : PhiNode) = phi
    have hargs := zipWith_eq_left (g := fun arg r => (arg.1, Option.getD r arg.2)) (l := phi.args)
      (r := s.phiReplacements phi) (length_map ..) fun a x hx => by
        rw [hnone _ (hphis phi hphi) x hx]; rfl
    exact congrArg (fun args => ({ phi with args := args } : PhiNode)) hargs
  have hop : b.ops.map s.rewriteOp = b.ops := by
    apply (map_congr_left _).trans (map_id _)
    intro op hop
    have hins :=
      zipWith_eq_left (g := fun v r => Option.getD r v) (l := op.inputs) (r := s.opReplacements op)
      length_mapIdx fun a x hx => by rw [hnone _ (hops op hop) x hx]; rfl
    exact congrArg (fun inputs => ({ op with inputs := inputs } : MedOp)) hins
  unfold Solution.rewriteBlock
  rw [hphi, hop]

lemma block_rewritten (id : Int) :
    block { f with blocks := f.blocks.map s.rewriteBlock } id =
      (f.block id).map s.rewriteBlock := by
  unfold block
  rw [find?_map]
  rfl

def MedFunc.convergenceBudget (f : MedFunc) : Nat :=
  let viewNodes := (ordered f.nodes).filter fun n => (node f.nodes n).view ≠ .copy
  f.scanCost + solveBudget f.nodes ((f.nodes.map fun n => n.inputs.length).sum)
    (viewCost f.nodes viewNodes viewNodes)

lemma analyze_exists (hnamed : f.namedKeys.Nodup) (hanalyzable : f.isAnalyzable = true)
    (hbudget : f.convergenceBudget ≤ budget) : ∃ s, f.analyze budget = some s := by
  have hmost : ∀ i < f.nodes.length, (node f.nodes i).inputs.length ≤
      (f.nodes.map fun n => n.inputs.length).sum := by
    intro i hi
    exact le_sum_of_mem (mem_map_of_mem (known_startStates hi).2)
  unfold convergenceBudget at hbudget
  dsimp only at hbudget
  obtain ⟨p, hp, hleft⟩ : ∃ p, solve f.nodes (budget - f.scanCost) = some p ∧ viewCost f.nodes
      ((ordered f.nodes).filter fun n => (node f.nodes n).view ≠ .copy)
      ((ordered f.nodes).filter fun n => (node f.nodes n).view ≠ .copy) ≤ p.budget :=
    solve_exists (wellStarted_nodes hnamed) hmost (by omega)
  obtain ⟨views, hviews⟩ := markViews_exists hleft hleft
  unfold analyze
  rw [if_pos hanalyzable, show spend budget f.scanCost = some (budget - f.scanCost) from if_pos
    (by omega)]
  refine ⟨{ nodes := f.nodes, states := p.states, fromView := views }, ?_⟩
  rw [bind_eq_bind, bind_some, hp]
  dsimp only [bind_eq_bind, bind_some]
  rw [hviews]
  rfl

end

/-- Operands are replaced by constants that every read gives, in every execution, and the analysis
ends when the budget allows it. -/
theorem propagateInvariantConstants_sound (f : MedFunc) (roots : Set Int) (hssa : SSAForm f roots) :
    (∀ id k env b op, Reached f roots id k env → f.block id = some b → b.ops[k]? = some op →
      ∃ b' op', (propagateInvariantConstants f).1.block id = some b' ∧ b'.ops[k]? = some op' ∧
        OpReplaced env op op') ∧
    (∀ id env b t c, Reached f roots id b.ops.length env → f.block id = some b → t ∈ b.succs →
      f.block t = some c →
      ∃ c', (propagateInvariantConstants f).1.block t = some c' ∧
      List.Forall₂ (PhiReplaced env id) c.phis c'.phis) ∧
    (f.isAnalyzable = true → ∀ budget, f.convergenceBudget ≤ budget →
    ∃ s, f.analyze budget = some s) ∧
    ((propagateInvariantConstants f).2 = false → (propagateInvariantConstants f).1 = f) := by
  refine ⟨?_, ?_, fun hanalyzable budget hbudget => analyze_exists hssa.named hanalyzable hbudget,
    ?_⟩
  · intro id k env b op hreached hblock hop
    unfold propagateInvariantConstants
    cases hs : f.analyze propagateInvariantConstantsBudget with
    | none =>
      refine ⟨b, op, hblock, hop, rfl, ?_, rfl⟩
      exact List.forall₂_same.mpr fun v _ => .inl rfl
    | some s =>
      obtain ⟨hanalyzable, hnodes, left, p, hp, hstates⟩ := analyze_spec hs
      have hlen := (of_decide_eq_true hanalyzable).2.2.2
      have hc : Consistent f.nodes s.states :=
        hstates ▸ consistent_solve (wellStarted_nodes hssa.named) hp
      have hmem := mem_of_getElem? hop
      refine ⟨s.rewriteBlock b, s.rewriteOp op, ?_, ?_, ?_⟩
      · exact (block_rewritten id).trans (congrArg (Option.map s.rewriteBlock) hblock)
      · show (b.ops.map s.rewriteOp)[k]? = _
        rw [getElem?_map, hop]
        rfl
      · exact rewriteOp_replaced hc hnodes hssa (hreached.holds hc hssa hlen)
          (hlen b (block_mem hblock).1 op hmem)
          fun v hv hdef => hssa.op_reads id k env b op v hreached hblock hop hv hdef
  · intro id env b t c hreached hblock hedge hblock'
    unfold propagateInvariantConstants
    cases hs : f.analyze propagateInvariantConstantsBudget with
    | none =>
      refine ⟨c, hblock', List.forall₂_same.mpr fun phi _ => ⟨rfl, ?_⟩⟩
      exact List.forall₂_same.mpr fun a _ => ⟨rfl, fun _ => .inl rfl⟩
    | some s =>
      obtain ⟨hanalyzable, hnodes, left, p, hp, hstates⟩ := analyze_spec hs
      have hlen := (of_decide_eq_true hanalyzable).2.2.2
      have hc : Consistent f.nodes s.states :=
        hstates ▸ consistent_solve (wellStarted_nodes hssa.named) hp
      refine ⟨s.rewriteBlock c,
        (block_rewritten t).trans (congrArg (Option.map s.rewriteBlock) hblock'), ?_⟩
      show List.Forall₂ _ c.phis (c.phis.map s.rewritePhi)
      rw [List.forall₂_map_right_iff, List.forall₂_same]
      intro phi hphi
      exact rewritePhi_replaced hc hnodes hssa (hreached.holds hc hssa hlen)
        fun v hv hdef => hssa.phi_reads id env b t c phi v hreached hblock hedge hblock'
        hphi hv hdef
  · unfold propagateInvariantConstants
    cases hs : f.analyze propagateInvariantConstantsBudget with
    | none => exact fun _ => rfl
    | some s =>
      intro hchanged
      have hchanged : f.blocks.any s.changes = false := hchanged
      rw [any_eq_false] at hchanged
      have hblocks : f.blocks.map s.rewriteBlock = f.blocks :=
        (map_congr_left fun b hb => rewriteBlock_eq (Bool.not_eq_true _ ▸ hchanged b hb)).trans
          (map_id _)
      show ({ f with blocks := f.blocks.map s.rewriteBlock } : MedFunc) = f
      rw [hblocks]

namespace ConstantLoop

/-- It is live at the entry, and copies itself there. -/
def live : MedVar := { id := 3, size := 4 }

def seed : MedVar := { id := 0, size := 4 }

def joined : MedVar := { id := 1, size := 4 }

def five : MedVar := .makeConst 5 4 .unknown

def head : MedBlock :=
  { id := 0
    ops := [{ opcode := .copy, output := live, inputs := [live], numInputs := 1 },
      { opcode := .copy, output := seed, inputs := [five], numInputs := 1 }]
    succs := [1] }

def body : MedBlock :=
  { id := 1
    phis := [{ output := joined, args := [(0, seed), (1, joined)] }]
    ops := [{ opcode := .intAdd, output := { id := 2, size := 4 }, inputs := [joined, live],
              numInputs := 2 }]
    succs := [1]
    preds := [0, 1] }

def loop : MedFunc := { blocks := [head, body] }

lemma block_cases {b : MedBlock} (h : loop.block id = some b) : id = 0 ∧ b = head ∨ id = 1 ∧
    b = body := by
  obtain ⟨hmem, hid⟩ := block_mem h
  rcases mem_cons.mp hmem with rfl | hmem
  · exact .inl ⟨hid.symm, rfl⟩
  · have hbody := mem_singleton.mp hmem
    subst hbody
    exact .inr ⟨hid.symm, rfl⟩

lemma reached_assigned {k : Nat} (h : Reached loop {0} id k env) :
    id = 0 ∧ (2 ≤ k → (env seed.key).isSome) ∨ id = 1 ∧ (env seed.key).isSome ∧
      (env joined.key).isSome := by
  induction h with
  | entry hid => exact .inl ⟨hid, fun hk => absurd hk (by decide)⟩
  | @op id b op k env env' _ hblock hop hstep ih =>
    rcases block_cases hblock with ⟨rfl, rfl⟩ | ⟨rfl, rfl⟩
    · refine .inl ⟨rfl, fun hk => ?_⟩
      have hk : k = 1 := by
        obtain ⟨hlt, _⟩ := List.getElem?_eq_some_iff.mp hop
        have hlt : k < 2 := hlt
        omega
      subst hk
      obtain rfl := (Option.some.inj hop).symm
      obtain ⟨w, _, hw, _⟩ := hstep.output rfl
      rw [show seed.key = _ from rfl, hw]
      rfl
    · have hk := mem_singleton.mp (mem_of_getElem? hop)
      subst hk
      obtain ⟨hseed, hjoined⟩ := (ih.resolve_left fun h => absurd h.1 (by decide)).2
      refine .inr ⟨rfl, ?_, ?_⟩
      · rw [hstep.kept seed.key (fun _ => by decide) (by decide)]
        exact hseed
      · rw [hstep.kept joined.key (fun _ => by decide) (by decide)]
        exact hjoined
  | @edge id s b c env env' _ hblock hedge hblock' hstep ih =>
    have hseed : (env seed.key).isSome := by
      rcases ih with ⟨rfl, hassigned⟩ | ⟨_, hassigned, _⟩
      · obtain ⟨_, rfl⟩ := (block_cases hblock).resolve_right fun h => absurd h.1 (by decide)
        exact hassigned (Nat.le_refl 2)
      · exact hassigned
    have hs : s = 1 := by
      rcases block_cases hblock with ⟨_, rfl⟩ | ⟨_, rfl⟩
      · exact mem_singleton.mp hedge
      · exact mem_singleton.mp hedge
    subst hs
    obtain ⟨_, rfl⟩ := (block_cases hblock').resolve_left fun h => absurd h.1 (by decide)
    obtain ⟨w, _, hw, _⟩ := hstep.output _ mem_cons_self rfl
    refine .inr ⟨rfl, ?_, ?_⟩
    · rw [hstep.kept seed.key fun phi hphi _ => by rw [mem_singleton.mp hphi]; decide]
      exact hseed
    · rw [show joined.key = _ from rfl, hw]
      rfl

lemma sites_cases : ∀ s ∈ loop.sites, s.output.key ≠ five.key ∧
    (s.output.key = live.key → s.inputs = [live]) := by
  decide

lemma seeded_ne {key : Key} (h : loop.Seeded key) : key ≠ five.key ∧ key ≠ live.key := by
  induction h with
  | literal hs hv hconst =>
    obtain ⟨hfive, hlive⟩ := sites_cases _ hs
    refine ⟨hfive, fun hkey => ?_⟩
    rw [hlive hkey] at hv
    rw [mem_singleton.mp hv] at hconst
    exact absurd hconst (by decide)
  | through hs hv _ _ ih =>
    obtain ⟨hfive, hlive⟩ := sites_cases _ hs
    refine ⟨hfive, fun hkey => ?_⟩
    rw [hlive hkey] at hv
    exact ih.2 (by rw [mem_singleton.mp hv])

lemma ssaForm : SSAForm loop {0} where
  unique := by decide
  op_reads id k env b op v hreached hblock hop hv hseeded := by
    rcases block_cases hblock with ⟨rfl, rfl⟩ | ⟨rfl, rfl⟩
    · have hlive : v = live ∨ v = five := by
        rcases mem_cons.mp (mem_of_getElem? hop) with rfl | hop
        · exact .inl (mem_singleton.mp hv)
        · rw [mem_singleton.mp hop] at hv
          exact .inr (mem_singleton.mp hv)
      rcases hlive with rfl | rfl
      · exact absurd rfl (seeded_ne hseeded).2
      · exact absurd rfl (seeded_ne hseeded).1
    · have hop := mem_singleton.mp (mem_of_getElem? hop)
      subst hop
      rcases mem_cons.mp hv with rfl | hv
      · exact ((reached_assigned hreached).resolve_left fun h => absurd h.1 (by decide)).2.2
      · exact absurd (by rw [mem_singleton.mp hv]) (seeded_ne hseeded).2
  phi_reads id env b s c phi v hreached hblock hedge hblock' hphi hv _ := by
    have hassigned := reached_assigned hreached
    rcases block_cases hblock' with ⟨_, rfl⟩ | ⟨_, rfl⟩
    · cases hphi
    · rw [mem_singleton.mp hphi] at hv
      rcases mem_cons.mp hv with hv | hv
      · obtain ⟨rfl, rfl⟩ := Prod.mk.inj hv
        obtain ⟨_, rfl⟩ := (block_cases hblock).resolve_right fun h => absurd h.1 (by decide)
        exact (hassigned.resolve_right fun h => absurd h.1 (by decide)).2 (Nat.le_refl 2)
      · obtain ⟨rfl, rfl⟩ := Prod.mk.inj (mem_singleton.mp hv)
        exact (hassigned.resolve_left fun h => absurd h.1 (by decide)).2.2

end ConstantLoop

/-- The operand in the loop becomes the constant, which every iteration reads there; the one that is
live at the entry stays. -/
theorem propagateInvariantConstants_sound_loop :
    ((propagateInvariantConstants ConstantLoop.loop).1.block 1).map
        (fun b => b.ops.map (·.operands)) =
        some [[{ ConstantLoop.five with provenance := .scalar }, ConstantLoop.live]] ∧
      ∀ env, Reached ConstantLoop.loop {0} 1 0 env → ∀ w, Reads env ConstantLoop.joined w →
        w = 5 := by
  have hpass : ((propagateInvariantConstants ConstantLoop.loop).1.block 1).map
      (fun b => b.ops.map (·.operands)) =
      some [[{ ConstantLoop.five with provenance := .scalar }, ConstantLoop.live]] := by
    decide
  refine ⟨hpass, ?_⟩
  intro env hreached w hw
  obtain ⟨b', op', hblock, hop, hreplaced⟩ :=
    (propagateInvariantConstants_sound ConstantLoop.loop {0} ConstantLoop.ssaForm).1 1 0 env
      ConstantLoop.body _ hreached rfl rfl
  rw [hblock] at hpass
  have hoperands : op'.operands = [{ ConstantLoop.five with provenance := .scalar },
      ConstantLoop.live] := by
    have hmap := congrArg (fun l => l[0]?) (Option.some.inj hpass)
    rw [getElem?_map, hop] at hmap
    exact Option.some.inj hmap
  have hall := hreplaced.operands
  rw [hoperands] at hall
  rcases (List.forall₂_cons.mp hall).1 with hsame | ⟨_, _, hread⟩
  · exact absurd hsame (by decide)
  · exact hread w hw

end NeverD.Ir
