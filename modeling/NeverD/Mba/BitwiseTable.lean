import NeverD.Mba.TruthTable
import NeverD.Sym.Build

namespace NeverD.Mba
open Lib NeverD.Sym
open Lib.Minterms List Nat BitVec

variable {id : Nat}

def kMinPackedPolynomialAtoms : Nat := 4

def kMinPackedPolynomialWidth : Nat := 8

def firstPosition : List Nat → Nat → Option Nat
  | [], _ => none
  | a :: ids, id => if a = id then some 0 else (firstPosition ids id).map (· + 1)

def lastPosition : List Nat → Nat → Option Nat
  | [], _ => none
  | a :: ids, id =>
    match lastPosition ids id with
    | some j => some (j + 1)
    | none => if a = id then some 0 else none

def bitAt (position : Nat → Option Nat) (corner id : Nat) : Bool :=
  match position id with
  | some j => corner.testBit j
  | none => false

def assignment (ids : List Nat) (value : Nat → APInt) : List APInt :=
  (List.range (ids.foldr max 0 + 1)).map value

section

variable (ctx : SymContext) (f : SymRef) (atomIds : List Nat)

def cornerValue (corner : Nat) : APInt :=
  ctx.eval f (assignment atomIds fun id =>
    if bitAt (lastPosition atomIds) corner id then APInt.allOnes (ctx.width f)
      else APInt.zero (ctx.width f))

/-- One corner after the other; a third value at a corner means that there is no table. -/
def scalarTable : Option (TruthTable atomIds.length) :=
  if ∀ k < 2 ^ atomIds.length, (cornerValue ctx f atomIds k).isAllOnes ∨
    (cornerValue ctx f atomIds k).isZero then
    some (TruthTable.ofFn fun k => (cornerValue ctx f atomIds k).isAllOnes)
  else none

/-- Operators that act on every bit alone. -/
def independentBits : Bool :=
  (SymEvalPlan.build ctx f).steps.all fun st =>
    ctx.width st.node = ctx.width f &&
    (ctx.isVar st.node || ctx.isConst st.node || isBitwise (ctx.op st.node)) &&
    (!ctx.isConst st.node || (ctx.constValue st.node).isZero || (ctx.constValue st.node).isAllOnes)

/-- Each bit of a word holds another corner. -/
def packedValue (start : Nat) : APInt :=
  ctx.eval f (assignment atomIds fun id => ⟨ctx.width f, tabulate (ctx.width f) fun b =>
    decide (b < min (ctx.width f) (2 ^ atomIds.length - start)) && bitAt (firstPosition atomIds)
      (start + b) id⟩)

def packedTable : TruthTable atomIds.length :=
  TruthTable.ofFn fun k => (packedValue ctx f atomIds (k / ctx.width f * ctx.width f)).getBit
    (k % ctx.width f)

def bitwiseTable : Option (TruthTable atomIds.length) :=
  if atomIds.length > kMaxTruthTableAtoms then none
  else if ctx.isVar f then
    some <| match firstPosition atomIds (ctx.aux f) with
      | none => TruthTable.constant false
      | some j => atomTruthTable j atomIds.length
  else if kMinPackedPolynomialAtoms ≤ atomIds.length ∧ kMinPackedPolynomialWidth ≤ ctx.width f ∧
      independentBits ctx f then some (packedTable ctx f atomIds)
  else scalarTable ctx f atomIds

end

def atomWords (atomIds : List Nat) (vals : List APInt) (w : Nat) : List (BitVec w) :=
  atomIds.map fun id => (SymContext.varValue vals id w).read w

def BitwiseIn (ctx : SymContext) (atomIds : List Nat) (w : Nat) (f : SymRef) (b : Nat → Bool) :
    Prop :=
  ∀ vals, ctx.eval f vals = ⟨w, tableWord (atomWords atomIds vals w) b⟩

section

variable {ids : List Nat}

lemma firstPosition_some {j : Nat} (h : firstPosition ids id = some j) : ids[j]? = some id := by
  induction ids generalizing j with
  | nil => cases h
  | cons a ids ih =>
    rw [firstPosition] at h
    split at h
    next heq =>
      cases h
      rw [heq]
      rfl
    · obtain ⟨i, hi, rfl⟩ := Option.map_eq_some_iff.mp h
      exact ih hi

lemma firstPosition_mem (h : id ∈ ids) : ∃ j, firstPosition ids id = some j := by
  induction ids with
  | nil => cases h
  | cons a ids ih =>
    rw [firstPosition]
    by_cases heq : a = id
    · exact ⟨0, if_pos heq⟩
    · obtain ⟨j, hj⟩ := ih ((mem_cons.mp h).resolve_left (Ne.symm heq))
      exact ⟨j + 1, by rw [if_neg heq, hj]; rfl⟩

lemma lastPosition_some {j : Nat} (h : lastPosition ids id = some j) : ids[j]? = some id := by
  induction ids generalizing j with
  | nil => cases h
  | cons a ids ih =>
    rw [lastPosition] at h
    split at h
    next i hi =>
      cases h
      exact ih hi
    · split at h
      next heq =>
        cases h
        rw [heq]
        rfl
      · cases h

lemma lastPosition_mem (h : id ∈ ids) : ∃ j, lastPosition ids id = some j := by
  induction ids with
  | nil => cases h
  | cons a ids ih =>
    rw [lastPosition]
    cases hrest : lastPosition ids id with
    | some i => exact ⟨i + 1, rfl⟩
    | none =>
      by_cases heq : a = id
      · exact ⟨0, if_pos heq⟩
      · obtain ⟨j, hj⟩ := ih ((mem_cons.mp h).resolve_left (Ne.symm heq))
        rw [hrest] at hj
        cases hj

def Locates (position : Nat → Option Nat) (ids : List Nat) : Prop :=
  ∀ id ∈ ids, ∃ j, position id = some j ∧ ids[j]? = some id

lemma locates_first (ids : List Nat) : Locates (firstPosition ids) ids := by
  intro id hid
  obtain ⟨j, hj⟩ := firstPosition_mem hid
  exact ⟨j, hj, firstPosition_some hj⟩

lemma locates_last (ids : List Nat) : Locates (lastPosition ids) ids := by
  intro id hid
  obtain ⟨j, hj⟩ := lastPosition_mem hid
  exact ⟨j, hj, lastPosition_some hj⟩

lemma assignment_get (h : id ∈ ids) (value : Nat → APInt) :
    (assignment ids value)[id]? = some (value id) := by
  have hle : id ≤ ids.foldr max 0 := by
    induction ids with
    | nil => cases h
    | cons a ids ih =>
      rw [foldr_cons]
      rcases mem_cons.mp h with rfl | h
      · exact le_max_left _ _
      · exact (ih h).trans (le_max_right _ _)
  rw [assignment, getElem?_map, getElem?_range (lt_succ_of_le hle)]
  rfl

lemma atomWords_assignment {w : Nat} (x : Nat → BitVec w) :
    atomWords ids (assignment ids fun id => ⟨w, x id⟩) w = ids.map x := by
  apply map_congr_left
  intro id hid
  rw [SymContext.varValue, assignment_get hid]
  dsimp only
  rw [if_pos rfl, APInt.read, setWidth_eq]

theorem column_settled {position : Nat → Option Nat} (hpos : Locates position ids)
    (vals : List APInt) {w i : Nat} {k : Nat} (hk : k = column (atomWords ids vals w) i) :
    patternOf (ids.map (bitAt position k)) = k := by
  rw [hk]
  show _ = patternOf _
  rw [atomWords, map_map]
  congr 1
  apply map_congr_left
  intro id hid
  obtain ⟨j, hj, hget⟩ := hpos id hid
  rw [bitAt, hj]
  dsimp only
  unfold column
  rw [testBit_patternOf, map_map, List.getD, getElem?_map, hget]
  rfl

end

variable {ctx : SymContext} {f : SymRef} {atomIds : List Nat} {w : Nat} {b : Nat → Bool}

lemma column_map {n : Nat} (ids : List Nat) (x : Nat → BitVec n) (i : Nat) :
    column (ids.map x) i = patternOf (ids.map fun id => (x id).getLsbD i) := by
  rw [column, map_map]
  rfl

lemma cornerValue_eq (hb : BitwiseIn ctx atomIds w f b) (hw : ctx.width f = w) (k : Nat) :
    cornerValue ctx f atomIds k =
      ⟨w, tabulate w fun _ => b (patternOf (atomIds.map (bitAt (lastPosition atomIds) k)))⟩ := by
  have hval : (fun id => if bitAt (lastPosition atomIds) k id then APInt.allOnes (ctx.width f)
      else APInt.zero (ctx.width f)) =
      fun id => ⟨w, tabulate w fun _ => bitAt (lastPosition atomIds) k id⟩ := by
    funext id
    rw [hw]
    have hext : ∀ c : Bool, (if c then APInt.allOnes w else APInt.zero w) =
        ⟨w, tabulate w fun _ => c⟩ := by
      intro c
      cases c with
      | true =>
        rw [if_pos rfl, APInt.allOnes]
        congr 1
        apply eq_of_getLsbD_eq
        intro i hi
        rw [getLsbD_allOnes, getLsbD_tabulate, Bool.and_true]
      | false =>
        rw [if_neg Bool.false_ne_true, APInt.zero, APInt.ofNat]
        congr 1
        apply eq_of_getLsbD_eq
        intro i hi
        rw [getLsbD_tabulate, Bool.and_false]
        exact getLsbD_zero
    exact hext _
  rw [cornerValue, hval, hb, atomWords_assignment]
  congr 1
  apply tabulate_congr
  intro i hi
  rw [column_map]
  congr 2
  apply map_congr_left
  intro id _
  rw [getLsbD_tabulate, decide_eq_true hi, Bool.true_and]

lemma isAllOnes_constant (hw : 0 < w) (c : Bool) :
    (APInt.mk w (tabulate w fun _ => c)).isAllOnes = c := by
  rw [APInt.isAllOnes, Bool.eq_iff_iff, decide_eq_true_eq]
  constructor
  · intro h
    have hbit : (tabulate w fun _ => c).getLsbD 0 = (BitVec.allOnes w).getLsbD 0 :=
      congrArg (BitVec.getLsbD · 0) h
    rwa [getLsbD_tabulate, getLsbD_allOnes, decide_eq_true hw, Bool.true_and] at hbit
  · intro h
    apply eq_of_getLsbD_eq
    intro i hi
    rw [getLsbD_allOnes, getLsbD_tabulate, h, Bool.and_true]

lemma packedValue_getBit (hb : BitwiseIn ctx atomIds w f b) (hw : ctx.width f = w) {start i : Nat}
    (hi : i < w)
    (hs : start + i < 2 ^ atomIds.length) : (packedValue ctx f atomIds start).getBit i =
      b (patternOf (atomIds.map (bitAt (firstPosition atomIds) (start + i)))) := by
  subst hw
  rw [packedValue, hb, atomWords_assignment, APInt.getBit, getLsbD_tableWord _ _ hi, column_map]
  congr 2
  apply map_congr_left
  intro id _
  have hlt : i < min (ctx.width f) (2 ^ atomIds.length - start) := by omega
  rw [getLsbD_tabulate, decide_eq_true hi, Bool.true_and, decide_eq_true hlt, Bool.true_and]

lemma eval_var (h : ctx.Acyclic) (hf : f < ctx.nodes.length) (hv : ctx.isVar f = true)
    (vals : List APInt) : ctx.eval f vals = SymContext.varValue vals (ctx.aux f) (ctx.width f) := by
  rw [h.eval_eq vals hf, h.value_eq vals hf, SymContext.nodeValue, if_pos (of_decide_eq_true hv)]

/-- A variable that is a function of other inputs would have the same bits whatever its value is. -/
theorem not_bitwiseIn_other (h : ctx.Acyclic) (hf : f < ctx.nodes.length) (hv : ctx.isVar f = true)
    (hw : ctx.width f = w) (hpos : 0 < w) (hb : BitwiseIn ctx atomIds w f b) :
    ctx.aux f ∈ atomIds := by
  by_contra hnot
  have hval : ∀ c : Bool, b (patternOf (atomIds.map fun _ => false)) = c := by
    intro c
    let x : Nat → BitVec w := fun id => tabulate w fun _ => decide (id = ctx.aux f) && c
    have heval := hb (assignment (ctx.aux f :: atomIds) fun id => ⟨w, x id⟩)
    have hall : atomWords (ctx.aux f :: atomIds) (assignment (ctx.aux f :: atomIds) fun id =>
        ⟨w, x id⟩) w = (ctx.aux f :: atomIds).map x := atomWords_assignment x
    have hwords : atomWords atomIds (assignment (ctx.aux f :: atomIds) fun id => ⟨w, x id⟩) w =
        atomIds.map x :=
      (List.cons.inj hall).2
    rw [eval_var h hf hv, hwords, SymContext.varValue, assignment_get mem_cons_self, hw] at heval
    dsimp only at heval
    rw [if_pos rfl] at heval
    have hbit := congrArg (fun a => a.getBit 0) heval
    dsimp only [APInt.getBit] at hbit
    rw [getLsbD_tabulate, decide_eq_true hpos, getLsbD_tableWord _ _ hpos, column_map,
      decide_eq_true rfl, Bool.true_and, Bool.true_and] at hbit
    rw [hbit]
    congr 2
    apply map_congr_left
    intro id hid
    rw [getLsbD_tabulate, decide_eq_false (fun heq : id = ctx.aux f => hnot (heq ▸ hid)),
      Bool.false_and, Bool.and_false]
  exact Bool.false_ne_true ((hval false).symm.trans (hval true))

/-- The table of a Boolean function of the inputs is that function, on every column that occurs. -/
theorem bitwiseTable_sound (h : ctx.Acyclic) (hf : f < ctx.nodes.length) (hw : ctx.width f = w)
    (hpos : 0 < w)
    (hb : BitwiseIn ctx atomIds w f b) {t : TruthTable atomIds.length}
    (ht : bitwiseTable ctx f atomIds = some t)
    (vals : List APInt) : ctx.eval f vals = ⟨w, tableWord (atomWords atomIds vals w) t.entry⟩ := by
  rw [hb]
  congr 1
  apply tabulate_congr
  intro i hi
  have hlt := column_lt (atomWords atomIds vals w) i
  have hlen : (atomWords atomIds vals w).length = atomIds.length := length_map ..
  rw [hlen] at hlt
  generalize hk : column (atomWords atomIds vals w) i = k at hlt
  have hsettled : ∀ {position}, Locates position atomIds →
      patternOf (atomIds.map (bitAt position k)) = k :=
    fun hloc => column_settled hloc vals hk.symm
  unfold bitwiseTable at ht
  split at ht
  · cases ht
  split at ht
  next hv =>
    obtain ⟨j, hj⟩ := firstPosition_mem (not_bitwiseIn_other h hf hv hw hpos hb)
    rw [hj] at ht
    cases ht
    have hget := firstPosition_some hj
    have hjlt : j < atomIds.length := (List.getElem?_eq_some_iff.mp hget).1
    -- The variable's own bit is both the function's and the column's.
    have heval := hb vals
    rw [eval_var h hf hv, hw] at heval
    have hbit := congrArg (fun a => (a.read w).getLsbD i) heval
    dsimp only [APInt.read] at hbit
    rw [setWidth_eq, getLsbD_tableWord _ _ hi, hk] at hbit
    rw [← hbit, entry_atomTruthTable hjlt hlt, ← hk]
    unfold column atomWords
    rw [testBit_patternOf, map_map, List.getD, getElem?_map, hget]
    rfl
  split at ht
  · cases ht
    have hdiv := div_add_mod' k w
    have hmod := mod_lt k hpos
    rw [packedTable, TruthTable.entry_ofFn _ hlt, hw, packedValue_getBit hb hw hmod (by rwa [hdiv]),
      hdiv, hsettled (locates_first atomIds)]
  · unfold scalarTable at ht
    split at ht
    · cases ht
      rw [TruthTable.entry_ofFn _ hlt, cornerValue_eq hb hw, isAllOnes_constant hpos,
        hsettled (locates_last atomIds)]
    · cases ht

end NeverD.Mba
