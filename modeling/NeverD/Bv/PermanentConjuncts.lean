import NeverD.Sym.Meaning

namespace NeverD.Bv
open Lib Words NeverD.Sym List
open Option (bind_eq_some_iff)

abbrev PermanentConjunct := SymRef × Bool

def kMaxPermanentConjunctWork : Nat := 2 ^ 18

/-- The work list has its last element first. -/
structure ConjunctWalk where
  remaining : Nat
  work : List PermanentConjunct
  seen : List PermanentConjunct := []
  leaves : List PermanentConjunct := []

section

variable (ctx : SymContext)

def validBoolean (r : SymRef) : Bool := r < ctx.nodes.length ∧ ctx.width r = 1

def charge (amount remaining : Nat) : Option Nat :=
  if remaining < amount then none else some (remaining - amount)

/-- The bit behind a comparison of an extended bit with a number, and whether the number is one. -/
def comparedBit (number other : SymRef) (remaining : Nat) :
    Option (Nat × Option PermanentConjunct) :=
  if ctx.isConst number ∧ ctx.op other = .zext ∧ (ctx.operands other).length = 1 ∧
      1 < ctx.width other ∧ ctx.width other = ctx.width number then do
    let remaining ← charge 1 remaining
    let bit := ctx.operand other 0
    if validBoolean ctx bit = false then some (remaining, none)
    else do
      let remaining ← charge (3 * ((ctx.width number - 1) / 64 + 1)) remaining
      let value := ctx.constValue number
      if value.toNat = 0 then some (remaining, some (bit, false))
      else if value.toNat = 1 then some (remaining, some (bit, true))
      else some (remaining, none)
  else some (remaining, none)

/-- What a conjunct splits into, with the work paid for; nothing for a leaf. -/
def splitConjunct (r : SymRef) (positive : Bool) (remaining : Nat) :
    Option (Nat × Option (List PermanentConjunct)) :=
  let args := ctx.operands r
  if ctx.op r = .and ∧ positive = true ∨ ctx.op r = .or ∧ positive = false then
    if args = [] then none
    else do
      let remaining ← charge args.length remaining
      if args.all (validBoolean ctx) then some (remaining, some (args.map fun a => (a, positive)))
        else none
  else if ctx.op r = .not then
    if args.length ≠ 1 then none
    else do
      let remaining ← charge 1 remaining
      if validBoolean ctx (ctx.operand r 0) then
        some (remaining, some [(ctx.operand r 0, !positive)]) else none
  else if ctx.op r = .eq then
    if args.length ≠ 2 then none
    else do
      let remaining ← charge 2 remaining
      if args.any fun a => ctx.nodes.length ≤ a then none
      else do
        let (remaining, left) ← comparedBit ctx (ctx.operand r 0) (ctx.operand r 1) remaining
        match left with
        | some (bit, one) => some (remaining, some [(bit, positive == one)])
        | none => do
          let (remaining, right) ← comparedBit ctx (ctx.operand r 1) (ctx.operand r 0) remaining
          some (remaining, right.map fun (bit, one) => [(bit, positive == one)])
  else some (remaining, none)

/-- Take one conjunct off the work list, unless it was taken before. -/
def ConjunctWalk.visit (st : ConjunctWalk) : Option ConjunctWalk :=
  match st.work with
  | [] => some st
  | c :: work => do
    let remaining ← charge 1 st.remaining
    if validBoolean ctx c.1 = false then none
    else if c ∈ st.seen then some { st with remaining := remaining, work := work }
    else do
      let (remaining, parts) ← splitConjunct ctx c.1 c.2 remaining
      match parts with
      | some parts => some ⟨remaining, parts.reverse ++ work, c :: st.seen, st.leaves⟩
      | none => some ⟨remaining, work, c :: st.seen, st.leaves ++ [c]⟩

def ConjunctWalk.run : Nat → ConjunctWalk → Option (List PermanentConjunct)
  | 0, _ => none
  | fuel + 1, st => if st.work = [] then some st.leaves else (st.visit ctx).bind (run fuel)

def conjunctLe (a b : PermanentConjunct) : Bool := if a.1 ≠ b.1 then a.1 < b.1 else a.2 ≤ b.2

def collectPermanentConjuncts (pred : SymRef) (maxWork : Nat) : Option (List PermanentConjunct) :=
  let remaining := min maxWork kMaxPermanentConjunctWork
  if remaining = 0 ∨ validBoolean ctx pred = false then none
  else (ConjunctWalk.run ctx (remaining + 1) { remaining := remaining, work := [(pred, true)] }).map
    (List.insertionSort (fun a b => conjunctLe a b))

end

section

variable [BlockHash] {s : SymBuilder} {vals : List APInt} {st st' : ConjunctWalk}
  {c : PermanentConjunct} {amount n n' : Nat}

def Holds (ctx : SymContext) (vals : List APInt) (c : PermanentConjunct) : Prop :=
  ctx.num vals c.1 = bit c.2

/-- The parts are below the conjunct, and say the same together. -/
structure Parts (ctx : SymContext) (vals : List APInt) (c : PermanentConjunct)
    (parts : List PermanentConjunct) : Prop where
  below : ∀ d ∈ parts, d.1 < c.1
  iff : Holds ctx vals c ↔ ∀ d ∈ parts, Holds ctx vals d

omit [BlockHash] in
lemma charge_add (h : charge amount n = some n') : n' + amount = n := by
  unfold charge at h
  split at h
  · cases h
  · cases h
    omega

omit [BlockHash] in
lemma validBoolean_has {r : SymRef} (h : validBoolean s.ctx r = true) : Has s r 1 :=
  of_decide_eq_true (p := r < s.ctx.nodes.length ∧ s.ctx.width r = 1) h

lemma holds_iff (h : At s.ctx vals s) (hc : Has s c.1 1) : Holds s.ctx vals c ↔
    (s.ctx.num vals c.1 = 1 ↔ c.2 = true) := by
  obtain ⟨r, positive⟩ := c
  have hlt : s.ctx.num vals r < 2 := h.lt hc
  cases positive
  · show _ = 0 ↔ _
    simp only [Bool.false_eq_true, iff_false]
    omega
  · show _ = 1 ↔ _
    simp only [iff_true]

lemma comparedBit_spec (h : At s.ctx vals s) {number other : SymRef}
    (hn : number < s.ctx.nodes.length)
    (ho : other < s.ctx.nodes.length) {found : Option PermanentConjunct}
    (hf : comparedBit s.ctx number other n = some (n', found)) : n' ≤ n ∧
      ∀ d, found = some d → Has s d.1 1 ∧ d.1 < other ∧
        (s.ctx.num vals number = s.ctx.num vals other ↔ Holds s.ctx vals d) := by
  unfold comparedBit at hf
  split at hf
  next hform =>
    obtain ⟨hconst, hop, -, -, -⟩ := hform
    obtain ⟨n₁, h1, hf⟩ := bind_eq_some_iff.mp hf
    have hn1 := charge_add h1
    dsimp only at hf
    split at hf
    · cases hf
      exact ⟨by omega, fun _ hd => (nomatch hd)⟩
    next hbit =>
      have hbit := validBoolean_has (Bool.not_eq_false _ ▸ hbit)
      obtain ⟨n₂, h2, hf⟩ := bind_eq_some_iff.mp hf
      have hn2 := charge_add h2
      obtain ⟨hops, -, -, hzext⟩ := h.zext_num ⟨ho, rfl⟩ hop
      have hbelow : s.ctx.operand other 0 < other :=
        h.operand_below ho (by rw [hops]; exact mem_cons_self)
      have hnum := h.const_num ⟨hn, rfl⟩ hconst
      split at hf
      next hz =>
        cases hf
        refine ⟨by omega, fun d hd => ?_⟩
        cases hd
        refine ⟨hbit, hbelow, ?_⟩
        rw [hnum, hz, hzext]
        exact eq_comm
      · split at hf
        next hone =>
          cases hf
          refine ⟨by omega, fun d hd => ?_⟩
          cases hd
          refine ⟨hbit, hbelow, ?_⟩
          rw [hnum, hone, hzext]
          exact eq_comm
        · cases hf
          exact ⟨by omega, fun _ hd => (nomatch hd)⟩
  · cases hf
    exact ⟨le_rfl, fun _ hd => (nomatch hd)⟩

omit [BlockHash] in
theorem polar_iff {p q : Prop} {positive one : Bool} (h : p ↔ (q ↔ one = true)) :
    (p ↔ positive = true) ↔ (q ↔ (positive == one) = true) := by
  cases positive <;> cases one <;> simp_all

omit [BlockHash] in
lemma andAll_bits {xs : List Nat} (h : ∀ x ∈ xs, x < 2) : andAll 1 xs = 1 ↔ ∀ x ∈ xs, x = 1 := by
  induction xs with
  | nil => exact iff_of_true rfl (forall_mem_nil _)
  | cons x xs ih =>
    rw [forall_mem_cons] at h
    rw [forall_mem_cons, andAll_cons, ← ih h.2]
    have hlt : andAll 1 xs < 2 := andAll_lt 1 xs
    generalize andAll 1 xs = y at hlt
    have hlow := h.1
    have hx : x = 0 ∨ x = 1 := by omega
    have hy : y = 0 ∨ y = 1 := by omega
    rcases hx with rfl | rfl <;> rcases hy with rfl | rfl <;> decide

omit [BlockHash] in
lemma orAll_zero (xs : List Nat) : orAll xs = 0 ↔ ∀ x ∈ xs, x = 0 := by
  induction xs with
  | nil => exact iff_of_true rfl (forall_mem_nil _)
  | cons x xs ih => rw [forall_mem_cons, orAll_cons, Nat.or_eq_zero_iff, ih]

theorem parts_operands (h : At s.ctx vals s) (hc : Has s c.1 1)
    (hop : s.ctx.op c.1 = .and ∧ c.2 = true ∨ s.ctx.op c.1 = .or ∧ c.2 = false) :
    Parts s.ctx vals c ((s.ctx.operands c.1).map fun a => (a, c.2)) := by
  constructor
  · intro d hd
    obtain ⟨a, ha, rfl⟩ := mem_map.mp hd
    exact h.operand_below hc.1 ha
  · rw [forall_mem_map]
    unfold Holds
    rcases hop with ⟨hop, hp⟩ | ⟨hop, hp⟩
    · rw [hp, h.and_num hc hop]
      have hall := (h.nary hc (by simp [hop])).2
      refine (andAll_bits ?_).trans forall_mem_map
      intro x hx
      obtain ⟨a, ha, rfl⟩ := mem_map.mp hx
      exact h.lt (hall a ha)
    · rw [hp, h.or_num hc hop]
      exact (orAll_zero _).trans forall_mem_map

lemma splitConjunct_spec (h : At s.ctx vals s) (hc : Has s c.1 1)
    {parts : Option (List PermanentConjunct)}
    (hs : splitConjunct s.ctx c.1 c.2 n = some (n', parts)) : n' ≤ n ∧
      ∀ ps, parts = some ps → Parts s.ctx vals c ps := by
  unfold splitConjunct at hs
  dsimp only at hs
  split at hs
  next hop =>
    split at hs
    · cases hs
    obtain ⟨n₁, h1, hs⟩ := bind_eq_some_iff.mp hs
    have hn1 := charge_add h1
    split at hs
    · cases hs
      refine ⟨by omega, fun ps hps => ?_⟩
      cases hps
      exact parts_operands h hc hop
    · cases hs
  split at hs
  next hop =>
    split at hs
    · cases hs
    obtain ⟨n₁, h1, hs⟩ := bind_eq_some_iff.mp hs
    have hn1 := charge_add h1
    split at hs
    · cases hs
      refine ⟨by omega, fun ps hps => ?_⟩
      cases hps
      obtain ⟨ha, hnum⟩ := h.not_num hc hop
      have hshape := h.shape hc
      rw [hop] at hshape
      obtain ⟨hops, -⟩ := h.one hc hshape
      constructor
      · intro d hd
        rw [mem_singleton.mp hd]
        exact h.operand_below hc.1 (by rw [hops]; exact mem_cons_self)
      · rw [forall_mem_singleton, holds_iff h hc, holds_iff (c := (s.ctx.operand c.1 0, !c.2)) h ha,
          hnum]
        have hlt := h.lt ha
        cases c.2 with
        | false | true => simp [notOf, ones]; omega
    · cases hs
  split at hs
  next hop =>
    split at hs
    · cases hs
    obtain ⟨n₁, h1, hs⟩ := bind_eq_some_iff.mp hs
    have hn1 := charge_add h1
    split at hs
    · cases hs
    obtain ⟨-, hops, ha, hb⟩ := h.compared hc (by simp [isPredicate, hop])
    have hbelow : s.ctx.operand c.1 0 < c.1 ∧ s.ctx.operand c.1 1 < c.1 :=
      ⟨h.operand_below hc.1 (by rw [hops]; simp), h.operand_below hc.1 (by rw [hops]; simp)⟩
    have hnum : s.ctx.num vals c.1 = 1 ↔
        s.ctx.num vals (s.ctx.operand c.1 0) = s.ctx.num vals (s.ctx.operand c.1 1) := by
      rw [h.eq_num hc hop]
      unfold bit
      split
      next he => exact iff_of_true rfl (of_decide_eq_true he)
      next he => exact iff_of_false Nat.zero_ne_one (fun hn => he (decide_eq_true hn))
    -- The bit that is found stands for the equality, on either side.
    have hpart : ∀ d : PermanentConjunct, Has s d.1 1 → d.1 < c.1 →
        (s.ctx.num vals (s.ctx.operand c.1 0) = s.ctx.num vals (s.ctx.operand c.1 1) ↔
          Holds s.ctx vals d) →
        Parts s.ctx vals c [(d.1, c.2 == d.2)] := by
      intro d hd hlt hiff
      refine ⟨by rw [forall_mem_singleton]; exact hlt, ?_⟩
      rw [forall_mem_singleton, holds_iff h hc, holds_iff (c := (d.1, c.2 == d.2)) h hd]
      exact polar_iff (hnum.trans (hiff.trans (holds_iff h hd)))
    obtain ⟨⟨n₂, left⟩, h2, hs⟩ := bind_eq_some_iff.mp hs
    obtain ⟨hn2, hleft⟩ := comparedBit_spec h ha.1 hb.1 h2
    cases left with
    | some d =>
      cases hs
      refine ⟨by omega, fun ps hps => ?_⟩
      cases hps
      obtain ⟨hd, hlt, hiff⟩ := hleft d rfl
      exact hpart d hd (hlt.trans hbelow.2) hiff
    | none =>
      obtain ⟨⟨n₃, right⟩, h3, hs⟩ := bind_eq_some_iff.mp hs
      obtain ⟨hn3, hright⟩ := comparedBit_spec h hb.1 ha.1 h3
      cases hs
      refine ⟨by omega, fun ps hps => ?_⟩
      obtain ⟨d, hd, rfl⟩ := Option.map_eq_some_iff.mp hps
      obtain ⟨hd, hlt, hiff⟩ := hright d hd
      exact hpart d hd (hlt.trans hbelow.1) (eq_comm.trans hiff)
  · cases hs
    refine ⟨le_rfl, fun _ hps => ?_⟩
    cases hps

omit [BlockHash] in
lemma Parts.reverse {ctx : SymContext} {ps : List PermanentConjunct} (h : Parts ctx vals c ps) :
    Parts ctx vals c ps.reverse :=
  ⟨fun d hd => h.below d (mem_reverse.mp hd), by simpa only [mem_reverse] using h.iff⟩

/-- What a round does: it drops a conjunct that was taken before, splits one, or makes one a
leaf. -/
theorem visit_cases (h : At s.ctx vals s) {work : List PermanentConjunct} (hw : st.work = c :: work)
    (hv : st.visit s.ctx = some st') : c.1 < s.ctx.nodes.length ∧ st'.remaining < st.remaining ∧
      ∃ parts leaf, st'.work = parts ++ work ∧ st'.leaves = st.leaves ++ leaf ∧
        (∀ d, d ∈ st'.seen ↔ d = c ∨ d ∈ st.seen) ∧
        (c ∈ st.seen ∧ parts = [] ∧ leaf = [] ∨ Parts s.ctx vals c parts ∧ leaf = [] ∨ parts = [] ∧
          leaf = [c]) := by
  unfold ConjunctWalk.visit at hv
  rw [hw] at hv
  obtain ⟨n, h1, hv⟩ := bind_eq_some_iff.mp hv
  have hn := charge_add h1
  split at hv
  · cases hv
  rename_i hc
  have hc := validBoolean_has (Bool.not_eq_false _ ▸ hc)
  split at hv
  next hseen =>
    cases hv
    refine ⟨hc.1, by
      show n < _; omega, [], [], rfl, (append_nil _).symm, fun d => ?_, .inl ⟨hseen, rfl, rfl⟩⟩
    exact ⟨.inr, fun hd => hd.elim (fun he => he ▸ hseen) id⟩
  · obtain ⟨⟨n', parts⟩, h2, hv⟩ := bind_eq_some_iff.mp hv
    obtain ⟨hn', hparts⟩ := splitConjunct_spec h hc h2
    cases parts with
    | some ps =>
      cases hv
      exact ⟨hc.1, by
        show n' < _; omega, ps.reverse, [], rfl, (append_nil _).symm, fun _ => mem_cons,
        Or.inr (.inl ⟨(hparts ps rfl).reverse, rfl⟩)⟩
    | none =>
      cases hv
      exact ⟨hc.1, by
        show n' < _; omega, [], [c], rfl, rfl, fun _ => mem_cons, .inr (.inr ⟨rfl, rfl⟩)⟩

/-- What was taken is a leaf, or what it was split into was taken or waits. -/
structure Walked (ctx : SymContext) (vals : List APInt) (pred : SymRef) (st : ConjunctWalk) :
    Prop where
  root : (pred, true) ∈ st.seen ∨ (pred, true) ∈ st.work
  bound : ∀ c ∈ st.seen, c.1 < ctx.nodes.length
  leaves : ∀ c ∈ st.leaves, c ∈ st.seen
  split : ∀ c ∈ st.seen, c ∈ st.leaves ∨ ∃ ps, Parts ctx vals c ps ∧ ∀ d ∈ ps, d ∈ st.seen ∨
    d ∈ st.work
  entailed : Holds ctx vals (pred, true) → ∀ c, c ∈ st.seen ∨ c ∈ st.work → Holds ctx vals c

lemma Walked.visit (h : At s.ctx vals s) {pred : SymRef} (hst : Walked s.ctx vals pred st)
    (hv : st.visit s.ctx = some st') : Walked s.ctx vals pred st' := by
  cases hw : st.work with
  | nil =>
    unfold ConjunctWalk.visit at hv
    rw [hw] at hv
    cases hv
    exact hst
  | cons c work =>
    obtain ⟨hbound, -, parts, leaf, hwork, hleaves, hseen, hcase⟩ := visit_cases h hw hv
    have hkeep : ∀ d, d ∈ st.seen ∨ d ∈ st.work → d ∈ st'.seen ∨ d ∈ st'.work := by
      intro d hd
      rw [hw, mem_cons] at hd
      rw [hseen, hwork, mem_append]
      tauto
    have hold : ∀ d ∈ st.seen, d ∈ st'.leaves ∨
        ∃ ps, Parts s.ctx vals d ps ∧ ∀ e ∈ ps, e ∈ st'.seen ∨ e ∈ st'.work := by
      intro d hd
      rcases hst.split d hd with hl | ⟨ps, hps, hmem⟩
      · exact .inl (hleaves ▸ mem_append_left _ hl)
      · exact .inr ⟨ps, hps, fun e he => hkeep e (hmem e he)⟩
    refine ⟨hkeep _ hst.root, fun d hd => ((hseen d).mp hd).elim (fun he => he ▸ hbound)
      (hst.bound d), ?_, ?_, ?_⟩
    · intro d hd
      rw [hleaves, mem_append] at hd
      rw [hseen]
      rcases hd with hd | hd
      · exact .inr (hst.leaves d hd)
      · rcases hcase with ⟨-, -, rfl⟩ | ⟨-, rfl⟩ | ⟨-, rfl⟩
        · cases hd
        · cases hd
        · exact .inl (mem_singleton.mp hd)
    · intro d hd
      rcases (hseen d).mp hd with rfl | hd
      · rcases hcase with ⟨hin, -, -⟩ | ⟨hps, -⟩ | ⟨-, rfl⟩
        · exact hold d hin
        · exact .inr ⟨parts, hps, fun e he => .inr (hwork ▸ mem_append_left _ he)⟩
        · exact .inl (hleaves ▸ mem_append_right _ mem_cons_self)
      · exact hold d hd
    · intro hp
      have hc := hst.entailed hp c (.inr (hw ▸ mem_cons_self))
      intro d hd
      rw [hseen, hwork, mem_append] at hd
      rcases hd with (rfl | hd) | hd | hd
      · exact hc
      · exact hst.entailed hp d (.inl hd)
      · rcases hcase with ⟨-, rfl, -⟩ | ⟨hps, -⟩ | ⟨rfl, -⟩
        · cases hd
        · exact hps.iff.mp hc d hd
        · cases hd
      · exact hst.entailed hp d (.inr (hw ▸ mem_cons_of_mem _ hd))

lemma Walked.run (h : At s.ctx vals s) {pred : SymRef} {fuel : Nat}
    (hst : Walked s.ctx vals pred st)
    {leaves : List PermanentConjunct} (hr : st.run s.ctx fuel = some leaves) :
    ∃ last, Walked s.ctx vals pred last ∧ last.work = [] ∧ last.leaves = leaves := by
  induction fuel generalizing st with
  | zero => cases hr
  | succ fuel ih =>
    rw [ConjunctWalk.run] at hr
    split at hr
    next hw =>
      cases hr
      exact ⟨st, hst, hw, rfl⟩
    · obtain ⟨st₁, hv, hr⟩ := bind_eq_some_iff.mp hr
      exact ih (hst.visit h hv) hr

theorem run_fuel (h : At s.ctx vals s) {fuel : Nat} (hf : st.remaining < fuel) :
    st.run s.ctx (fuel + 1) = st.run s.ctx fuel := by
  induction fuel generalizing st with
  | zero => exact absurd hf (Nat.not_lt_zero _)
  | succ fuel ih =>
    rw [ConjunctWalk.run, ConjunctWalk.run]
    split
    · rfl
    next hw =>
      obtain ⟨c, work, hw⟩ := exists_cons_of_ne_nil hw
      cases hv : st.visit s.ctx with
      | none => rfl
      | some st' =>
        have hless := (visit_cases h hw hv).2.1
        exact ih (by omega)

omit [BlockHash] in
theorem Walked.holds {pred : SymRef} (hst : Walked s.ctx vals pred st) (hw : st.work = [])
    (hl : ∀ c ∈ st.leaves, Holds s.ctx vals c) (c : PermanentConjunct) (hc : c ∈ st.seen) :
    Holds s.ctx vals c := by
  induction hn : c.1 using Nat.strong_induction_on generalizing c with
  | h n ih =>
    rcases hst.split c hc with hleaf | ⟨ps, hps, hmem⟩
    · exact hl c hleaf
    · refine hps.iff.mpr fun d hd => ih d.1 (hn ▸ hps.below d hd) d ?_ rfl
      exact (hmem d hd).resolve_right (by rw [hw]; exact not_mem_nil)

variable [ProjectionHash] [KnownTransfer]

/-- A predicate holds exactly when all conjuncts that are collected from it do. -/
theorem collectPermanentConjuncts_iff (hT : KnownTransfer.Sound) (hs : s.Built) {pred : SymRef}
    {maxWork : Nat}
    {leaves : List PermanentConjunct}
    (hr : collectPermanentConjuncts s.ctx pred maxWork = some leaves) (vals : List APInt) :
    (s.ctx.eval pred vals).toNat = 1 ↔ ∀ c ∈ leaves, (s.ctx.eval c.1 vals).toNat = if c.2 then 1
    else 0 := by
  have hvalid := hs.valid hT
  have h : At s.ctx vals s := ⟨hvalid vals, SymContext.Extends.refl _⟩
  unfold collectPermanentConjuncts at hr
  dsimp only at hr
  split at hr
  · cases hr
  rename_i hpred
  rw [not_or, Bool.not_eq_false] at hpred
  obtain ⟨found, hrun, rfl⟩ := Option.map_eq_some_iff.mp hr
  have hstart : Walked s.ctx vals pred
      { remaining := min maxWork kMaxPermanentConjunctWork, work := [(pred, true)] } := by
    refine ⟨Or.inr mem_cons_self, forall_mem_nil _, forall_mem_nil _, forall_mem_nil _, ?_⟩
    intro hp c hc
    rw [mem_singleton.mp (hc.resolve_left not_mem_nil)]
    exact hp
  obtain ⟨last, hlast, hw, rfl⟩ := hstart.run h hrun
  have hroot : (pred, true) ∈ last.seen := hlast.root.resolve_right (by rw [hw]; exact not_mem_nil)
  have heval : ∀ r, r < s.ctx.nodes.length → (s.ctx.eval r vals).toNat = s.ctx.num vals r :=
    fun r hr =>
    (hvalid.eval_toNat (SymContext.Extends.refl _) vals ⟨hr, rfl⟩).2
  have hmem : ∀ c ∈ last.leaves.insertionSort fun a b => conjunctLe a b, c ∈ last.leaves :=
    fun c hc =>
    (perm_insertionSort ..).mem_iff.mp hc
  rw [heval pred (validBoolean_has hpred.2).1]
  constructor
  · intro hp c hc
    have hseen := hlast.leaves c (hmem c hc)
    rw [heval c.1 (hlast.bound c hseen)]
    exact hlast.entailed hp c (Or.inl hseen)
  · intro hl
    refine hlast.holds hw (fun c hc => ?_) _ hroot
    have hc' := hl c ((perm_insertionSort ..).mem_iff.mpr hc)
    rw [heval c.1 (hlast.bound c (hlast.leaves c hc))] at hc'
    exact hc'

end

attribute [local instance] KnownTransfer.silent BlockHash.flat ProjectionHash.sum

/-- Two bits, with the conjunction of the second and the complement of the first at 3. -/
def bitNetwork : SymBuilder :=
  (SymBuilder.calls 8 [.logic 1 (.mkNot 0), .logic 1 (.mkAnd [2, 1])]
    { ctx := (SymContext.mkVar (SymContext.mkVar {} "a" 1).2 "b" 1).2 }).get (by decide +kernel)

lemma bitNetwork_built : bitNetwork.Built := by
  refine SymBuilder.Built.calls ?_ (Option.some_get _).symm
  exact .leaf (.leaf .empty (.mkVar {} "a" 1 (by decide))) (.mkVar _ "b" 1 (by decide))

/-- The conjunction holds where the first bit is clear and the second is set. -/
theorem collectPermanentConjuncts_iff_pair :
    collectPermanentConjuncts bitNetwork.ctx 3 100 = some [(0, false), (1, true)] ∧
      ∀ vals, (bitNetwork.ctx.eval 3 vals).toNat = 1 ↔
        ∀ c ∈ [(0, false), (1, true)],
          (bitNetwork.ctx.eval c.1 vals).toNat = if c.2 then 1 else 0 := by
  have hcollect : collectPermanentConjuncts bitNetwork.ctx 3 100 =
      some [(0, false), (1, true)] := by
    decide +kernel
  exact ⟨hcollect, collectPermanentConjuncts_iff KnownTransfer.silent_sound bitNetwork_built
    hcollect⟩

end NeverD.Bv
