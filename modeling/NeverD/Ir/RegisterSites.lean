import NeverD.Ir.RegisterFlow

namespace NeverD.Ir.RegisterFlow
open List

open NeverD.Lib
open BitVec (ofNat getLsbD_or getLsbD_and getLsbD_not)

section

variable {tri : TargetRegInfo} {r : NdVar}

lemma getLsbD_empty (b : Nat) : (0 : Bytes).getLsbD b = false := BitVec.getLsbD_zero

lemma getLsbD_shift_one {k b : Nat} (hk : k < 64) :
    ((1 : Bytes) <<< k).getLsbD b = decide (b = k) := by
  have hone : ∀ i, (1 : Bytes).getLsbD i = decide (i = 0) := by
    intro i
    show (ofNat 64 1).getLsbD i = _
    rw [BitVec.getLsbD_one]
    simp
  rw [BitVec.getLsbD_shiftLeft, hone]
  by_cases hb : b = k
  · subst hb
    simp [hk]
  · simp only [hb, decide_false]
    by_cases hlt : b < k
    · simp [hlt]
    · have hne : b - k ≠ 0 := by omega
      simp [hne]

lemma getLsbD_overlap (v : NdVar) (hr : r.size ≤ 64) (b : Nat) :
    (overlap v r).getLsbD b = (decide (b < r.size) && covers v r b) := by
  have hfold : ∀ n ≤ 64, ((List.range n).foldl
      (fun mask b => if covers v r b then mask ||| (1 : Bytes) <<< b else mask) 0).getLsbD b =
      (decide (b < n) && covers v r b) := by
    intro n
    induction n with
    | zero =>
      intro _
      simp
    | succ n ih =>
      intro hn
      have hlt : n < 64 := hn
      have hrec := ih (le_of_lt hlt)
      rw [range_succ, foldl_append, foldl_cons, foldl_nil]
      by_cases hb : b = n
      · subst hb
        split
        next hc =>
          rw [getLsbD_or, hrec, getLsbD_shift_one hlt]
          simp [hc]
        next hc =>
          rw [hrec]
          simp [hc]
      · have hiff : b < n + 1 ↔ b < n := by omega
        split
        · rw [getLsbD_or, hrec, getLsbD_shift_one hlt]
          simp [hb, hiff]
        · rw [hrec]
          simp [hiff]
  exact hfold r.size hr

/-- An operation writes a byte of the register: itself, or in the wider register that it
zero-extends. -/
def writesByte (tri : TargetRegInfo) (r : NdVar) (o : LowOp) (b : Nat) : Bool :=
  decide (b < r.size) && (covers o.output r b || (zeroExtends tri o &&
    covers ⟨.reg, (tri.findWideReg o.output.offset o.output.size).1,
      (tri.findWideReg o.output.offset o.output.size).2⟩ r b))

variable (hr : r.size ≤ 64)
include hr

lemma getLsbD_writesOp (o : LowOp) (b : Nat) :
    (writesOp tri r o).getLsbD b = writesByte tri r o b := by
  unfold writesOp writesByte
  rw [getLsbD_or, getLsbD_overlap _ hr]
  cases zeroExtends tri o with
  | false => simp
  | true =>
    simp only [if_true]
    rw [getLsbD_overlap _ hr]
    cases decide (b < r.size) <;> simp

lemma getLsbD_writes (ops : List LowOp) (b : Nat) :
    (writes tri r ops).getLsbD b = ops.any (writesByte tri r · b) := by
  have hfold : ∀ mask : Bytes,
      (ops.foldl (fun mask o => mask ||| writesOp tri r o) mask).getLsbD b =
      (mask.getLsbD b || ops.any (writesByte tri r · b)) := by
    induction ops with
    | nil =>
      intro mask
      simp
    | cons o ops ih =>
      intro mask
      rw [foldl_cons, ih, getLsbD_or, getLsbD_writesOp hr, any_cons, Bool.or_assoc]
  have h := hfold 0
  rw [getLsbD_empty, Bool.false_or] at h
  exact h

lemma getLsbD_allBytes (b : Nat) : (allBytes r).getLsbD b = decide (b < r.size) := by
  unfold allBytes
  split
  next h => rw [BitVec.getLsbD_allOnes, h]
  next h =>
    have hlt : r.size < 64 := Nat.lt_of_le_of_ne hr h
    have hpow : 2 ^ r.size < 2 ^ 64 := Nat.pow_lt_pow_right (by decide) hlt
    have hpos : 0 < 2 ^ r.size := Nat.two_pow_pos _
    have hnat : ((1 : BitVec 64) <<< r.size - 1).toNat = 2 ^ r.size - 1 := by
      have hshift : ((1 : BitVec 64) <<< r.size).toNat = 2 ^ r.size := by
        rw [BitVec.toNat_shiftLeft]
        show 1 <<< r.size % 2 ^ 64 = _
        rw [Nat.one_shiftLeft, Nat.mod_eq_of_lt hpow]
      rw [BitVec.toNat_sub_of_le]
      · rw [hshift]
        rfl
      · rw [BitVec.le_def, hshift]
        exact hpos
    rw [BitVec.getLsbD, hnat, Nat.testBit_two_pow_sub_one]

omit hr

end

def HasSite (out : Result) (at_ : BitVec 64) (kind : SiteKind) : Prop :=
  ∃ s ∈ out.sites, s.address = at_ ∧ s.kind = kind

lemma hasSite_site {out : Result} {pc at_ : BitVec 64} {k kind : SiteKind} {why : String} :
    HasSite (out.site pc k why) at_ kind ↔ HasSite out at_ kind ∨ (at_ = pc ∧ kind = k) := by
  unfold HasSite Result.site
  split
  next hany =>
    obtain ⟨s, hs, hboth⟩ := any_eq_true.mp hany
    rw [Bool.and_eq_true] at hboth
    constructor
    · exact .inl
    · intro h
      rcases h with h | h
      · exact h
      · exact ⟨s, hs, (of_decide_eq_true hboth.1).trans h.1.symm,
          (of_decide_eq_true hboth.2).trans h.2.symm⟩
  · constructor
    · intro h
      obtain ⟨s, hs, haddr, hk⟩ := h
      rcases mem_append.mp hs with hs | hs
      · exact .inl ⟨s, hs, haddr, hk⟩
      · rw [mem_singleton.mp hs] at haddr hk
        exact .inr ⟨haddr.symm, hk.symm⟩
    · intro h
      rcases h with ⟨s, hs, haddr, hk⟩ | ⟨haddr, hk⟩
      · exact ⟨s, mem_append_left _ hs, haddr, hk⟩
      · exact ⟨⟨pc, k, why⟩, mem_append_right _ (mem_singleton_self _), haddr.symm, hk.symm⟩

section

variable (tri : TargetRegInfo) (r : NdVar) (kind : Kind)

def readsByte (o : LowOp) (b : Nat) : Bool := decide (b < r.size) && o.inputs.any (covers · r b)

def readsFirst : List LowOp → Nat → Bool
  | [], _ => false
  | o :: ops, b => readsByte r o b || (!writesByte tri r o b && readsFirst ops b)

def Node.Writes (n : Node) (b : Nat) : Prop := n.ops.any (writesByte tri r · b) = true

def Emits (n : Node) (b : Nat) : SiteKind → Prop
  | .boundary => n.boundary = true ∨ (kind = .definitions ∧ ¬n.Writes tri r b ∧ isEntry n = true)
  | .definition => n.boundary = false ∧ kind = .definitions ∧ n.Writes tri r b
  | .use => n.boundary = false ∧ kind = .uses ∧ readsFirst tri r n.ops b = true

variable {tri r kind}

lemma exists_getLsbD {live : Bytes} : live ≠ 0 ↔ ∃ b, live.getLsbD b = true := by
  constructor
  · intro h
    refine Classical.not_not.mp fun hno => h ?_
    apply BitVec.eq_of_getLsbD_eq
    intro i _
    rw [getLsbD_empty]
    exact Bool.eq_false_of_not_eq_true fun hi => hno ⟨i, hi⟩
  · intro h hzero
    obtain ⟨b, hb⟩ := h
    rw [hzero, getLsbD_empty] at hb
    cases hb

lemma visitOp_fold (hr : r.size ≤ 64) (pc : BitVec 64) (ops : List LowOp) :
      ∀ (out : Result) (live : Bytes),
      (∀ b, (ops.foldl (visitOp tri r pc) (out, live)).2.getLsbD b =
        (live.getLsbD b && !ops.any (writesByte tri r · b))) ∧
      ∀ at_ k, HasSite (ops.foldl (visitOp tri r pc) (out, live)).1 at_ k ↔
        HasSite out at_ k ∨ (at_ = pc ∧ k = .use ∧ ∃ b, live.getLsbD b = true ∧
          readsFirst tri r ops b = true) := by
  induction ops with
  | nil =>
    intro out live
    refine ⟨fun b => by simp, fun at_ k => ⟨.inl, fun h => h.elim id fun hcon => ?_⟩⟩
    obtain ⟨-, -, b, -, hb⟩ := hcon
    cases hb
  | cons o ops ih =>
    intro out live
    rw [foldl_cons]
    obtain ⟨hlive, hsites⟩ :=
      ih (visitOp tri r pc (out, live) o).1 (visitOp tri r pc (out, live) o).2
    have hleft : ∀ b, (visitOp tri r pc (out, live) o).2.getLsbD b =
        (live.getLsbD b && !writesByte tri r o b) := by
      intro b
      unfold visitOp
      rw [getLsbD_and, getLsbD_not, getLsbD_writesOp hr]
      by_cases hb : b < 64
      · simp [hb]
      · rw [BitVec.getLsbD_of_ge live b (not_lt.mp hb)]
        rfl
    have hread : (o.inputs.any fun v => overlap v r &&& live ≠ 0) = true ↔
        ∃ b, live.getLsbD b = true ∧ readsByte r o b = true := by
      rw [any_eq_true]
      constructor
      · intro h
        obtain ⟨v, hv, hne⟩ := h
        obtain ⟨b, hb⟩ := exists_getLsbD.mp (of_decide_eq_true hne)
        rw [getLsbD_and, getLsbD_overlap v hr, Bool.and_eq_true, Bool.and_eq_true] at hb
        refine ⟨b, hb.2, ?_⟩
        unfold readsByte
        rw [Bool.and_eq_true, any_eq_true]
        exact ⟨hb.1.1, v, hv, hb.1.2⟩
      · intro h
        obtain ⟨b, hlive, hb⟩ := h
        unfold readsByte at hb
        rw [Bool.and_eq_true, any_eq_true] at hb
        obtain ⟨hlt, v, hv, hc⟩ := hb
        refine ⟨v, hv, decide_eq_true (exists_getLsbD.mpr ⟨b, ?_⟩)⟩
        rw [getLsbD_and, getLsbD_overlap v hr, hlt, hc, hlive]
        rfl
    have hfirst : ∀ at_ k, HasSite (visitOp tri r pc (out, live) o).1 at_ k ↔
        HasSite out at_ k ∨ (at_ = pc ∧ k = .use ∧ ∃ b, live.getLsbD b = true ∧
          readsByte r o b = true) := by
      intro at_ k
      unfold visitOp
      split
      next hany =>
        rw [hasSite_site]
        have hex := hread.mp hany
        exact ⟨fun h => h.imp id fun hand => ⟨hand.1, hand.2, hex⟩,
          fun h => h.imp id fun hand => ⟨hand.1, hand.2.1⟩⟩
      next hany => exact ⟨.inl, fun h => h.elim id fun hand => absurd (hread.mpr hand.2.2) hany⟩
    constructor
    · intro b
      rw [hlive, hleft, any_cons, Bool.not_or, Bool.and_assoc]
    · intro at_ k
      rw [hsites, hfirst, or_assoc]
      apply or_congr Iff.rfl
      constructor
      · intro h
        rcases h with ⟨ha, hk, b, hb, hread⟩ | ⟨ha, hk, b, hb, hread⟩
        · refine ⟨ha, hk, b, hb, ?_⟩
          unfold readsFirst
          rw [hread, Bool.true_or]
        · rw [hleft, Bool.and_eq_true] at hb
          refine ⟨ha, hk, b, hb.1, ?_⟩
          unfold readsFirst
          rw [hb.2, hread, Bool.and_self, Bool.or_true]
      · intro h
        obtain ⟨ha, hk, b, hb, hread⟩ := h
        unfold readsFirst at hread
        rw [Bool.or_eq_true, Bool.and_eq_true] at hread
        rcases hread with hread | hread
        · exact .inl ⟨ha, hk, b, hb, hread⟩
        · exact .inr ⟨ha, hk, b, by rw [hleft, hb, hread.1]; rfl, hread.2⟩

lemma not_writes {n : Node} {b : Nat} : ¬n.Writes tri r b ↔
    n.ops.any (writesByte tri r · b) = false := by
  unfold Node.Writes
  rw [Bool.not_eq_true]

lemma visit_left (hr : r.size ≤ 64) {n : Node} (hn : n.boundary = false) (live : Bytes)
    (out : Result) (b : Nat) :
    (visit tri r kind n live out).2.getLsbD b = true ↔ live.getLsbD b = true ∧
    ¬n.Writes tri r b := by
  have hbit : ∀ (p : Bytes) (w : Bytes), (p &&& ~~~(w &&& p)).getLsbD b =
      (p.getLsbD b && !w.getLsbD b) := by
    intro p w
    rw [getLsbD_and, getLsbD_not, getLsbD_and]
    by_cases hb : b < 64
    · cases p.getLsbD b <;> simp [hb]
    · rw [BitVec.getLsbD_of_ge p b (not_lt.mp hb)]
      rfl
  rw [not_writes]
  unfold visit
  rw [hn, if_neg (by decide)]
  rw [hbit, getLsbD_writes hr]
  split
  · rw [(visitOp_fold hr n.pc n.ops out live).1]
    cases live.getLsbD b <;> cases n.ops.any (writesByte tri r · b) <;> simp
  · cases live.getLsbD b <;> cases n.ops.any (writesByte tri r · b) <;> simp

lemma hasSite_visit (hr : r.size ≤ 64) (n : Node) {live : Bytes} (hlive : live ≠ 0) (out : Result)
    (at_ : BitVec 64) (k : SiteKind) : HasSite (visit tri r kind n live out).1 at_ k ↔
      HasSite out at_ k ∨ (at_ = n.pc ∧ ∃ b, live.getLsbD b = true ∧ Emits tri r kind n b k) := by
  obtain ⟨b₀, hb₀⟩ := exists_getLsbD.mp hlive
  unfold visit
  cases hn : n.boundary with
  | true =>
    rw [if_pos rfl, hasSite_site]
    apply or_congr Iff.rfl
    apply and_congr Iff.rfl
    constructor
    · intro hk
      rw [hk]
      exact ⟨b₀, hb₀, .inl hn⟩
    · intro h
      obtain ⟨b, -, hemit⟩ := h
      cases k with
      | boundary => rfl
      | definition | use => exact absurd (hn.symm.trans hemit.1) (by decide)
  | false =>
    rw [if_neg (by decide)]
    dsimp only
    cases kind with
    | uses =>
      have hkind : Kind.uses ≠ .definitions := by decide
      rw [if_pos rfl, if_neg fun hcon => hkind hcon.2.1, if_neg fun hcon => hkind hcon.2,
        (visitOp_fold hr n.pc n.ops out live).2]
      apply or_congr Iff.rfl
      apply and_congr Iff.rfl
      constructor
      · intro h
        obtain ⟨hk, b, hb, hread⟩ := h
        rw [hk]
        exact ⟨b, hb, hn, rfl, hread⟩
      · intro h
        obtain ⟨b, hb, hemit⟩ := h
        cases k with
        | use => exact ⟨rfl, b, hb, hemit.2.2⟩
        | definition => exact absurd hemit.2.1 hkind
        | boundary =>
          rcases hemit with hemit | hemit
          · exact absurd (hn.symm.trans hemit) (by decide)
          · exact absurd hemit.1 hkind
    | definitions =>
      have hkind : Kind.definitions ≠ .uses := by decide
      rw [if_neg hkind]
      have hwritten : writes tri r n.ops &&& live ≠ 0 ↔ ∃ b, live.getLsbD b = true ∧
          n.Writes tri r b := by
        rw [exists_getLsbD]
        constructor
        · intro h
          obtain ⟨b, hb⟩ := h
          rw [getLsbD_and, getLsbD_writes hr, Bool.and_eq_true] at hb
          exact ⟨b, hb.2, hb.1⟩
        · intro h
          obtain ⟨b, hb, hw⟩ := h
          exact ⟨b, by rw [getLsbD_and, getLsbD_writes hr, hb, hw]; rfl⟩
      have hleft : live &&& ~~~(writes tri r n.ops &&& live) ≠ 0 ↔ ∃ b, live.getLsbD b = true ∧
          ¬n.Writes tri r b := by
        rw [exists_getLsbD]
        have hbit := fun b => @visit_left tri r .definitions hr n hn live out b
        unfold visit at hbit
        rw [hn, if_neg (by decide)] at hbit
        rw [if_neg hkind] at hbit
        exact exists_congr hbit
      have hdef : HasSite (if writes tri r n.ops &&& live ≠ 0 ∧ Kind.definitions = .definitions then
          out.site n.pc .definition "Reaching physical register definition" else out) at_ k ↔
          HasSite out at_ k ∨ (at_ = n.pc ∧ k = .definition ∧ ∃ b, live.getLsbD b = true ∧
            n.Writes tri r b) := by
        split
        next h =>
          rw [hasSite_site]
          have hex := hwritten.mp h.1
          exact ⟨fun h => h.imp id fun hand => ⟨hand.1, hand.2, hex⟩,
            fun h => h.imp id fun hand => ⟨hand.1, hand.2.1⟩⟩
        next h =>
          exact ⟨.inl, fun hor => hor.elim id fun hand => absurd ⟨hwritten.mpr hand.2.2, rfl⟩ h⟩
      have hbound : ∀ base : Result, HasSite (if live &&& ~~~(writes tri r n.ops &&& live) ≠ 0 ∧
          Kind.definitions = .definitions ∧ isEntry n = true then
          base.site n.pc .boundary "Entry or exceptional register value is unknown"
            else base) at_ k ↔
          HasSite base at_ k ∨ (at_ = n.pc ∧ k = .boundary ∧ isEntry n = true ∧
            ∃ b, live.getLsbD b = true ∧ ¬n.Writes tri r b) := by
        intro base
        split
        next h =>
          rw [hasSite_site]
          have hex := hleft.mp h.1
          exact ⟨fun hor => hor.imp id fun hand => ⟨hand.1, hand.2, h.2.2, hex⟩,
            fun hor => hor.imp id fun hand => ⟨hand.1, hand.2.1⟩⟩
        next h =>
          exact ⟨.inl, fun hor => hor.elim id fun hand =>
            absurd ⟨hleft.mpr hand.2.2.2, rfl, hand.2.2.1⟩ h⟩
      rw [hbound, hdef, or_assoc]
      apply or_congr Iff.rfl
      constructor
      · intro h
        rcases h with ⟨ha, hk, b, hb, hw⟩ | ⟨ha, hk, he, b, hb, hw⟩
        · rw [hk]
          exact ⟨ha, b, hb, hn, rfl, hw⟩
        · rw [hk]
          exact ⟨ha, b, hb, .inr ⟨rfl, hw, he⟩⟩
      · intro h
        obtain ⟨ha, b, hb, hemit⟩ := h
        cases k with
        | definition => exact .inl ⟨ha, rfl, b, hb, hemit.2.2⟩
        | use => exact absurd hemit.2.1 hkind
        | boundary =>
          rcases hemit with hemit | hemit
          · exact absurd (hn.symm.trans hemit) (by decide)
          · exact .inr ⟨ha, rfl, hemit.2.2, b, hb, hemit.2.1⟩

end

variable (tri : TargetRegInfo) (r : NdVar) (kind : Kind) (nodes : List Node)

abbrev node (i : Nat) : Node := nodes.getD i default

/-- A path leads to the byte of the instruction from the selected one, along instructions that leave
the byte alone. -/
inductive Wanted (selected : Node) : Nat → Nat → Prop
  | start {i b : Nat} : i ∈ beyond kind selected → b < r.size → Wanted selected i b
  | step {i j b : Nat} : Wanted selected i b → (node nodes i).boundary = false →
      ¬(node nodes i).Writes tri r b → j ∈ beyond kind (node nodes i) → Wanted selected j b

/-- Where a walk stands: what it carries is wanted, what it saw is passed on, and the sites are
those of what it saw. -/
structure Walking (selected : Node) (start : Result) (work seen : List (Nat × Bytes))
    (out : Result) : Prop where
  wanted : ∀ i live, (i, live) ∈ work ∨ (i, live) ∈ seen → ∀ b, live.getLsbD b = true →
    Wanted tri r kind nodes selected i b
  first : ∀ i ∈ beyond kind selected, (i, allBytes r) ∈ work ∨ (i, allBytes r) ∈ seen
  passed : ∀ i live, (i, live) ∈ seen → (node nodes i).boundary = false →
    ∀ j ∈ beyond kind (node nodes i), ∃ left, (left = 0 ∨ (j, left) ∈ work ∨ (j, left) ∈ seen) ∧
      ∀ b, left.getLsbD b = true ↔ live.getLsbD b = true ∧ ¬(node nodes i).Writes tri r b
  sites : ∀ at_ k, HasSite out at_ k ↔ HasSite start at_ k ∨ ∃ i live, (i, live) ∈ seen ∧
    at_ = (node nodes i).pc ∧ ∃ b, live.getLsbD b = true ∧ Emits tri r kind (node nodes i) b k

variable {tri r kind nodes}

lemma Walking.skip {selected : Node} {start out : Result} {i : Nat} {live : Bytes}
    {work seen : List (Nat × Bytes)}
    (hsize : 0 < r.size) (hr : r.size ≤ 64)
    (h : Walking tri r kind nodes selected start ((i, live) :: work) seen out)
    (hskip : live = 0 ∨ (i, live) ∈ seen) :
    Walking tri r kind nodes selected start work seen out := by
  have hmem : ∀ {j : Nat} {left : Bytes}, left ≠ 0 → (j, left) ∈ (i, live) :: work ∨
      (j, left) ∈ seen → (j, left) ∈ work ∨ (j, left) ∈ seen := by
    intro j left hne hor
    rcases hor with hor | hor
    · rcases mem_cons.mp hor with heq | hor
      · injection heq with hj hleft
        subst hj hleft
        exact .inr (hskip.resolve_left hne)
      · exact .inl hor
    · exact .inr hor
  refine ⟨?_, ?_, ?_, h.sites⟩
  · intro j left hor
    exact h.wanted j left (hor.imp (mem_cons_of_mem _) id)
  · intro j hj
    apply hmem _ (h.first j hj)
    rw [exists_getLsbD]
    exact ⟨0, by rw [getLsbD_allBytes hr]; exact decide_eq_true hsize⟩
  · intro j left hseen hb k hk
    obtain ⟨rest, hor, hbits⟩ := h.passed j left hseen hb k hk
    refine ⟨rest, ?_, hbits⟩
    rcases hor with hor | hor
    · exact .inl hor
    · by_cases hzero : rest = 0
      · exact .inl hzero
      · exact .inr (hmem hzero hor)

lemma Walking.visit {selected : Node} {start out : Result} {i : Nat} {live : Bytes}
    {work seen : List (Nat × Bytes)}
    (hr : r.size ≤ 64) (h : Walking tri r kind nodes selected start ((i, live) :: work) seen out)
    (hlive : live ≠ 0) :
    Walking tri r kind nodes selected start (if (node nodes i).boundary then work else
        (beyond kind (node nodes i)).reverse.map (·,
          (visit tri r kind (node nodes i) live out).2) ++ work)
      ((i, live) :: seen) (visit tri r kind (node nodes i) live out).1 := by
  have hold : ∀ p ∈ work, p ∈ (if (node nodes i).boundary then work else
      (beyond kind (node nodes i)).reverse.map (·,
        (RegisterFlow.visit tri r kind (node nodes i) live out).2) ++ work) := by
    intro p hp
    split
    · exact hp
    · exact mem_append_right _ hp
  have hmem : ∀ {p : Nat × Bytes}, p ∈ (i, live) :: work ∨ p ∈ seen →
    p ∈ (if (node nodes i).boundary then work else
        (beyond kind (node nodes i)).reverse.map (·,
          (RegisterFlow.visit tri r kind (node nodes i) live out).2) ++ work) ∨
      p ∈ (i, live) :: seen := by
    intro p hor
    rcases hor with hor | hor
    · rcases mem_cons.mp hor with heq | hor
      · exact .inr (heq ▸ mem_cons_self ..)
      · exact .inl (hold p hor)
    · exact .inr (mem_cons_of_mem _ hor)
  have hself := h.wanted i live (.inl (mem_cons_self ..))
  refine ⟨?_, fun j hj => hmem (h.first j hj), ?_, ?_⟩
  · intro j left hor b hb
    rcases hor with hor | hor
    · by_cases hbound : (node nodes i).boundary = true
      · rw [if_pos hbound] at hor
        exact h.wanted j left (.inl (mem_cons_of_mem _ hor)) b hb
      · rw [if_neg hbound] at hor
        rcases mem_append.mp hor with hor | hor
        · obtain ⟨k, hk, heq⟩ := mem_map.mp hor
          injection heq with hkj hleft
          subst hkj hleft
          have hfalse := Bool.eq_false_of_not_eq_true hbound
          have hand := (visit_left hr hfalse live out b).mp hb
          exact .step (hself b hand.1) hfalse hand.2 (mem_reverse.mp hk)
        · exact h.wanted j left (.inl (mem_cons_of_mem _ hor)) b hb
    · rcases mem_cons.mp hor with heq | hor
      · injection heq with hj hleft
        subst hj hleft
        exact hself b hb
      · exact h.wanted j left (.inr hor) b hb
  · intro j left hor hbound k hk
    rcases mem_cons.mp hor with heq | hor
    · injection heq with hj hleft
      subst hj hleft
      refine ⟨(RegisterFlow.visit tri r kind (node nodes j) left out).2, .inr (.inl ?_),
        fun b => visit_left hr hbound left out b⟩
      rw [if_neg (by rw [hbound]; decide)]
      exact mem_append_left _ (mem_map.mpr ⟨k, mem_reverse.mpr hk, rfl⟩)
    · obtain ⟨rest, hrest, hbits⟩ := h.passed j left hor hbound k hk
      exact ⟨rest, hrest.imp id hmem, hbits⟩
  · intro at_ k
    rw [hasSite_visit hr _ hlive, h.sites, or_assoc]
    apply or_congr Iff.rfl
    constructor
    · intro hor
      rcases hor with ⟨j, left, hseen, hrest⟩ | hrest
      · exact ⟨j, left, mem_cons_of_mem _ hseen, hrest⟩
      · exact ⟨i, live, mem_cons_self .., hrest⟩
    · intro hex
      obtain ⟨j, left, hseen, hrest⟩ := hex
      rcases mem_cons.mp hseen with heq | hseen
      · injection heq with hj hleft
        subst hj hleft
        exact .inr hrest
      · exact .inl ⟨j, left, hseen, hrest⟩

theorem walk_sites {selected : Node} {start : Result} (hsize : 0 < r.size) (hr : r.size ≤ 64)
    {work seen : List (Nat × Bytes)} {out last : Result}
    (h : Walking tri r kind nodes selected start work seen out)
    (hwalk : walk tri r kind nodes work seen out = .ok last) (at_ : BitVec 64) (k : SiteKind) :
    HasSite last at_ k ↔ HasSite start at_ k ∨ ∃ i b, Wanted tri r kind nodes selected i b ∧
      at_ = (node nodes i).pc ∧ Emits tri r kind (node nodes i) b k := by
  induction work, seen, out using walk.induct tri r kind nodes with
  | case1 seen out =>
    unfold walk at hwalk
    cases hwalk
    have hreach : ∀ i b, Wanted tri r kind nodes selected i b → ∃ live, (i, live) ∈ seen ∧
        live.getLsbD b = true := by
      intro i b hw
      induction hw with
      | @start i b hi hb =>
        have hmem := (h.first i hi).resolve_left not_mem_nil
        exact ⟨_, hmem, by rw [getLsbD_allBytes hr]; exact decide_eq_true hb⟩
      | @step i j b _ hbound hwrites hj ih =>
        obtain ⟨live, hmem, hb⟩ := ih
        obtain ⟨left, hor, hbits⟩ := h.passed i live hmem hbound j hj
        have hleft := (hbits b).mpr ⟨hb, hwrites⟩
        rcases hor with hor | hor | hor
        · rw [hor, getLsbD_empty] at hleft
          cases hleft
        · cases hor
        · exact ⟨left, hor, hleft⟩
    rw [h.sites]
    apply or_congr Iff.rfl
    constructor
    · intro hex
      obtain ⟨i, live, hmem, ha, b, hb, hemit⟩ := hex
      exact ⟨i, b, h.wanted i live (.inr hmem) b hb, ha, hemit⟩
    · intro hex
      obtain ⟨i, b, hw, ha, hemit⟩ := hex
      obtain ⟨live, hmem, hb⟩ := hreach i b hw
      exact ⟨i, live, hmem, ha, b, hb, hemit⟩
  | case2 seen out i live work hlimit =>
    unfold walk at hwalk
    rw [dif_pos hlimit] at hwalk
    cases hwalk
  | case3 seen out i live work hlimit hskip ih =>
    unfold walk at hwalk
    rw [dif_neg hlimit, if_pos hskip] at hwalk
    exact ih (h.skip hsize hr hskip) hwalk
  | case4 seen out i live work hlimit hskip n v ih =>
    unfold walk at hwalk
    rw [dif_neg hlimit, if_neg hskip] at hwalk
    exact ih (h.visit hr fun hzero => hskip (.inl hzero)) hwalk

end NeverD.Ir.RegisterFlow
