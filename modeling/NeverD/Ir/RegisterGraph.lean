import Mathlib.Logic.Relation
import NeverD.Ir.RegisterPaths

namespace NeverD.Ir
open List

open NeverD.Lib RegisterFlow

namespace LowFunc

variable (f : LowFunc)

def opsOf (id : Int) : List LowOp := (f.blocks.filter (·.id = id)).flatMap (·.ops)

def opsAt (a : BitVec 64) : List LowOp := (f.blocks.flatMap (·.ops)).filter (·.addr = a)

/-- The instruction at which control goes on that comes to a block, through blocks without
operations. -/
inductive Enters : Int → BitVec 64 → Prop
  | here {id : Int} {o : LowOp} {rest : List LowOp} : (blockOf f.blocks id).isSome →
      f.opsOf id = o :: rest → Enters id o.addr
  | through {id s : Int} {a : BitVec 64} : (blockOf f.blocks id).isSome → f.opsOf id = [] →
      s ∈ succsOf f.blocks id → Enters s a → Enters id a

/-- Control goes from an instruction to another: the next one in its block, or the first one after
it. -/
inductive Next : BitVec 64 → BitVec 64 → Prop
  | inside {id : Int} {before after : List LowOp} {o o' : LowOp} :
      f.opsOf id = before ++ o :: o' :: after → o.addr ≠ o'.addr → Next o.addr o'.addr
  | leave {b : LowBlock} {before : List LowOp} {o : LowOp} {s : Int} {a : BitVec 64} :
      b ∈ f.blocks → f.opsOf b.id = before ++ [o] → s ∈ b.succs → f.Enters s a → Next o.addr a

/-- At the entry, at a root of the module, along an exceptional edge, or from nowhere. -/
def Entry (a : BitVec 64) : Prop :=
  (∃ b ∈ f.blocks, isRootBlock f b = true ∧ f.Enters b.id a) ∨ ∀ a', ¬f.Next a' a

end LowFunc

namespace RegisterFlow

variable {f : LowFunc} {id : Int} {n : Nat}

section

variable (blocks : List LowBlock) (blockNodes : Int → List Nat)

/-- A block without instructions, and one that control goes to from it. -/
def Passes (a b : Int) : Prop := (blockOf blocks a).isSome ∧ blockNodes a = [] ∧
    b ∈ succsOf blocks a

def StartsAt (id : Int) (n : Nat) : Prop :=
  (blockOf blocks id).isSome ∧ ∃ rest, blockNodes id = n :: rest

variable {blocks blockNodes}

lemma mem_firstFrom_sound {work seen : List Int} (h : n ∈ firstFrom blocks blockNodes work seen) :
    ∃ w ∈ work, ∃ id, Relation.ReflTransGen (Passes blocks blockNodes) w id ∧
      StartsAt blocks blockNodes id n := by
  fun_induction firstFrom blocks blockNodes work seen with
  | case1 => cases h
  | case2 seen id work hid ih | case3 seen id work hid hnone ih =>
    obtain ⟨w, hw, hrest⟩ := ih h
    exact ⟨w, mem_cons_of_mem _ hw, hrest⟩
  | case4 seen id work hid hsome m rest hnodes ih =>
    rcases mem_cons.mp h with rfl | h
    · exact ⟨id, mem_cons_self, id, .refl, Option.isSome_iff_ne_none.mpr (by simpa using hsome),
        rest, hnodes⟩
    · obtain ⟨w, hw, hrest⟩ := ih h
      exact ⟨w, mem_cons_of_mem _ hw, hrest⟩
  | case5 seen id work hid hsome hnodes ih =>
    obtain ⟨w, hw, target, hpath, hstart⟩ := ih h
    rcases mem_append.mp hw with hw | hw
    · refine ⟨id, mem_cons_self, target,
        .head ⟨Option.isSome_iff_ne_none.mpr (by simpa using hsome), hnodes, mem_reverse.mp hw⟩
        hpath, hstart⟩
    · exact ⟨w, mem_cons_of_mem _ hw, target, hpath, hstart⟩

lemma passes_cons {work work' seen : List Int} {k : Int}
    (h : ∀ s ∈ seen, ∀ t, Passes blocks blockNodes s t → t ∈ seen ∨ t ∈ k :: work)
    (hwork : ∀ t ∈ work, t ∈ work') (hk : ∀ t, Passes blocks blockNodes k t → t ∈ work') :
    ∀ s ∈ k :: seen, ∀ t, Passes blocks blockNodes s t → t ∈ k :: seen ∨ t ∈ work' := by
  intro s hs t hst
  rcases mem_cons.mp hs with rfl | hs
  · exact .inr (hk t hst)
  · rcases h s hs t hst with ht | ht
    · exact .inl (mem_cons_of_mem _ ht)
    · rcases mem_cons.mp ht with rfl | ht
      · exact .inl mem_cons_self
      · exact .inr (hwork t ht)

lemma waits_cons {work work' seen : List Int} {k w : Int} (h : w ∈ k :: work ∨ w ∈ seen)
    (hwork : ∀ t ∈ work, t ∈ work') : w ∈ work' ∨ w ∈ k :: seen := by
  rcases h with h | h
  · rcases mem_cons.mp h with rfl | h
    · exact .inr mem_cons_self
    · exact .inl (hwork w h)
  · exact .inr (mem_cons_of_mem _ h)

lemma mem_firstFrom_complete {work seen : List Int} {w id : Int}
    (hseen : ∀ s ∈ seen, ∀ t, Passes blocks blockNodes s t → t ∈ seen ∨ t ∈ work)
    (hw : w ∈ work ∨ w ∈ seen)
    (hpath : Relation.ReflTransGen (Passes blocks blockNodes) w id)
    (hstart : StartsAt blocks blockNodes id n) :
    n ∈ firstFrom blocks blockNodes work seen ∨ id ∈ seen := by
  fun_induction firstFrom blocks blockNodes work seen generalizing w with
  | case1 seen =>
    right
    have hw := hw.resolve_left not_mem_nil
    clear hstart
    induction hpath with
    | refl => exact hw
    | tail _ hstep ih => exact (hseen _ ih _ hstep).resolve_right not_mem_nil
  | case2 seen k work hk ih =>
    refine ih ?_ ?_ hpath
    · intro s hs t hst
      rcases hseen s hs t hst with ht | ht
      · exact .inl ht
      · rcases mem_cons.mp ht with rfl | ht
        · exact .inl hk
        · exact .inr ht
    · rcases hw with hw | hw
      · rcases mem_cons.mp hw with rfl | hw
        · exact .inr hk
        · exact .inl hw
      · exact .inr hw
  | case3 seen k work hk hnone ih =>
    have hno : (blockOf blocks k).isSome = false := by simpa using hnone
    have hdone :=
      ih (passes_cons hseen (fun _ ht => ht) fun t ht => absurd ht.1 (by rw [hno]; decide))
      (waits_cons hw fun _ ht => ht) hpath
    refine hdone.imp_right fun hmem => (mem_cons.mp hmem).resolve_left ?_
    rintro rfl
    exact absurd hstart.1 (by rw [hno]; decide)
  | case4 seen k work hk hsome m rest hnodes ih =>
    have hdone := ih (passes_cons hseen (fun _ ht => ht) fun t ht =>
      absurd (hnodes.symm.trans ht.2.1) (by simp))
      (waits_cons hw fun _ ht => ht) hpath
    rcases hdone with hmem | hmem
    · exact .inl (mem_cons_of_mem _ hmem)
    · rcases mem_cons.mp hmem with rfl | hmem
      · obtain ⟨_, hrest⟩ := hstart.2
        rw [hnodes, cons.injEq] at hrest
        exact .inl (hrest.1 ▸ mem_cons_self)
      · exact .inr hmem
  | case5 seen k work hk hsome hnodes ih =>
    have hdone := ih (passes_cons hseen (fun _ ht => mem_append_right _ ht) fun t ht =>
        mem_append_left _ (mem_reverse.mpr ht.2.2)) (waits_cons hw fun _ ht =>
          mem_append_right _ ht) hpath
    refine hdone.imp_right fun hmem => (mem_cons.mp hmem).resolve_left ?_
    rintro rfl
    obtain ⟨_, hrest⟩ := hstart.2
    rw [hnodes] at hrest
    cases hrest

theorem mem_first {g : Graph} : n ∈ first f g id ↔
    ∃ k, Relation.ReflTransGen (Passes f.blocks g.blockNodes) id k ∧
      StartsAt f.blocks g.blockNodes k n := by
  constructor
  · intro h
    obtain ⟨w, hw, hrest⟩ := mem_firstFrom_sound h
    exact mem_singleton.mp hw ▸ hrest
  · rintro ⟨k, hpath, hstart⟩
    exact (mem_firstFrom_complete (forall_mem_nil _) (.inl (mem_singleton_self id))
      hpath hstart).resolve_right not_mem_nil

end

section

def neighbours {α : Type} (l : List α) : List (α × α) := l.zip l.tail

lemma neighbours_snoc {α : Type} (l : List α) (a : α) :
    neighbours (l ++ [a]) = neighbours l ++ (l.getLast?.map fun x => (x, a)).toList := by
  induction l with
  | nil => rfl
  | cons x l ih =>
    cases l with
    | nil => rfl
    | cons y l =>
      unfold neighbours at ih ⊢
      rw [cons_append, tail_cons, cons_append, zip_cons_cons, ← cons_append, getLast?_cons_cons]
      exact congrArg ((x, y) :: ·) ih

lemma neighbours_map {α β : Type} (f : α → β) (l : List α) :
    neighbours (l.map f) = (neighbours l).map (Prod.map f f) := by
  unfold neighbours
  rw [← map_tail, zip_map]

variable {P : List (Int × LowOp)} {g g' : Graph} {o : LowOp}

def addressesOf (P : List (Int × LowOp)) (id : Int) : List (BitVec 64) :=
  (P.filter (·.1 = id)).map (·.2.addr)

def operationsAt (P : List (Int × LowOp)) (a : BitVec 64) : List LowOp :=
  (P.map (·.2)).filter (·.addr = a)

def bare (P : List (Int × LowOp)) (a : BitVec 64) : Node where
  pc := a
  ops := operationsAt P a
  boundary := (operationsAt P a).any isBoundaryOp

/-- Each address has one instruction so far, and neighbours in a block are those of its
operations. -/
structure Added (P : List (Int × LowOp)) (g : Graph) : Prop where
  nodup : (g.nodes.map (·.pc)).Nodup
  bare : ∀ i < g.nodes.length, node g.nodes i = bare P (node g.nodes i).pc
  all : ∀ p ∈ P, p.2.addr ∈ g.nodes.map (·.pc)
  inside : ∀ id, ∀ i ∈ g.blockNodes id, i < g.nodes.length
  pairs : ∀ id, neighbours ((g.blockNodes id).map fun i => (node g.nodes i).pc) =
    (neighbours (addressesOf P id)).filter fun p => p.1 ≠ p.2
  head : ∀ id, ((g.blockNodes id).map fun i => (node g.nodes i).pc).head? = (addressesOf P id).head?
  last : ∀ id, ((g.blockNodes id).map fun i => (node g.nodes i).pc).getLast? =
    (addressesOf P id).getLast?

lemma addressesOf_snoc (P : List (Int × LowOp)) (id k : Int) (o : LowOp) :
    addressesOf (P ++ [(id, o)]) k = addressesOf P k ++ if id = k then [o.addr] else [] := by
  unfold addressesOf
  rw [filter_append, map_append]
  congr 1
  by_cases hk : id = k
  · simp [hk]
  · simp [hk]

lemma operationsAt_snoc (P : List (Int × LowOp)) (id : Int) (o : LowOp) (a : BitVec 64) :
    operationsAt (P ++ [(id, o)]) a = operationsAt P a ++ if o.addr = a then [o] else [] := by
  unfold operationsAt
  rw [map_append, filter_append]
  congr 1
  by_cases ha : o.addr = a
  · simp [ha]
  · simp [ha]

lemma bare_snoc_ne (P : List (Int × LowOp)) (id : Int) {o : LowOp} {a : BitVec 64}
    (h : o.addr ≠ a) : bare (P ++ [(id, o)]) a = bare P a := by
  unfold bare
  rw [operationsAt_snoc, if_neg h, append_nil]

lemma operationsAt_of_not_mem (h : Added P g) {a : BitVec 64} (ha : a ∉ g.nodes.map (·.pc)) :
    operationsAt P a = [] := by
  unfold operationsAt
  rw [filter_eq_nil_iff]
  intro o ho hcon
  obtain ⟨p, hp, rfl⟩ := mem_map.mp ho
  exact ha (of_decide_eq_true hcon ▸ h.all p hp)

lemma pc_inj (h : (g.nodes.map (·.pc)).Nodup) {i j : Nat} (hi : i < g.nodes.length)
    (hj : j < g.nodes.length) (heq : (node g.nodes i).pc = (node g.nodes j).pc) : i = j := by
  rw [node_of_lt hi, node_of_lt hj] at heq
  have hi' : i < (g.nodes.map (·.pc)).length := by rwa [length_map]
  have hj' : j < (g.nodes.map (·.pc)).length := by rwa [length_map]
  have hmap : (g.nodes.map (·.pc))[i] = (g.nodes.map (·.pc))[j] → i = j := h.getElem_inj_iff.mp
  rw [getElem_map, getElem_map] at hmap
  exact hmap heq

def extend (o : LowOp) (n : Node) : Node :=
  { n with ops := n.ops ++ [o], boundary := n.boundary || isBoundaryOp o }

lemma Added.join (h : Added P g) {last : Nat} (hlast : (g.blockNodes id).getLast? = some last)
    (ho : (node g.nodes last).pc = o.addr) (count : Nat) :
    Added (P ++ [(id, o)]) { g with nodes := g.nodes.modify last (extend o), count := count } := by
  have hlt : last < g.nodes.length := h.inside id last (mem_of_getLast? hlast)
  have hpc : ∀ i, (node (g.nodes.modify last (extend o)) i).pc = (node g.nodes i).pc := by
    intro i
    rw [node_modify]
    split <;> rfl
  have hpcs : (g.nodes.modify last (extend o)).map (·.pc) = g.nodes.map (·.pc) :=
    pcs_modify g.nodes last fun _ => rfl
  have hend : (addressesOf P id).getLast? = some o.addr := by
    rw [← h.last id, getLast?_map, hlast, ← ho]
    rfl
  constructor
  · exact hpcs ▸ h.nodup
  · intro i hi
    dsimp only at hi ⊢
    rw [length_modify] at hi
    rw [hpc i, node_modify]
    by_cases hil : last = i
    · subst hil
      rw [if_pos ⟨rfl, hlt⟩, h.bare last hlt]
      unfold RegisterFlow.bare extend
      dsimp only
      rw [operationsAt_snoc, if_pos ho.symm, any_append, any_cons, any_nil, Bool.or_false]
    · rw [if_neg fun hcon => hil hcon.1, bare_snoc_ne]
      · exact h.bare i hi
      · intro hcon
        exact hil (pc_inj h.nodup hlt hi (ho.trans hcon))
  · intro p hp
    dsimp only
    rw [hpcs]
    rcases mem_append.mp hp with hp | hp
    · exact h.all p hp
    · rw [mem_singleton.mp hp, ← ho, node_of_lt hlt]
      exact mem_map_of_mem (getElem_mem hlt)
  · intro k i hi
    dsimp only at hi ⊢
    rw [length_modify]
    exact h.inside k i hi
  · intro k
    simp only [hpc]
    rw [h.pairs k, addressesOf_snoc]
    split
    next hk =>
      rw [← hk, neighbours_snoc, hend, filter_append]
      simp
    · rw [append_nil]
  · intro k
    simp only [hpc]
    rw [h.head k, addressesOf_snoc]
    split
    next hk =>
      rw [← hk, head?_append, getLast?_eq_some_iff.mp hend |>.choose_spec]
      cases (getLast?_eq_some_iff.mp hend).choose <;> rfl
    · rw [append_nil]
  · intro k
    simp only [hpc]
    rw [h.last k, addressesOf_snoc]
    split
    next hk => rw [← hk, hend, getLast?_concat]
    · rw [append_nil]

lemma node_snoc (nodes : List Node) (n : Node) {i : Nat} (hi : i < nodes.length) :
    node (nodes ++ [n]) i = node nodes i := by
  rw [node_of_lt hi, node_of_lt (by rw [length_append]; omega), getElem_append_left hi]

lemma node_snoc_self (nodes : List Node) (n : Node) : node (nodes ++ [n]) nodes.length = n := by
  rw [node_of_lt (by simp), getElem_concat_length rfl]

lemma Added.push (h : Added P g) (hnew : o.addr ∉ g.nodes.map (·.pc)) (count : Nat) :
    Added (P ++ [(id, o)])
      { nodes := g.nodes ++ [extend o { pc := o.addr }]
        blockNodes := fun k => if k = id then g.blockNodes id ++ [g.nodes.length]
        else g.blockNodes k
        count := count } := by
  have hpc :
      ∀ k, (g.blockNodes k).map (fun i => (node (g.nodes ++ [extend o { pc := o.addr }]) i).pc) =
      (g.blockNodes k).map fun i => (node g.nodes i).pc := by
    intro k
    exact map_congr_left fun i hi => by rw [node_snoc _ _ (h.inside k i hi)]
  have hlast : (node (g.nodes ++ [extend o { pc := o.addr }]) g.nodes.length).pc = o.addr := by
    rw [node_snoc_self]
    rfl
  have hpcs :
    ∀ k, ((if k = id then g.blockNodes id ++ [g.nodes.length] else g.blockNodes k).map fun i =>
      (node (g.nodes ++ [extend o { pc := o.addr }]) i).pc) =
      ((g.blockNodes k).map fun i => (node g.nodes i).pc) ++ if id = k then [o.addr] else [] := by
    intro k
    by_cases hk : k = id
    · subst hk
      rw [if_pos rfl, if_pos rfl, map_append, hpc, map_singleton, hlast]
    · rw [if_neg hk, if_neg (Ne.symm hk), hpc, append_nil]
  constructor
  · rw [map_append, map_singleton]
    refine nodup_append.mpr ⟨h.nodup, nodup_singleton _, ?_⟩
    rintro a ha b hb rfl
    exact hnew ((mem_singleton.mp hb : a = o.addr) ▸ ha)
  · intro i hi
    rw [length_append, length_singleton] at hi
    rcases Nat.lt_succ_iff_lt_or_eq.mp hi with hlt | rfl
    · have hne : o.addr ≠ (node g.nodes i).pc := by
        intro hcon
        rw [hcon, node_of_lt hlt] at hnew
        exact hnew (mem_map_of_mem (getElem_mem hlt))
      dsimp only
      rw [node_snoc _ _ hlt, bare_snoc_ne _ _ hne]
      exact h.bare i hlt
    · dsimp only
      rw [hlast, node_snoc_self]
      unfold RegisterFlow.bare extend
      rw [operationsAt_snoc, operationsAt_of_not_mem h hnew, if_pos rfl]
      simp
  · intro p hp
    rw [map_append, mem_append, map_singleton]
    rcases mem_append.mp hp with hp | hp
    · exact .inl (h.all p hp)
    · exact .inr (mem_singleton.mp hp ▸ mem_singleton_self _)
  · intro k i hi
    rw [length_append, length_singleton]
    dsimp only at hi
    split at hi
    · rcases mem_append.mp hi with hi | hi
      · exact Nat.lt_succ_of_lt (h.inside id i hi)
      · rw [mem_singleton.mp hi]
        exact Nat.lt_succ_self _
    · exact Nat.lt_succ_of_lt (h.inside k i hi)
  · intro k
    dsimp only
    rw [hpcs, addressesOf_snoc]
    split
    next hk =>
      subst hk
      rw [neighbours_snoc, neighbours_snoc, h.pairs, filter_append, h.last]
      congr 1
      cases hend : (addressesOf P id).getLast? with
      | none => rfl
      | some a =>
        have hmem : a ∈ g.nodes.map (·.pc) := by
          obtain ⟨p, hp, rfl⟩ := mem_map.mp (mem_of_getLast? hend)
          exact h.all p (mem_of_mem_filter hp)
        have hne : a ≠ o.addr := fun hcon => hnew (hcon ▸ hmem)
        simp [hne]
    · rw [append_nil, append_nil]
      exact h.pairs k
  · intro k
    dsimp only
    rw [hpcs, addressesOf_snoc, head?_append, head?_append, h.head]
  · intro k
    dsimp only
    rw [hpcs, addressesOf_snoc, getLast?_append, getLast?_append, h.last]

lemma Added.addOp (h : Added P g) (hg : addOp id g o = .ok g') : Added (P ++ [(id, o)]) g' := by
  have hmem : g.nodes.any (fun n => n.pc = o.addr) = false → o.addr ∉ g.nodes.map (·.pc) := by
    intro hany hcon
    obtain ⟨n, hn, hpc⟩ := mem_map.mp hcon
    exact any_eq_false.mp hany n hn (decide_eq_true hpc)
  unfold RegisterFlow.addOp at hg
  split at hg
  · cases hg
  dsimp only at hg
  split at hg
  next last hlast =>
    split at hg
    next ho =>
      injection hg with hg
      exact hg ▸ h.join hlast ho _
    · split at hg
      · cases hg
      next hany =>
        injection hg with hg
        exact hg ▸ h.push (hmem (Bool.eq_false_of_not_eq_true hany)) _
  · split at hg
    · cases hg
    next hany =>
      injection hg with hg
      exact hg ▸ h.push (hmem (Bool.eq_false_of_not_eq_true hany)) _

lemma Added.addBlock (ops : List LowOp) (h : Added P g)
    (hg : ops.foldlM (RegisterFlow.addOp id) g = .ok g') : Added (P ++ ops.map (id, ·)) g' := by
  induction ops generalizing P g with
  | nil =>
    injection hg with hg
    rw [map_nil, append_nil]
    exact hg ▸ h
  | cons o ops ih =>
    rw [foldlM_cons] at hg
    cases ho : RegisterFlow.addOp id g o with
    | error e =>
      rw [ho] at hg
      cases hg
    | ok g₁ =>
      rw [ho] at hg
      rw [map_cons, append_cons]
      exact ih (h.addOp ho) hg

lemma Added.addBlocks (blocks : List LowBlock) (h : Added P g)
    (hg : blocks.foldlM RegisterFlow.addBlock g = .ok g') :
    Added (P ++ blocks.flatMap fun b => b.ops.map (b.id, ·)) g' := by
  induction blocks generalizing P g with
  | nil =>
    injection hg with hg
    rw [flatMap_nil, append_nil]
    exact hg ▸ h
  | cons b blocks ih =>
    rw [foldlM_cons] at hg
    cases hb : RegisterFlow.addBlock g b with
    | error e =>
      rw [hb] at hg
      cases hg
    | ok g₁ =>
      rw [hb] at hg
      rw [flatMap_cons, ← append_assoc]
      exact ih (h.addBlock b.ops hb) hg

lemma added_nil : Added [] {} := by
  refine ⟨nodup_nil, ?_, ?_, ?_, ?_, ?_, ?_⟩
  · intro i hi
    exact absurd hi (Nat.not_lt_zero _)
  · intro p hp
    cases hp
  · intro k i hi
    cases hi
  all_goals exact fun k => rfl

end

section

def occurrences (f : LowFunc) : List (Int × LowOp) := f.blocks.flatMap fun b => b.ops.map (b.id, ·)

lemma addressesOf_occurrences : addressesOf (occurrences f) id = (f.opsOf id).map (·.addr) := by
  unfold addressesOf occurrences LowFunc.opsOf
  induction f.blocks with
  | nil => rfl
  | cons b blocks ih =>
    rw [flatMap_cons, filter_append, map_append, ih, filter_cons, filter_map]
    by_cases hb : b.id = id
    · rw [if_pos (decide_eq_true hb), flatMap_cons, map_append]
      congr 1
      have hall : b.ops.filter ((fun p : Int × LowOp => decide (p.1 = id)) ∘ (b.id, ·)) = b.ops :=
        filter_eq_self.mpr fun _ _ => decide_eq_true hb
      rw [hall, map_map]
      rfl
    · rw [if_neg fun hcon => hb (of_decide_eq_true hcon)]
      have hnone : b.ops.filter ((fun p : Int × LowOp => decide (p.1 = id)) ∘ (b.id, ·)) = [] :=
        filter_eq_nil_iff.mpr fun _ _ hcon => hb (of_decide_eq_true hcon)
      rw [hnone]
      rfl

lemma operationsAt_occurrences (a : BitVec 64) : operationsAt (occurrences f) a = f.opsAt a := by
  unfold operationsAt occurrences LowFunc.opsAt
  rw [map_flatMap]
  congr 2
  funext b
  rw [map_map]
  exact map_id _

lemma mem_neighbours {α : Type} {l : List α} {a b : α} : (a, b) ∈ neighbours l ↔
    ∃ before after, l = before ++ a :: b :: after := by
  unfold neighbours
  induction l with
  | nil => simp
  | cons x l ih =>
    cases l with
    | nil =>
      constructor
      · intro hcon
        cases hcon
      · rintro ⟨before, after, heq⟩
        have hlen := congrArg length heq
        rw [length_append, length_cons, length_cons, length_cons, length_nil] at hlen
        omega
    | cons y l =>
      rw [tail_cons, zip_cons_cons, mem_cons]
      rw [tail_cons] at ih
      rw [ih]
      constructor
      · rintro (heq | ⟨before, after, heq⟩)
        · injection heq with ha hb
          exact ⟨[], l, by rw [ha, hb]; rfl⟩
        · exact ⟨x :: before, after, by rw [heq]; rfl⟩
      · rintro ⟨before, after, heq⟩
        cases before with
        | nil =>
          injection heq with ha htail
          injection htail with hb _
          exact .inl (by rw [ha, hb])
        | cons z before =>
          injection heq with _ htail
          exact .inr ⟨before, after, htail⟩

variable {g : Graph} (h : Added (occurrences f) g)
include h

lemma Added.nil_iff : g.blockNodes id = [] ↔ f.opsOf id = [] := by
  have hhead := h.head id
  rw [addressesOf_occurrences] at hhead
  rw [← map_eq_nil_iff (f := fun i => (node g.nodes i).pc), ← head?_eq_none_iff, hhead,
    head?_eq_none_iff, map_eq_nil_iff]

/-- The first instructions from a block on are those at which control goes on that comes to it. -/
lemma Added.mem_first : n ∈ first f g id ↔ n < g.nodes.length ∧
    f.Enters id (node g.nodes n).pc := by
  have hstart : ∀ k, StartsAt f.blocks g.blockNodes k n ↔ n < g.nodes.length ∧
      (blockOf f.blocks k).isSome ∧
      ∃ o rest, f.opsOf k = o :: rest ∧ o.addr = (node g.nodes n).pc := by
    intro k
    have hhead := h.head k
    rw [addressesOf_occurrences] at hhead
    constructor
    · rintro ⟨hsome, rest, hnodes⟩
      rw [hnodes] at hhead
      cases hops : f.opsOf k with
      | nil =>
        rw [hops] at hhead
        cases hhead
      | cons o rest =>
        rw [hops] at hhead
        exact ⟨h.inside k n (hnodes ▸ mem_cons_self), hsome, o, rest, rfl,
          (Option.some.inj hhead).symm⟩
    · rintro ⟨hn, hsome, o, rest, hops, ho⟩
      rw [hops] at hhead
      cases hnodes : g.blockNodes k with
      | nil =>
        rw [hnodes] at hhead
        cases hhead
      | cons m rest =>
        rw [hnodes] at hhead
        have hm : m < g.nodes.length := h.inside k m (hnodes ▸ mem_cons_self)
        have hpc : (node g.nodes m).pc = (node g.nodes n).pc := (Option.some.inj hhead).trans ho
        exact ⟨hsome, rest, by rw [hnodes, pc_inj h.nodup hm hn hpc]⟩
  rw [RegisterFlow.mem_first]
  constructor
  · rintro ⟨k, hpath, hk⟩
    obtain ⟨hn, hsome, o, rest, hops, ho⟩ := (hstart k).mp hk
    refine ⟨hn, ?_⟩
    clear hk
    induction hpath using Relation.ReflTransGen.head_induction_on with
    | refl => exact ho ▸ .here hsome hops
    | head hstep _ ih => exact .through hstep.1 (h.nil_iff.mp hstep.2.1) hstep.2.2 ih
  · rintro ⟨hn, henters⟩
    generalize hpc : (node g.nodes n).pc = a at henters
    induction henters with
    | @here id o rest hsome hops =>
      exact ⟨id, .refl, (hstart id).mpr ⟨hn, hsome, o, rest, hops, hpc.symm⟩⟩
    | through hsome hops hs _ ih =>
      obtain ⟨k, hpath, hk⟩ := ih hpc
      exact ⟨k, .head ⟨hsome, h.nil_iff.mpr hops, hs⟩ hpath, hk⟩

end

section

variable {g : Graph}

lemma mark_fold (roots : List Nat) (nodes : List Node) :
    (roots.foldl (fun nodes n => nodes.modify n fun node => { node with root := true })
      nodes).length = nodes.length ∧
      ∀ i < nodes.length,
        node (roots.foldl (fun nodes n => nodes.modify n fun node => { node with root := true })
          nodes) i =
        { node nodes i with root := (node nodes i).root || decide (i ∈ roots) } := by
  induction roots generalizing nodes with
  | nil =>
    refine ⟨rfl, fun i _ => ?_⟩
    rw [foldl_nil, decide_eq_false not_mem_nil, Bool.or_false]
  | cons t roots ih =>
    obtain ⟨hlen, hnodes⟩ := ih (nodes.modify t fun node => { node with root := true })
    rw [length_modify] at hlen hnodes
    refine ⟨hlen, fun i hi => ?_⟩
    rw [foldl_cons, hnodes i hi, node_modify]
    by_cases ht : t = i
    · rw [if_pos ⟨ht, hi⟩]
      simp [ht]
    · rw [if_neg fun hcon => ht hcon.1]
      simp [Ne.symm ht]

lemma inner_fold (l : List (Nat × Nat)) (nodes : List Node) :
    (l.foldl (fun nodes p => nodes.modify p.1 fun node => { node with next := node.next ++ [p.2] })
        nodes).length = nodes.length ∧
      ∀ i < nodes.length,
        node (l.foldl (fun nodes p => nodes.modify p.1 fun node =>
          { node with next := node.next ++ [p.2] }) nodes) i =
          { node nodes i with next := (node nodes i).next ++ (l.filter (·.1 = i)).map (·.2) } := by
  induction l generalizing nodes with
  | nil =>
    refine ⟨rfl, fun i _ => ?_⟩
    rw [foldl_nil, filter_nil, map_nil, append_nil]
  | cons p l ih =>
    obtain ⟨hlen, hnodes⟩ :=
      ih (nodes.modify p.1 fun node => { node with next := node.next ++ [p.2] })
    rw [length_modify] at hlen hnodes
    refine ⟨hlen, fun i hi => ?_⟩
    rw [foldl_cons, hnodes i hi, node_modify]
    by_cases hp : p.1 = i
    · rw [if_pos ⟨hp, hi⟩, filter_cons, if_pos (decide_eq_true hp), map_cons, append_assoc]
      rfl
    · rw [if_neg fun hcon => hp hcon.1, filter_cons, if_neg fun hcon => hp (of_decide_eq_true hcon)]

/-- The blocks that are linked mark their roots and give the edges from their instructions. -/
structure Linked (f : LowFunc) (g₀ : Graph) (L : List LowBlock) (g : Graph) : Prop where
  blockNodes : g.blockNodes = g₀.blockNodes
  length : g.nodes.length = g₀.nodes.length
  same : ∀ i < g₀.nodes.length, node g.nodes i =
    { node g₀.nodes i with root := (node g.nodes i).root, next := (node g.nodes i).next }
  root : ∀ i < g₀.nodes.length, (node g.nodes i).root = true ↔
    ∃ b ∈ L, isRootBlock f b = true ∧ i ∈ first f g₀ b.id
  next : ∀ i < g₀.nodes.length, ∀ j, j ∈ (node g.nodes i).next ↔
    ∃ b ∈ L, (i, j) ∈ neighbours (g₀.blockNodes b.id) ∨
    ((g₀.blockNodes b.id).getLast? = some i ∧ ∃ s ∈ b.succs, j ∈ first f g₀ s)

lemma Linked.step {g₀ g' : Graph} {L : List LowBlock} {b : LowBlock} (h : Linked f g₀ L g)
    (hg : linkBlock f g b = .ok g') : Linked f g₀ (L ++ [b]) g' := by
  have hfirst : ∀ id, first f g id = first f g₀ id := by
    intro id
    unfold first
    rw [h.blockNodes]
  obtain ⟨hmark, hmarked⟩ := mark_fold (if isRootBlock f b then first f g₀ b.id else []) g.nodes
  have hshape : ∃ more : Nat →
      List Nat, (∀ i j, j ∈ more i ↔ (i, j) ∈ neighbours (g₀.blockNodes b.id) ∨
      ((g₀.blockNodes b.id).getLast? = some i ∧ ∃ s ∈ b.succs, j ∈ first f g₀ s)) ∧
      g'.blockNodes = g₀.blockNodes ∧ g'.nodes.length = g₀.nodes.length ∧
      ∀ i < g₀.nodes.length, node g'.nodes i = { node g.nodes i with
        root := (node g.nodes i).root || decide (i ∈ if isRootBlock f b then first f g₀ b.id
          else [])
        next := (node g.nodes i).next ++ more i } := by
    unfold linkBlock at hg
    dsimp only at hg
    simp only [h.blockNodes, hfirst] at hg
    split at hg
    next hnone =>
      injection hg with hg
      have hnil : g₀.blockNodes b.id = [] := getLast?_eq_none_iff.mp hnone
      refine ⟨fun _ => [], ?_, ?_, ?_, ?_⟩
      · intro i j
        rw [hnil]
        simp [neighbours]
      · rw [← hg]
      · rw [← hg]
        exact hmark.trans h.length
      · intro i hi
        rw [← hg, append_nil]
        exact hmarked i (h.length ▸ hi)
    next last hlast =>
      split at hg
      · cases hg
      next targets htargets =>
        injection hg with hg
        obtain ⟨hinner, hinside⟩ := inner_fold (neighbours (g₀.blockNodes b.id))
          ((if isRootBlock f b then first f g₀ b.id else []).foldl
            (fun nodes n => nodes.modify n fun node => { node with root := true }) g.nodes)
        have hexits : ∀ j, j ∈ targets ↔ ∃ s ∈ b.succs, j ∈ first f g₀ s := by
          intro j
          unfold blockExits at htargets
          split at htargets
          · injection htargets with htargets
            rw [← htargets, mem_flatMap]
            simp only [hfirst]
          · cases htargets
        refine ⟨fun i => ((neighbours (g₀.blockNodes b.id)).filter (·.1 = i)).map (·.2) ++ if last =
          i then targets else [], ?_, ?_, ?_, ?_⟩
        · intro i j
          rw [mem_append, hlast]
          apply or_congr
          · simp
          · by_cases hi : last = i
            · rw [if_pos hi, hexits, hi]
              simp
            · rw [if_neg hi]
              simp [hi]
        · rw [← hg]
        · rw [← hg]
          dsimp only
          rw [length_modify]
          exact hinner.trans (hmark.trans h.length)
        · intro i hi
          rw [← hg]
          dsimp only
          have hi' : i < g.nodes.length := h.length ▸ hi
          rw [node_modify]
          have hnode := hinside i (hmark.symm ▸ hi')
          rw [hmarked i hi'] at hnode
          by_cases hl : last = i
          · rw [if_pos ⟨hl, (hinner.trans hmark).symm ▸ hi'⟩, if_pos hl, ← append_assoc]
            exact congrArg (fun n : Node => { n with next := n.next ++ targets }) hnode
          · rw [if_neg fun hcon => hl hcon.1, if_neg hl, append_nil]
            exact hnode
  obtain ⟨more, hmore, hblock, hlen, hnodes⟩ := hshape
  refine ⟨hblock, hlen, ?_, ?_, ?_⟩
  · intro i hi
    rw [hnodes i hi]
    dsimp only
    rw [h.same i hi]
  · intro i hi
    rw [hnodes i hi]
    dsimp only
    rw [Bool.or_eq_true, h.root i hi, decide_eq_true_iff]
    simp only [mem_append, mem_singleton, or_and_right, exists_or, exists_eq_left]
    apply or_congr Iff.rfl
    split
    next hroot => exact ⟨fun hi => ⟨hroot, hi⟩, fun hand => hand.2⟩
    next hroot => exact ⟨fun hcon => absurd hcon not_mem_nil, fun hand => absurd hand.1 hroot⟩
  · intro i hi j
    rw [hnodes i hi]
    dsimp only
    rw [mem_append, h.next i hi, hmore]
    simp only [mem_append, mem_singleton, or_and_right, exists_or, exists_eq_left]

lemma Linked.steps {g₀ g' : Graph} (blocks : List LowBlock) {L : List LowBlock}
    (h : Linked f g₀ L g)
    (hg : blocks.foldlM (linkBlock f) g = .ok g') : Linked f g₀ (L ++ blocks) g' := by
  induction blocks generalizing L g with
  | nil =>
    injection hg with hg
    rw [append_nil]
    exact hg ▸ h
  | cons b blocks ih =>
    rw [foldlM_cons] at hg
    cases hb : linkBlock f g b with
    | error e =>
      rw [hb] at hg
      cases hg
    | ok g₁ =>
      rw [hb] at hg
      rw [append_cons]
      exact ih (h.step hb) hg

end

section

/-- The instructions with their edges are those of the function. -/
structure Reflects (f : LowFunc) (nodes : List Node) : Prop where
  nodup : (nodes.map (·.pc)).Nodup
  all : ∀ o ∈ f.blocks.flatMap (·.ops), ∃ i < nodes.length, (node nodes i).pc = o.addr
  ops : ∀ i < nodes.length, (node nodes i).ops = f.opsAt (node nodes i).pc
  boundary : ∀ i < nodes.length,
    (node nodes i).boundary = (f.opsAt (node nodes i).pc).any isBoundaryOp
  next : ∀ i < nodes.length, ∀ j, j ∈ (node nodes i).next ↔
    j < nodes.length ∧ f.Next (node nodes i).pc (node nodes j).pc
  entry : ∀ i < nodes.length, isEntry (node nodes i) = true ↔ f.Entry (node nodes i).pc

lemma mem_of_opsOf {o : LowOp} (h : o ∈ f.opsOf id) : ∃ b ∈ f.blocks, b.id = id ∧ o ∈ b.ops := by
  obtain ⟨b, hb, ho⟩ := mem_flatMap.mp h
  exact ⟨b, mem_of_mem_filter hb, of_decide_eq_true (mem_filter.mp hb).2, ho⟩

variable {g : Graph} (h : Added (occurrences f) g)
include h

lemma Added.exists_node {o : LowOp} (ho : o ∈ f.blocks.flatMap (·.ops)) :
    ∃ i < g.nodes.length, (node g.nodes i).pc = o.addr := by
  obtain ⟨b, hb, hmem⟩ := mem_flatMap.mp ho
  have hocc : (b.id, o) ∈ occurrences f := mem_flatMap.mpr ⟨b, hb, mem_map_of_mem hmem⟩
  obtain ⟨n, hn, hpc⟩ := mem_map.mp (h.all _ hocc)
  obtain ⟨i, hi, rfl⟩ := getElem_of_mem hn
  exact ⟨i, hi, by rw [node_of_lt hi, hpc]⟩

lemma Added.mem_pairs {i j : Nat} (hi : i < g.nodes.length) :
    (∃ b ∈ f.blocks, (i, j) ∈ neighbours (g.blockNodes b.id)) ↔
    j < g.nodes.length ∧ ∃ id before after o o', f.opsOf id = before ++ o :: o' :: after ∧
      o.addr ≠ o'.addr ∧ o.addr = (node g.nodes i).pc ∧ o'.addr = (node g.nodes j).pc := by
  have hpairs : ∀ id, (neighbours (g.blockNodes id)).map
      (Prod.map (fun i => (node g.nodes i).pc) fun i => (node g.nodes i).pc) =
      (neighbours ((f.opsOf id).map (·.addr))).filter fun p => p.1 ≠ p.2 := by
    intro id
    rw [← neighbours_map, h.pairs id, addressesOf_occurrences]
  constructor
  · rintro ⟨b, -, hmem⟩
    obtain ⟨l, r, heq⟩ := mem_neighbours.mp hmem
    have hj : j < g.nodes.length := h.inside b.id j (by rw [heq]; simp)
    have hpc :=
      mem_map_of_mem (f := Prod.map (fun i => (node g.nodes i).pc) fun i => (node g.nodes i).pc)
        hmem
    rw [hpairs, mem_filter, neighbours_map] at hpc
    obtain ⟨⟨o, o'⟩, ho, hoo⟩ := mem_map.mp hpc.1
    injection hoo with h₁ h₂
    obtain ⟨before, after, hops⟩ := mem_neighbours.mp ho
    exact ⟨hj, b.id, before, after, o, o', hops,
      fun hcon => of_decide_eq_true hpc.2 (h₁.symm.trans (hcon.trans h₂)), h₁, h₂⟩
  · rintro ⟨hj, id, before, after, o, o', hops, hne, h₁, h₂⟩
    have ho : o ∈ f.opsOf id := by
      rw [hops]
      simp
    obtain ⟨b, hb, rfl, -⟩ := mem_of_opsOf ho
    have hpc : ((node g.nodes i).pc, (node g.nodes j).pc) ∈
        (neighbours ((f.opsOf b.id).map (·.addr))).filter fun p => p.1 ≠ p.2 := by
      rw [mem_filter, neighbours_map, ← h₁, ← h₂]
      exact ⟨mem_map.mpr ⟨(o, o'), mem_neighbours.mpr ⟨before, after, hops⟩, rfl⟩,
        decide_eq_true hne⟩
    rw [← hpairs] at hpc
    obtain ⟨⟨i', j'⟩, hmem, heq⟩ := mem_map.mp hpc
    injection heq with hi' hj'
    obtain ⟨l, r, hids⟩ := mem_neighbours.mp hmem
    have hilt : i' < g.nodes.length := h.inside b.id i' (by rw [hids]; simp)
    have hjlt : j' < g.nodes.length := h.inside b.id j' (by rw [hids]; simp)
    refine ⟨b, hb, ?_⟩
    rw [pc_inj h.nodup hilt hi hi', pc_inj h.nodup hjlt hj hj'] at hmem
    exact hmem

lemma Added.getLast {i : Nat} (hi : i < g.nodes.length) : (g.blockNodes id).getLast? = some i ↔
    ∃ before o, f.opsOf id = before ++ [o] ∧ o.addr = (node g.nodes i).pc := by
  have hlast := h.last id
  rw [addressesOf_occurrences, getLast?_map, getLast?_map] at hlast
  constructor
  · intro hids
    rw [hids] at hlast
    cases hops : (f.opsOf id).getLast? with
    | none =>
      rw [hops] at hlast
      cases hlast
    | some o =>
      rw [hops] at hlast
      obtain ⟨before, heq⟩ := getLast?_eq_some_iff.mp hops
      exact ⟨before, o, heq, (Option.some.inj hlast).symm⟩
  · rintro ⟨before, o, hops, ho⟩
    rw [hops, getLast?_concat] at hlast
    cases hids : (g.blockNodes id).getLast? with
    | none =>
      rw [hids] at hlast
      cases hlast
    | some k =>
      rw [hids] at hlast
      have hk : k < g.nodes.length := h.inside id k (mem_of_getLast? hids)
      rw [pc_inj h.nodup hk hi ((Option.some.inj hlast).trans ho)]

lemma Added.mem_next {g' : Graph} (hg : Linked f g f.blocks g') {i j : Nat}
    (hi : i < g.nodes.length) :
    j ∈ (node g'.nodes i).next ↔ j < g.nodes.length ∧
      f.Next (node g.nodes i).pc (node g.nodes j).pc := by
  have hsplit : j ∈ (node g'.nodes i).next ↔
      (∃ b ∈ f.blocks, (i, j) ∈ neighbours (g.blockNodes b.id)) ∨
      ∃ b ∈ f.blocks, (g.blockNodes b.id).getLast? = some i ∧ ∃ s ∈ b.succs, j ∈ first f g s := by
    rw [hg.next i hi, ← exists_or]
    exact exists_congr fun b => and_or_left
  rw [hsplit, h.mem_pairs hi]
  constructor
  · rintro (⟨hj, id, before, after, o, o', hops, hne, ho, ho'⟩ | ⟨b, hb, hlast, s, hs, hfirst⟩)
    · exact ⟨hj, ho ▸ ho' ▸ .inside hops hne⟩
    · obtain ⟨before, o, hops, ho⟩ := (h.getLast hi).mp hlast
      obtain ⟨hj, henters⟩ := h.mem_first.mp hfirst
      exact ⟨hj, ho ▸ .leave hb hops hs henters⟩
  · rintro ⟨hj, hnext⟩
    generalize hpi : (node g.nodes i).pc = a at hnext
    generalize hpj : (node g.nodes j).pc = a' at hnext
    cases hnext with
    | @inside id before after o o' hops hne =>
      exact .inl ⟨hj, id, before, after, o, o', hops, hne, rfl, rfl⟩
    | @leave b before o s a' hb hops hs henters =>
      exact .inr ⟨b, hb, (h.getLast hi).mpr ⟨before, o, hops, hpi.symm⟩, s, hs,
        h.mem_first.mpr ⟨hj, hpj ▸ henters⟩⟩

omit h in
lemma enters_mem {a : BitVec 64} (h : f.Enters id a) :
    ∃ o ∈ f.blocks.flatMap (·.ops), o.addr = a := by
  induction h with
  | @here id o rest _ hops =>
    have hmem : o ∈ f.opsOf id := by
      rw [hops]
      exact mem_cons_self
    obtain ⟨b, hb, -, ho⟩ := mem_of_opsOf hmem
    exact ⟨o, mem_flatMap.mpr ⟨b, hb, ho⟩, rfl⟩
  | through _ _ _ _ ih => exact ih

omit h in
lemma next_mem {a a' : BitVec 64} (h : f.Next a a') :
    (∃ o ∈ f.blocks.flatMap (·.ops), o.addr = a) ∧ ∃ o ∈ f.blocks.flatMap (·.ops), o.addr = a' := by
  have hmem : ∀ {id : Int} {o : LowOp}, o ∈ f.opsOf id → ∃ o' ∈ f.blocks.flatMap (·.ops),
      o'.addr = o.addr := by
    intro id o ho
    obtain ⟨b, hb, -, ho⟩ := mem_of_opsOf ho
    exact ⟨o, mem_flatMap.mpr ⟨b, hb, ho⟩, rfl⟩
  cases h with
  | @inside id before after o o' hops hne =>
    exact ⟨hmem (by rw [hops]; simp), hmem (by rw [hops]; simp)⟩
  | @leave b before o s a hb hops hs henters =>
    exact ⟨hmem (by rw [hops]; simp), enters_mem henters⟩

omit h in
/-- The instructions of a function and their edges are what its blocks and their edges say. -/
theorem buildNodes_reflects {pc : BitVec 64} {nodes : List Node}
    (hb : buildNodes f pc = .ok nodes) : Reflects f nodes := by
  obtain ⟨-, hedges⟩ := buildNodes_spec hb
  unfold buildNodes at hb
  split at hb
  · cases hb
  next g hadd =>
  split at hb
  · cases hb
  split at hb
  · cases hb
  next g' hlink =>
  injection hb with hb
  have h : Added (occurrences f) g := added_nil.addBlocks f.blocks hadd
  have hbare : ∀ i < g.nodes.length, (node g.nodes i).next = [] ∧
      (node g.nodes i).root = false := by
    intro i hi
    rw [h.bare i hi]
    exact ⟨rfl, rfl⟩
  have hlinked : Linked f g f.blocks g' := by
    have hstart : Linked f g [] g := by
      refine ⟨rfl, rfl, fun i _ => rfl, ?_, ?_⟩
      · intro i hi
        rw [(hbare i hi).2]
        simp
      · intro i hi j
        rw [(hbare i hi).1]
        simp
    exact hstart.steps f.blocks hlink
  obtain ⟨hlen, hsame⟩ := addPrevious_range g'.nodes g'.nodes.length
  rw [hb] at hlen hsame
  have hlen' : nodes.length = g.nodes.length := hlen.trans hlinked.length
  have hpc : ∀ i < g.nodes.length, (node nodes i).pc = (node g.nodes i).pc := by
    intro i hi
    rw [(hsame i).1.1, hlinked.same i hi]
  have hnext : ∀ i < nodes.length, ∀ j, j ∈ (node nodes i).next ↔
      j < nodes.length ∧ f.Next (node nodes i).pc (node nodes j).pc := by
    intro i hi j
    rw [hlen'] at hi
    rw [(hsame i).1.2.2.1, h.mem_next hlinked hi, hlen', hpc i hi]
    exact and_congr_right fun hj => by rw [hpc j hj]
  have hall : ∀ o ∈ f.blocks.flatMap (·.ops), ∃ i < nodes.length, (node nodes i).pc = o.addr := by
    intro o ho
    obtain ⟨i, hi, heq⟩ := h.exists_node ho
    exact ⟨i, hlen'.symm ▸ hi, (hpc i hi).trans heq⟩
  refine ⟨?_, hall, ?_, ?_, hnext, ?_⟩
  · have hpcs : nodes.map (·.pc) = g.nodes.map (·.pc) := by
      apply ext_getElem
      · rw [length_map, length_map, hlen']
      · intro i hi hi'
        rw [length_map] at hi hi'
        rw [getElem_map, getElem_map, ← node_of_lt hi, ← node_of_lt hi']
        exact hpc i hi'
    exact hpcs ▸ h.nodup
  · intro i hi
    rw [hlen'] at hi
    rw [hpc i hi, (hsame i).1.2.1, hlinked.same i hi, h.bare i hi]
    exact operationsAt_occurrences _
  · intro i hi
    rw [hlen'] at hi
    rw [hpc i hi, (hsame i).1.2.2.2.2, hlinked.same i hi, h.bare i hi, ← operationsAt_occurrences]
    rfl
  · intro i hi
    have hi' : i < g.nodes.length := hlen' ▸ hi
    unfold isEntry LowFunc.Entry
    rw [Bool.or_eq_true, (hsame i).1.2.2.2.1, hlinked.root i hi', List.isEmpty_iff,
      eq_nil_iff_forall_not_mem]
    apply or_congr
    · refine exists_congr fun b => and_congr_right fun _ => and_congr_right fun _ => ?_
      rw [h.mem_first, hpc i hi']
      exact and_iff_right hi'
    · constructor
      · intro hnone a' hcon
        obtain ⟨o, ho, rfl⟩ := (next_mem hcon).1
        obtain ⟨j, hj, hjpc⟩ := hall o ho
        rw [← hjpc] at hcon
        exact hnone j ((hedges j i hi).mpr ⟨hj, (hnext j hj i).mpr ⟨hi, hcon⟩⟩)
      · intro hnone j hj
        have hand := (hedges j i hi).mp hj
        exact hnone _ ((hnext j hand.1 i).mp hand.2).2

end

end RegisterFlow

section

variable (f : LowFunc) (tri : TargetRegInfo) (r : NdVar)

def LowFunc.Opaque (a : BitVec 64) : Prop := (f.opsAt a).any isBoundaryOp = true

def LowFunc.Writes (a : BitVec 64) (b : Nat) : Prop := (f.opsAt a).any (writesByte tri r · b) = true

def LowFunc.Reads (a : BitVec 64) (b : Nat) : Prop := readsFirst tri r (f.opsAt a) b = true

/-- A path of control from an instruction to another, along instructions that leave a byte of the
register alone. -/
inductive LowFunc.Path (b : Nat) : BitVec 64 → BitVec 64 → Prop
  | edge {a a' : BitVec 64} : f.Next a a' → Path b a a'
  | step {a a' a'' : BitVec 64} : f.Next a a' → ¬f.Opaque a' → ¬f.Writes tri r a' b →
      Path b a' a'' → Path b a a''

end

namespace RegisterFlow

section

variable {tri : TargetRegInfo} {r : NdVar} {nodes : List Node} {b : Nat} (hn : Reflects f nodes)
include hn

lemma Reflects.opaque_iff {i : Nat} (hi : i < nodes.length) :
    (node nodes i).boundary = true ↔ f.Opaque (node nodes i).pc := by
  unfold LowFunc.Opaque
  rw [hn.boundary i hi]

lemma Reflects.opaque_not {i : Nat} (hi : i < nodes.length) :
    (node nodes i).boundary = false ↔ ¬f.Opaque (node nodes i).pc := by
  rw [← hn.opaque_iff hi, Bool.not_eq_true]

lemma Reflects.writes_iff {i : Nat} (hi : i < nodes.length) :
    (node nodes i).Writes tri r b ↔ f.Writes tri r (node nodes i).pc b := by
  unfold Node.Writes LowFunc.Writes
  rw [hn.ops i hi]

lemma Reflects.reads_iff {i : Nat} (hi : i < nodes.length) :
    (node nodes i).Reads tri r b ↔ f.Reads tri r (node nodes i).pc b := by
  unfold Node.Reads LowFunc.Reads
  rw [hn.ops i hi]

lemma Reflects.path {i j : Nat} (hi : i < nodes.length) (h : Path tri r nodes b i j) :
    j < nodes.length ∧ f.Path tri r b (node nodes i).pc (node nodes j).pc := by
  induction h with
  | edge hedge =>
    have hand := (hn.next _ hi _).mp hedge
    exact ⟨hand.1, .edge hand.2⟩
  | step hedge hkeep _ ih =>
    obtain ⟨hj, hnext⟩ := (hn.next _ hi _).mp hedge
    obtain ⟨hk, hpath⟩ := ih hj
    exact ⟨hk, .step hnext ((hn.opaque_not hj).mp hkeep.1)
      (fun hw => hkeep.2 ((hn.writes_iff hj).mpr hw)) hpath⟩

lemma Reflects.next_node {a a' : BitVec 64} (h : f.Next a a') :
    ∃ j < nodes.length, (node nodes j).pc = a' := by
  obtain ⟨o, ho, rfl⟩ := (next_mem h).2
  exact hn.all o ho

lemma Reflects.path_complete {a a' : BitVec 64} (h : f.Path tri r b a a') {i j : Nat}
    (hi : i < nodes.length)
    (hj : j < nodes.length) (ha : (node nodes i).pc = a) (ha' : (node nodes j).pc = a') :
    Path tri r nodes b i j := by
  induction h generalizing i with
  | edge hnext =>
    subst ha ha'
    exact .edge ((hn.next i hi j).mpr ⟨hj, hnext⟩)
  | step hnext hopaque hwrites _ ih =>
    obtain ⟨k, hk, hpc⟩ := hn.next_node hnext
    have hpath := ih hk hpc ha'
    subst ha hpc
    exact .step ((hn.next i hi k).mpr ⟨hk, hnext⟩)
      ⟨(hn.opaque_not hk).mpr hopaque, fun hw => hwrites ((hn.writes_iff hk).mp hw)⟩ hpath

lemma Reflects.path_ends {a a' : BitVec 64} (h : f.Path tri r b a a') :
    (∃ i < nodes.length, (node nodes i).pc = a) ∧ ∃ j < nodes.length, (node nodes j).pc = a' := by
  induction h with
  | edge hnext =>
    obtain ⟨o, ho, rfl⟩ := (next_mem hnext).1
    exact ⟨hn.all o ho, hn.next_node hnext⟩
  | step hnext _ _ _ ih =>
    obtain ⟨o, ho, rfl⟩ := (next_mem hnext).1
    exact ⟨hn.all o ho, ih.2⟩

end

/-- Reaching definitions and uses are exact, byte by byte: definitions write a byte from which a
path leads to the selected instruction along instructions that leave it alone, a boundary is
reported exactly where a byte comes from an entry, a call or an opaque instruction, and uses read a
byte to which such a path leads. -/
theorem queryRegisterFlow_exact {tri : TargetRegInfo} {r : NdVar} {pc : BitVec 64} {kind : Kind}
    {out : Result} (h : queryRegisterFlow f tri pc r kind = .ok out) :
    (kind = .definitions →
        (∀ a, HasSite out a .definition ↔ ∃ b, ¬f.Opaque a ∧ f.Writes tri r a b ∧
        f.Path tri r b a pc) ∧ ∀ a, HasSite out a .boundary ↔ (a = pc ∧ f.Entry pc) ∨
          ∃ b < r.size, f.Path tri r b a pc ∧ (f.Opaque a ∨ (¬f.Writes tri r a b ∧ f.Entry a))) ∧
      (kind = .uses →
        (∀ a, HasSite out a .use ↔ ¬f.Opaque pc ∧ ∃ b, ¬f.Opaque a ∧ f.Reads tri r a b ∧
        f.Path tri r b pc a) ∧ ∀ a, HasSite out a .boundary ↔ (a = pc ∧ f.Opaque pc) ∨
          (¬f.Opaque pc ∧ ∃ b < r.size, f.Opaque a ∧ f.Path tri r b pc a)) := by
  obtain ⟨nodes, s, hnodes, hs, rfl, hdefinitions, huses⟩ := queryRegisterFlow_nodes h
  have hn : Reflects f nodes := buildNodes_reflects hnodes
  constructor
  · intro hkind
    obtain ⟨hdefs, hbounds⟩ := hdefinitions hkind
    constructor
    · intro a
      rw [hdefs]
      constructor
      · rintro ⟨i, b, hi, rfl, hopaque, hwrites, hpath⟩
        exact ⟨b, (hn.opaque_not hi).mp hopaque, (hn.writes_iff hi).mp hwrites,
          (hn.path hi hpath).2⟩
      · rintro ⟨b, hopaque, hwrites, hpath⟩
        obtain ⟨i, hi, rfl⟩ := (hn.path_ends hpath).1
        exact ⟨i, b, hi, rfl, (hn.opaque_not hi).mpr hopaque, (hn.writes_iff hi).mpr hwrites,
          hn.path_complete hpath hi hs rfl rfl⟩
    · intro a
      rw [hbounds, hn.entry s hs]
      apply or_congr Iff.rfl
      constructor
      · rintro ⟨i, b, hb, hi, rfl, hpath, hor⟩
        refine ⟨b, hb, (hn.path hi hpath).2, hor.imp (hn.opaque_iff hi).mp fun hand => ?_⟩
        exact ⟨fun hw => hand.1 ((hn.writes_iff hi).mpr hw), (hn.entry i hi).mp hand.2⟩
      · rintro ⟨b, hb, hpath, hor⟩
        obtain ⟨i, hi, rfl⟩ := (hn.path_ends hpath).1
        refine ⟨i, b, hb, hi, rfl, hn.path_complete hpath hi hs rfl rfl,
          hor.imp (hn.opaque_iff hi).mpr fun hand => ?_⟩
        exact ⟨fun hw => hand.1 ((hn.writes_iff hi).mp hw), (hn.entry i hi).mpr hand.2⟩
  · intro hkind
    obtain ⟨hreads, hbounds⟩ := huses hkind
    constructor
    · intro a
      rw [hreads, hn.opaque_not hs]
      apply and_congr_right
      intro _
      constructor
      · rintro ⟨i, b, rfl, hopaque, hread, hpath⟩
        obtain ⟨hi, hpath⟩ := hn.path hs hpath
        exact ⟨b, (hn.opaque_not hi).mp hopaque, (hn.reads_iff hi).mp hread, hpath⟩
      · rintro ⟨b, hopaque, hread, hpath⟩
        obtain ⟨i, hi, rfl⟩ := (hn.path_ends hpath).2
        exact ⟨i, b, rfl, (hn.opaque_not hi).mpr hopaque, (hn.reads_iff hi).mpr hread,
          hn.path_complete hpath hs hi rfl rfl⟩
    · intro a
      rw [hbounds, hn.opaque_iff hs, hn.opaque_not hs]
      apply or_congr Iff.rfl
      apply and_congr_right
      intro _
      constructor
      · rintro ⟨i, b, hb, rfl, hopaque, hpath⟩
        obtain ⟨hi, hpath⟩ := hn.path hs hpath
        exact ⟨b, hb, (hn.opaque_iff hi).mp hopaque, hpath⟩
      · rintro ⟨b, hb, hopaque, hpath⟩
        obtain ⟨i, hi, rfl⟩ := (hn.path_ends hpath).2
        exact ⟨i, b, hb, rfl, (hn.opaque_iff hi).mpr hopaque, hn.path_complete hpath hs hi rfl rfl⟩

/-- A loop of two branches: one without instructions, one with an opaque instruction that writes the
register. -/
def opaqueBranch : LowFunc where
  entry := 0x1000
  blocks :=
    [{ id := 0
       startAddr := 0x1000
       ops := [{ opcode := .copy, output := ⟨.reg, 0, 8⟩, addr := 0x1000 }]
       succs := [1, 2] },
     { id := 1, startAddr := 0x1004, ops := [], succs := [3] },
     { id := 2
       startAddr := 0x1008
       ops := [{ opcode := .intrinsic, output := ⟨.reg, 0, 8⟩, addr := 0x1008 }]
       succs := [3] },
     { id := 3
       startAddr := 0x100c
       ops := [{ opcode := .branch, inputs := [⟨.reg, 0, 8⟩], addr := 0x100c }]
       succs := [0] }]

def plainTarget : TargetRegInfo := ⟨fun _ _ => false, fun o n => (o, n)⟩

def firstRegister : NdVar := ⟨.reg, 0, 8⟩

lemma opaqueBranch_first {ids : Int → List Nat} (h₀ : ids 0 = [0]) (h₁ : ids 1 = [])
    (h₂ : ids 2 = [1]) (h₃ : ids 3 = [2]) :
    firstFrom opaqueBranch.blocks ids [0] [] = [0] ∧ firstFrom opaqueBranch.blocks ids [1]
      [] = [2] ∧
      firstFrom opaqueBranch.blocks ids [2] [] = [1] ∧ firstFrom opaqueBranch.blocks ids [3]
      [] = [2] := by
  simp [firstFrom, h₀, h₁, h₂, h₃, blockOf, succsOf, opaqueBranch]

lemma opaqueBranch_nodes (pc : BitVec 64) (hpc : pc ∈ [0x1000, 0x100c]) :
    buildNodes opaqueBranch pc = .ok
    [{ pc := 0x1000, ops := [{ opcode := .copy, output := ⟨.reg, 0, 8⟩, addr := 0x1000 }],
       next := [2, 1],
       previous := [2], root := true },
     { pc := 0x1008, ops := [{ opcode := .intrinsic, output := ⟨.reg, 0, 8⟩, addr := 0x1008 }],
       next := [2],
       previous := [0], boundary := true },
     { pc := 0x100c, ops := [{ opcode := .branch, inputs := [⟨.reg, 0, 8⟩], addr := 0x100c }],
       next := [0],
       previous := [0, 1] }] := by
  have hgraph : ∃ ids count, opaqueBranch.blocks.foldlM addBlock {} = .ok { nodes :=
      [{ pc := 0x1000, ops := [{ opcode := .copy, output := ⟨.reg, 0, 8⟩, addr := 0x1000 }] },
       { pc := 0x1008, ops := [{ opcode := .intrinsic, output := ⟨.reg, 0, 8⟩, addr := 0x1008 }],
         boundary := true },
       { pc := 0x100c, ops := [{ opcode := .branch, inputs := [⟨.reg, 0, 8⟩], addr := 0x100c }] }]
                                                                            blockNodes := ids
                                                                            count := count } ∧
        ids 0 = [0] ∧ ids 1 = [] ∧ ids 2 = [1] ∧ ids 3 = [2] :=
    ⟨_, _, rfl, rfl, rfl, rfl, rfl⟩
  obtain ⟨ids, count, hg, h₀, h₁, h₂, h₃⟩ := hgraph
  obtain ⟨hf₀, hf₁, hf₂, hf₃⟩ := opaqueBranch_first h₀ h₁ h₂ h₃
  have hlink : ∀ nodes, opaqueBranch.blocks.foldlM (linkBlock opaqueBranch) ⟨nodes, ids, count⟩ =
      .ok ⟨(((nodes.modify 0 fun node => { node with root := true }).modify 0 fun node =>
          { node with next := node.next ++ [2, 1] }).modify 1 fun node =>
          { node with next := node.next ++ [2] }).modify 2 fun node =>
            { node with next := node.next ++ [0] },
        ids, count⟩ := by
    intro nodes
    simp [opaqueBranch, linkBlock, blockExits, first, isRootBlock, blockOf, h₀] at hf₀ hf₁ hf₂ hf₃ ⊢
    simp [hf₀, hf₁, hf₂, hf₃, h₁, h₂, h₃, bind, Except.bind]
  unfold buildNodes
  rw [hg]
  dsimp only
  rw [if_neg, hlink]
  · rfl
  · rcases mem_cons.mp hpc with rfl | hpc
    · decide
    · rw [mem_singleton.mp hpc]
      decide

lemma opaqueBranch_definitions :
    queryRegisterFlow opaqueBranch plainTarget 0x100c firstRegister .definitions = .ok
      { sites := [⟨0x1008, .boundary,
          "Call or opaque instruction has unproven implicit register effects"⟩,
          ⟨0x1000, .definition, "Reaching physical register definition"⟩]
        unknown := true } := by
  unfold queryRegisterFlow
  rw [if_neg (by decide), opaqueBranch_nodes _ (by decide)]
  show walk plainTarget firstRegister .definitions _ [(1, 0xff), (0, 0xff)] [] {} = _
  rw [walk, dif_neg (by decide), if_neg (by decide)]
  show walk plainTarget firstRegister .definitions _ [(0, 0xff)] [(1, 0xff)] _ = _
  rw [walk, dif_neg (by decide), if_neg (by decide)]
  show walk plainTarget firstRegister .definitions _ [(2, 0)] _ _ = _
  rw [walk, dif_neg (by decide), if_pos (by decide), walk]
  rfl

lemma opaqueBranch_uses :
    queryRegisterFlow opaqueBranch plainTarget 0x1000 firstRegister .uses = .ok
      { sites := [⟨0x1008, .boundary,
          "Call or opaque instruction has unproven implicit register effects"⟩,
          ⟨0x100c, .use, "Reads bytes of the selected register value"⟩]
        unknown := true } := by
  unfold queryRegisterFlow
  rw [if_neg (by decide), opaqueBranch_nodes _ (by decide)]
  show walk plainTarget firstRegister .uses _ [(1, 0xff), (2, 0xff)] [] {} = _
  rw [walk, dif_neg (by decide), if_neg (by decide)]
  show walk plainTarget firstRegister .uses _ [(2, 0xff)] [(1, 0xff)] _ = _
  rw [walk, dif_neg (by decide), if_neg (by decide)]
  show walk plainTarget firstRegister .uses _ [(0, 0xff)] _ _ = _
  rw [walk, dif_neg (by decide), if_neg (by decide)]
  show walk plainTarget firstRegister .uses _ [(1, 0), (2, 0)] _ _ = _
  rw [walk, dif_neg (by decide), if_pos (by decide), walk, dif_neg (by decide), if_pos (by decide),
    walk]
  rfl

/-- The opaque instruction is a boundary and no definition, although it writes the register right
before. -/
theorem queryRegisterFlow_opaque : ∃ out,
      queryRegisterFlow opaqueBranch plainTarget 0x100c firstRegister .definitions = .ok out ∧
      opaqueBranch.Writes plainTarget firstRegister 0x1008 0 ∧
      opaqueBranch.Path plainTarget firstRegister 0 0x1008 0x100c ∧
      ¬HasSite out 0x1008 .definition := by
  have hblock : opaqueBranch.blocks[2] ∈ opaqueBranch.blocks := getElem_mem (by decide)
  have hlast : opaqueBranch.opsOf opaqueBranch.blocks[2].id = [] ++
      [opaqueBranch.blocks[2].ops[0]] := rfl
  have hfirst : opaqueBranch.opsOf 3 = [opaqueBranch.blocks[3].ops[0]] := rfl
  have hnext : opaqueBranch.Next 0x1008 0x100c :=
    .leave hblock hlast mem_cons_self (.here rfl hfirst)
  refine ⟨_, opaqueBranch_definitions, rfl, .edge hnext, ?_⟩
  rintro ⟨site, hsite, ha, hk⟩
  rcases mem_cons.mp hsite with rfl | hsite
  · cases hk
  · rw [mem_singleton.mp hsite] at ha
    exact absurd ha (by decide)

theorem queryRegisterFlow_exact_opaque :
    (∀ a, HasSite
      { sites := [⟨0x1008, .boundary,
          "Call or opaque instruction has unproven implicit register effects"⟩,
          ⟨0x1000, .definition, "Reaching physical register definition"⟩]
        unknown := true } a .definition ↔
        ∃ b, ¬opaqueBranch.Opaque a ∧ opaqueBranch.Writes plainTarget firstRegister a b ∧
          opaqueBranch.Path plainTarget firstRegister b a 0x100c) ∧
      ∀ a, HasSite
        { sites := [⟨0x1008, .boundary,
            "Call or opaque instruction has unproven implicit register effects"⟩,
            ⟨0x100c, .use, "Reads bytes of the selected register value"⟩]
          unknown := true } a .use ↔
        ¬opaqueBranch.Opaque 0x1000 ∧ ∃ b, ¬opaqueBranch.Opaque a ∧
          opaqueBranch.Reads plainTarget firstRegister a b ∧
          opaqueBranch.Path plainTarget firstRegister b 0x1000 a :=
  ⟨((queryRegisterFlow_exact opaqueBranch_definitions).1 rfl).1,
    ((queryRegisterFlow_exact opaqueBranch_uses).2 rfl).1⟩

end RegisterFlow

end NeverD.Ir
