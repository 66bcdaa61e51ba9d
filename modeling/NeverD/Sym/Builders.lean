import NeverD.Lib.WordOps
import NeverD.Sym.Signs
import NeverD.Sym.KnownQuery

namespace NeverD.Sym
open Lib
open Words List Nat

variable {rs : List SymRef}

structure Builders where
  mkAdd : List SymRef → Build SymRef
  mkMul : List SymRef → Build SymRef
  mkAnd : List SymRef → Build SymRef
  mkOr : List SymRef → Build SymRef
  mkXor : List SymRef → Build SymRef
  mkConcat : List SymRef → Build SymRef
  mkNot : SymRef → Build SymRef
  mkNeg : SymRef → Build SymRef
  mkURem : SymRef → SymRef → Build SymRef
  mkLShr : SymRef → SymRef → Build SymRef
  mkExtract : SymRef → Nat → Nat → Build SymRef
  mkZExt : SymRef → Nat → Build SymRef
  mkSExt : SymRef → Nat → Build SymRef
  mkIte : SymRef → SymRef → SymRef → Build SymRef
  mkEq : SymRef → SymRef → Build SymRef
  mkUlt : SymRef → SymRef → Build SymRef
  mkSlt : SymRef → SymRef → Build SymRef

namespace Build

def orElse (m : Build (Option SymRef)) (k : Build SymRef) : Build SymRef := do
  match ← m with
  | some r => pure r
  | none => k

/-- A loop that ran out of its bound, and a failed assertion, have no result. -/
def ofOption {α : Type} : Option α → Build α
  | some a => pure a
  | none => stop

end Build

def combine (op : SymOp) (w : Nat) (xs : List Nat) : Nat :=
  match op with
  | .add => addAll w xs
  | .mul => mulAll w xs
  | .and => andAll w xs
  | .or => orAll xs
  | .xor => xorAll xs
  | _ => 0

def isNary (op : SymOp) : Bool := op = .add ∨ op = .mul ∨ op = .and ∨ op = .or ∨ op = .xor

def negOf (w x : Nat) : Nat := (2 ^ w - x) % 2 ^ w

def combineAP (op : SymOp) (a b : APInt) : APInt :=
  match op with
  | .add => a.add b
  | .mul => a.mul b
  | .and => a.and b
  | .or => a.or b
  | _ => a.xor b

/-- Open nested uses of an operator, fold the literals and collect the rest. -/
def SymContext.flatten (ctx : SymContext) (op : SymOp) :
    Nat → List SymRef → List SymRef → APInt → Option (List SymRef × APInt)
  | _, [], rest, acc => some (rest, acc)
  | 0, _ :: _, _, _ => none
  | n + 1, r :: work, rest, acc =>
    if ctx.op r = op then flatten ctx op n ((ctx.operands r).reverse ++ work) rest acc
    else if ctx.isConst r then flatten ctx op n work rest (combineAP op acc (ctx.constValue r))
    else flatten ctx op n work (rest ++ [r]) acc

def soleOr (mk : List SymRef → Build SymRef) : List SymRef → Build SymRef
  | [r] => pure r
  | rs => mk rs

lemma SymContext.operands_cons {ctx : SymContext} {r : SymRef} (h : ctx.operands r ≠ []) :
    ctx.operands r = ctx.operand r 0 :: (ctx.operands r).drop 1 := by
  unfold SymContext.operand
  obtain ⟨c, cs, hcs⟩ := exists_cons_of_ne_nil h
  rw [hcs]
  rfl

lemma SymContext.operands_two {ctx : SymContext} {r : SymRef} (h : ctx.numOperands r = 2) :
    ctx.operands r = [ctx.operand r 0, ctx.operand r 1] := by
  unfold SymContext.operand
  obtain ⟨a, b, hab⟩ := length_eq_two.mp h
  rw [hab]
  rfl

section

variable [BlockHash] (last : SymContext) (vals : List APInt)

def Means (s : SymBuilder) (m : Build SymRef) (w x : Nat) : Prop :=
  Triple last vals s m fun r t => Den last vals t r w x

def MeansIf (s : SymBuilder) (m : Build (Option SymRef)) (w x : Nat) : Prop :=
  Triple last vals s m fun o t => ∀ r, o = some r → Den last vals t r w x

structure Builders.Sound (B : Builders) : Prop where
  mkAdd : ∀ {s w rs}, (∀ r ∈ rs, Has s r w) →
    Means last vals s (B.mkAdd rs) w (addAll w (rs.map (last.num vals)))
  mkMul : ∀ {s w rs}, (∀ r ∈ rs, Has s r w) →
    Means last vals s (B.mkMul rs) w (mulAll w (rs.map (last.num vals)))
  mkAnd : ∀ {s w rs}, (∀ r ∈ rs, Has s r w) →
    Means last vals s (B.mkAnd rs) w (andAll w (rs.map (last.num vals)))
  mkOr : ∀ {s w rs}, (∀ r ∈ rs, Has s r w) →
    Means last vals s (B.mkOr rs) w (orAll (rs.map (last.num vals)))
  mkXor : ∀ {s w rs}, (∀ r ∈ rs, Has s r w) →
    Means last vals s (B.mkXor rs) w (xorAll (rs.map (last.num vals)))
  mkConcat : ∀ {s rs}, (∀ r ∈ rs, Has s r (last.width r)) →
      Means last vals s (B.mkConcat rs) (rs.map last.width).sum
      (joinAll (rs.map fun r => (last.width r, last.num vals r)))
  mkNot : ∀ {s w a}, Has s a w → Means last vals s (B.mkNot a) w (notOf w (last.num vals a))
  mkNeg : ∀ {s w a}, Has s a w → Means last vals s (B.mkNeg a) w (negOf w (last.num vals a))
  mkURem : ∀ {s w a b}, Has s a w → Has s b w →
    Means last vals s (B.mkURem a b) w (last.num vals a % last.num vals b)
  mkLShr : ∀ {s w v a b}, Has s a w → Has s b v →
    Means last vals s (B.mkLShr a b) w (last.num vals a / 2 ^ last.num vals b)
  mkExtract : ∀ {s v a low w}, Has s a v →
    Means last vals s (B.mkExtract a low w) w (slice low w (last.num vals a))
  mkZExt : ∀ {s v a w}, Has s a v → v ≤ w → Means last vals s (B.mkZExt a w) w (last.num vals a)
  mkSExt : ∀ {s v a w}, Has s a v → v ≤ w →
    Means last vals s (B.mkSExt a w) w (sextOf v w (last.num vals a))
  mkIte : ∀ {s w c a b}, Has s c 1 → Has s a w → Has s b w → Means last vals s (B.mkIte c a b) w
      (if last.num vals c = 0 then last.num vals b else last.num vals a)
  mkEq : ∀ {s w a b}, Has s a w → Has s b w →
    Means last vals s (B.mkEq a b) 1 (bit (last.num vals a = last.num vals b))
  mkUlt : ∀ {s w a b}, Has s a w → Has s b w →
    Means last vals s (B.mkUlt a b) 1 (bit (last.num vals a < last.num vals b))
  mkSlt : ∀ {s w a b}, Has s a w → Has s b w →
    Means last vals s (B.mkSlt a b) 1 (bit (toInt w (last.num vals a) < toInt w (last.num vals b)))

end

section

variable [BlockHash] {last : SymContext} {vals : List APInt} {s t : SymBuilder} {r : SymRef}
  {w v x y : Nat} {m : Build SymRef}

lemma At.width_eq (h : At last vals s) (hr : r < s.ctx.nodes.length) :
    s.ctx.width r = last.width r := (h.below.width hr).symm

lemma At.has_last (h : At last vals s) (hr : r < s.ctx.nodes.length) : Has s r (last.width r) :=
  ⟨hr, h.width_eq hr⟩

lemma Means.congr (h : Means last vals s m w x) (e : x = y) : Means last vals s m w y := e ▸ h

lemma means_pure (h : At last vals s → Den last vals s r w x) : Means last vals s (pure r) w x :=
  triple_pure h

lemma means_of_at (h : At last vals s → Means last vals s m w x) : Means last vals s m w x :=
  triple_of_at h

lemma means_stop : Means last vals s Build.stop w x := triple_stop

lemma means_bind {f : SymRef → Build SymRef} (h : Means last vals s m v y)
    (hf : ∀ r t, At last vals t → s.ctx.Extends t.ctx → Den last vals t r v y →
      Means last vals t (f r) w x) : Means last vals s (m >>= f) w x := triple_bind h hf

lemma means_context {f : SymContext → Build SymRef}
    (h : At last vals s → Means last vals s (f s.ctx) w x) :
    Means last vals s (Build.context >>= f) w x := triple_context h

lemma means_ite {c : Prop} [Decidable c] {m' : Build SymRef} (ht : c → Means last vals s m w x)
    (hf : ¬ c → Means last vals s m' w x) : Means last vals s (if c then m else m') w x :=
  triple_ite ht hf

lemma means_orElse {m : Build (Option SymRef)} {k : Build SymRef} (h : MeansIf last vals s m w x)
    (hk : ∀ t, At last vals t → s.ctx.Extends t.ctx → Means last vals t k w x) :
    Means last vals s (m.orElse k) w x := by
  refine triple_bind h ?_
  intro o t ht he ho
  cases o with
  | some r => exact triple_pure fun _ => ho r rfl
  | none => exact hk t ht he

lemma triple_ofOption {α β : Type} {o : Option α} {f : α → Build β} {Q : β → SymBuilder → Prop}
    (hf : ∀ a, o = some a → Triple last vals s (f a) Q) :
    Triple last vals s (Build.ofOption o >>= f) Q := by
  cases o with
  | none =>
    intro hs a t hm
    cases hm
  | some a => exact hf a rfl

lemma means_ofOption {α : Type} {o : Option α} {f : α → Build SymRef}
    (hf : ∀ a, o = some a → Means last vals s (f a) w x) :
    Means last vals s (Build.ofOption o >>= f) w x := triple_ofOption hf

lemma meansIf_none : MeansIf last vals s (pure none) w x :=
  triple_pure fun _ _ hr => (nomatch hr)

lemma meansIf_context {f : SymContext → Build (Option SymRef)}
    (h : At last vals s → MeansIf last vals s (f s.ctx) w x) :
    MeansIf last vals s (Build.context >>= f) w x := triple_context h

lemma meansIf_ite {c : Prop} [Decidable c] {m m' : Build (Option SymRef)}
    (ht : c → MeansIf last vals s m w x) (hf : ¬ c → MeansIf last vals s m' w x) :
    MeansIf last vals s (if c then m else m') w x := triple_ite ht hf

lemma meansIf_some (h : Means last vals s m w x) : MeansIf last vals s (some <$> m) w x := by
  refine triple_bind h ?_
  intro r t _ _ hr
  apply triple_pure
  intro _ q hq
  cases hq
  exact hr

lemma meansIf_bind {f : SymRef → Build (Option SymRef)} (h : Means last vals s m v y)
    (hf : ∀ r t, At last vals t → s.ctx.Extends t.ctx → Den last vals t r v y →
      MeansIf last vals t (f r) w x) : MeansIf last vals s (m >>= f) w x := triple_bind h hf

lemma means_mkConst {c : APInt} (hc : 0 < c.width) (hw : c.width = w) (hx : c.toNat = x) :
    Means last vals s (Build.mkConst c) w x := by
  rw [← hw, ← hx]
  exact triple_mkConst hc

lemma means_mkZero (hw : 0 < w) : Means last vals s (Build.mkZero w) w 0 :=
  means_mkConst hw rfl (toNat_zero w)

lemma means_mkOnes (hw : 0 < w) : Means last vals s (Build.mkOnes w) w (ones w) :=
  means_mkConst hw rfl (toNat_allOnes w)

lemma means_mkTrue : Means last vals s Build.mkTrue 1 1 := means_mkConst one_pos rfl rfl

lemma means_mkFalse : Means last vals s Build.mkFalse 1 0 := means_mkConst one_pos rfl rfl

lemma means_truth {b c : Bool} (h : c = b) :
    Means last vals s (if b then Build.mkTrue else Build.mkFalse) 1 (bit c) := by
  subst h
  cases c with
  | true => exact means_mkTrue
  | false => exact means_mkFalse

omit [BlockHash] in
lemma opNum_nary {op : SymOp} (hop : isNary op = true) (rs : List SymRef) (width : SymRef → Nat) :
    opNum op w 0 (rs.map fun c => (width c, last.num vals c)) =
      combine op w (rs.map (last.num vals)) := by
  have hsnd : (rs.map fun c => (width c, last.num vals c)).map Prod.snd =
      rs.map (last.num vals) := by
    rw [map_map]
    rfl
  simp only [isNary, decide_eq_true_eq] at hop
  rcases hop with rfl | rfl | rfl | rfl | rfl
  all_goals
    rw [← hsnd]
    rfl

omit [BlockHash] in
lemma two_le_cons (hne : rs ≠ []) (r : SymRef) : 2 ≤ (r :: rs).length :=
  succ_le_succ (length_pos_iff.mpr hne)

lemma means_nary (op : SymOp) (hop : isNary op = true) (hn : 2 ≤ rs.length)
    (hr : ∀ r ∈ rs, Has s r w) :
    Means last vals s (Build.intern op w rs 0) w (combine op w (rs.map (last.num vals))) := by
  apply means_of_at
  intro h
  have hw : 0 < w := by
    obtain ⟨r, rs, rfl⟩ := exists_cons_of_ne_nil (length_pos_iff.mp (zero_lt_of_lt hn))
    exact h.pos (hr r (mem_cons_self ..))
  have hshape : shapeOk op w 0 (rs.map s.ctx.width) := by
    have hall : 2 ≤ (rs.map s.ctx.width).length ∧ ∀ x ∈ rs.map s.ctx.width, x = w := by
      refine ⟨hn.trans_eq (length_map _).symm, ?_⟩
      intro x hx
      obtain ⟨r, hrm, rfl⟩ := mem_map.mp hx
      exact (hr r hrm).2
    simp only [isNary, decide_eq_true_eq] at hop
    rcases hop with rfl | rfl | rfl | rfl | rfl
    all_goals exact hall
  have hne : op ≠ .const ∧ op ≠ .var := by
    simp only [isNary, decide_eq_true_eq] at hop
    rcases hop with rfl | rfl | rfl | rfl | rfl
    all_goals exact ⟨by decide, by decide⟩
  rw [← opNum_nary hop rs s.ctx.width]
  refine triple_intern hw hne.1 hne.2 (fun c hc => (hr c hc).1) hshape ?_
  intro ho
  rw [ho] at hop
  cases hop

lemma means_binary {op : SymOp} {a b : SymRef} {u : Nat} (hw : 0 < w)
    (hop : op ≠ .const ∧ op ≠ .var)
    (ha : Has s a u) (hb : Has s b v) (hs : shapeOk op w 0 [u, v]) :
      Means last vals s (Build.intern op w [a, b] 0) w
      (opNum op w 0 [(u, last.num vals a), (v, last.num vals b)]) := by
  have hnode : Triple last vals s (.intern op w [a, b] 0) fun r t => Den last vals t r w
      (opNum op w 0 ([a, b].map fun c => (s.ctx.width c, last.num vals c))) :=
        triple_intern hw hop.1 hop.2
    (fun c hc => by
      rcases mem_cons.mp hc with rfl | hc
      · exact ha.1
      · rw [mem_singleton.mp hc]
        exact hb.1) (by
      simp only [map_cons, map_nil, ha.2, hb.2]
      exact hs) (by
      rintro rfl
      cases hs)
  simp only [map_cons, map_nil, ha.2, hb.2] at hnode
  exact hnode

lemma means_unary {op : SymOp} {a : SymRef} {aux : Nat} (hw : 0 < w) (hop : op ≠ .const ∧ op ≠ .var)
    (ha : Has s a v) (hs : shapeOk op w aux [v]) :
    Means last vals s (Build.intern op w [a] aux) w (opNum op w aux [(v, last.num vals a)]) := by
  have hnode : Triple last vals s (.intern op w [a] aux) fun r t => Den last vals t r w
      (opNum op w aux ([a].map fun c => (s.ctx.width c, last.num vals c))) :=
        triple_intern hw hop.1 hop.2
    (fun c hc => by
      rw [mem_singleton.mp hc]
      exact ha.1) (by
      simp only [map_cons, map_nil, ha.2]
      exact hs) (by
      rintro rfl
      cases hs)
  simp only [map_cons, map_nil, ha.2] at hnode
  exact hnode

lemma triple_each_map {α : Type} {f : α → Build SymRef} {g : α → Nat} (xs : List α)
    (hf : ∀ t, At last vals t → s.ctx.Extends t.ctx → ∀ x ∈ xs, Means last vals t (f x) w (g x)) :
    Triple last vals s (Build.each f xs) fun ys t => (∀ y ∈ ys, Has t y w) ∧
      ys.map (last.num vals) = xs.map g := by
  induction xs generalizing s with
  | nil => exact triple_pure fun _ => ⟨forall_mem_nil _, rfl⟩
  | cons a xs ih =>
    apply triple_of_at
    intro h
    refine triple_bind (hf s h (.refl _) a (mem_cons_self ..)) ?_
    intro y t ht he hy
    refine triple_bind (ih fun u hu heu x hx => hf u hu (he.trans heu) x (mem_cons_of_mem _ hx)) ?_
    intro ys u hu he' hys
    apply triple_pure
    intro _
    constructor
    · intro z hz
      rcases mem_cons.mp hz with rfl | hz
      · exact hy.1.mono he'
      · exact hys.1 z hz
    · rw [map_cons, map_cons, hys.2, hy.2]

end

section

variable {w : Nat} {op : SymOp}

lemma combine_perm {xs ys : List Nat} (h : xs.Perm ys) : combine op w xs = combine op w ys := by
  cases op with
  | add => exact addAll_perm h
  | mul => exact mulAll_perm h
  | and => exact andAll_perm h
  | or => exact orAll_perm h
  | xor => exact xorAll_perm h
  | _ => rfl

lemma combine_flat (hop : isNary op = true) (ys xs : List Nat) :
    combine op w (combine op w ys :: xs) = combine op w (ys ++ xs) := by
  simp only [isNary, decide_eq_true_eq] at hop
  rcases hop with rfl | rfl | rfl | rfl | rfl
  · show addAll w _ = addAll w _
    rw [addAll_append, addAll_cons]
    rfl
  · show mulAll w _ = mulAll w _
    rw [mulAll_append, mulAll_cons]
    rfl
  · show andAll w _ = andAll w _
    rw [andAll_append, andAll_cons]
    rfl
  · show orAll _ = orAll _
    rw [orAll_append, orAll_cons]
    rfl
  · show xorAll _ = xorAll _
    rw [xorAll_append, xorAll_cons]
    rfl

lemma combine_single (op : SymOp) (hop : isNary op = true) {x : Nat} (hx : x < 2 ^ w) :
    combine op w [x] = x := by
  simp only [isNary, decide_eq_true_eq] at hop
  rcases hop with rfl | rfl | rfl | rfl | rfl
  · simp [combine, addAll, mod_eq_of_lt hx]
  · simp [combine, mulAll, mod_eq_of_lt hx]
  · exact and_ones hx
  · simp [combine, orAll]
  · simp [combine, xorAll]

lemma toNat_combineAP (hop : isNary op = true) {a b : APInt} (ha : a.width = w) (hb : b.width = w) :
    (combineAP op a b).width = w ∧ (combineAP op a b).toNat = combine op w [a.toNat, b.toNat] := by
  have hba := hb.trans ha.symm
  have hblt := b.toNat_lt
  rw [hb] at hblt
  simp only [isNary, decide_eq_true_eq] at hop
  rcases hop with rfl | rfl | rfl | rfl | rfl
  · exact ⟨ha, (toNat_add hba).trans (by simp [combine, addAll, ha])⟩
  · exact ⟨ha, (toNat_mul hba).trans (by simp [combine, mulAll, ha])⟩
  · refine ⟨ha, (toNat_and hba).trans ?_⟩
    show _ = _ &&& (_ &&& ones w)
    rw [and_ones hblt]
  · exact ⟨ha, (toNat_or hba).trans (by simp [combine, orAll])⟩
  · exact ⟨ha, (toNat_xor hba).trans (by simp [combine, xorAll])⟩

end

variable [BlockHash] {last : SymContext} {vals : List APInt} {s : SymBuilder} {r : SymRef} {w : Nat}
    {op : SymOp}

lemma At.nary_num (h : At last vals s) (hr : Has s r w) (hop : isNary (s.ctx.op r) = true) :
    (∀ c ∈ s.ctx.operands r, Has s c w) ∧
      last.num vals r = combine (s.ctx.op r) w ((s.ctx.operands r).map (last.num vals)) := by
  simp only [isNary, decide_eq_true_eq] at hop
  refine ⟨(h.nary hr hop).2, ?_⟩
  rcases hop with ho | ho | ho | ho | ho
  · rw [h.add_num hr ho, ho]
    rfl
  · rw [h.mul_num hr ho, ho]
    rfl
  · rw [h.and_num hr ho, ho]
    rfl
  · rw [h.or_num hr ho, ho]
    rfl
  · rw [h.xor_num hr ho, ho]
    rfl

/-- Opening nested operators keeps the meaning, and leaves neither literals nor nested ones. -/
theorem flatten_spec (h : At last vals s) (hop : isNary op = true) {n : Nat}
    {work rest rest' : List SymRef}
    {acc acc' : APInt} (hwork : ∀ r ∈ work, Has s r w) (hrest : ∀ r ∈ rest, Has s r w)
    (hacc : acc.width = w)
    (hf : s.ctx.flatten op n work rest acc = some (rest', acc')) : (∀ r ∈ rest', Has s r w) ∧
      acc'.width = w ∧ combine op w (acc'.toNat :: rest'.map (last.num vals)) =
        combine op w (acc.toNat :: (work ++ rest).map (last.num vals)) := by
  induction n generalizing work rest acc with
  | zero =>
    cases work with
    | nil =>
      cases hf
      exact ⟨hrest, hacc, rfl⟩
    | cons r work => cases hf
  | succ n ih =>
    cases work with
    | nil =>
      cases hf
      exact ⟨hrest, hacc, rfl⟩
    | cons r work =>
      have hr := hwork r (mem_cons_self ..)
      have hwork' := fun q hq => hwork q (mem_cons_of_mem _ hq)
      unfold SymContext.flatten at hf
      split at hf
      next heq =>
        obtain ⟨hsub, hnum⟩ := h.nary_num hr (by rw [heq]; exact hop)
        rw [heq] at hnum
        obtain ⟨h1, h2, h3⟩ := ih (fun q hq => by
          rcases mem_append.mp hq with hq | hq
          · exact hsub q (mem_reverse.mp hq)
          · exact hwork' q hq) hrest hacc hf
        refine ⟨h1, h2, h3.trans ?_⟩
        have hflat := combine_flat (w := w) hop ((s.ctx.operands r).map (last.num vals))
          (acc.toNat :: (work ++ rest).map (last.num vals))
        rw [← hnum] at hflat
        calc combine op w (acc.toNat :: ((s.ctx.operands r).reverse ++ work ++ rest).map
            (last.num vals)) = combine op w ((s.ctx.operands r).map (last.num vals) ++
                (acc.toNat :: (work ++ rest).map (last.num vals))) := by
              apply combine_perm
              rw [append_assoc, map_append, map_reverse]
              exact perm_middle.symm.trans ((reverse_perm _).append_right _)
          _ = combine op w (last.num vals r :: acc.toNat :: (work ++ rest).map (last.num vals)) :=
            hflat.symm
          _ = combine op w (acc.toNat :: (r :: work ++ rest).map (last.num vals)) := by
              apply combine_perm
              exact .swap ..
      · split at hf
        next hc =>
          have hcw := h.const_width hr hc
          obtain ⟨hw', hval⟩ := toNat_combineAP hop hacc hcw
          obtain ⟨h1, h2, h3⟩ := ih hwork' hrest hw' hf
          refine ⟨h1, h2, h3.trans ?_⟩
          have hflat := combine_flat (w := w) hop [acc.toNat, (s.ctx.constValue r).toNat]
            ((work ++ rest).map (last.num vals))
          rw [← hval] at hflat
          rw [hflat, ← h.const_num hr hc]
          rfl
        · obtain ⟨h1, h2, h3⟩ := ih hwork' (fun q hq => by
            rcases mem_append.mp hq with hq | hq
            · exact hrest q hq
            · rw [mem_singleton.mp hq]
              exact hr) hacc hf
          refine ⟨h1, h2, h3.trans ?_⟩
          apply combine_perm
          apply List.Perm.cons
          apply List.Perm.map
          rw [← append_assoc]
          exact perm_append_comm

lemma means_soleOr (op : SymOp) {mk : List SymRef → Build SymRef} (hop : isNary op = true)
    (hmk : ∀ {rs}, (∀ r ∈ rs, Has s r w) →
    Means last vals s (mk rs) w (combine op w (rs.map (last.num vals))))
    (hrs : ∀ r ∈ rs, Has s r w) :
    Means last vals s (soleOr mk rs) w (combine op w (rs.map (last.num vals))) := by
  unfold soleOr
  split
  next r =>
    have hr := hrs r (mem_cons_self ..)
    exact means_pure fun h => ⟨hr, (combine_single op hop (h.lt hr)).symm⟩
  · exact hmk hrs

lemma means_soleNode (op : SymOp) (hop : isNary op = true) (hne : rs ≠ [])
    (hrs : ∀ r ∈ rs, Has s r w) :
    Means last vals s (soleOr (fun rs => Build.intern op w rs 0) rs) w
      (combine op w (rs.map (last.num vals))) := by
  unfold soleOr
  split
  next r =>
    have hr := hrs r (mem_cons_self ..)
    exact means_pure fun h => ⟨hr, (combine_single op hop (h.lt hr)).symm⟩
  next hone =>
    refine means_nary op hop ?_ hrs
    match rs, hne, hone with
    | [r], _, hone => exact absurd rfl (hone r)
    | _ :: _ :: _, _, _ => exact Nat.le_add_left 2 _

end NeverD.Sym
