import NeverD.Sym.Build

namespace NeverD.Sym
open Lib
open Words List Nat

variable {c : APInt}

def kSymExprStructConstantBitSliceDepthLimit : Nat := 32

def kSymExprStructSymContextConstantWindowRemaining : Nat := 256

def kSymExprStructSymContextConstantWindowAvailable : Nat := 256

abbrev Window := Option APInt × Nat

def bitAP (op : SymOp) (a b : APInt) : APInt :=
  match op with
  | .and => a.and b
  | .or => a.or b
  | _ => a.xor b

namespace SymContext

variable (ctx : SymContext)

/-- The part of a concatenation, most significant first, that holds the window. -/
def concatSlice (rec : SymRef → Nat → Nat → Window) (low w : Nat) : List SymRef → Nat → Nat → Window
  | [], _, remaining => (none, remaining)
  | child :: rest, high, remaining =>
    if remaining = 0 then (none, 0)
    else
      let start := high - ctx.width child
      if start ≤ low ∧ low < high ∧ w ≤ high - low then rec child (low - start) (remaining - 1)
      else concatSlice rec low w rest start (remaining - 1)

/-- An absorbing value proves the window whatever the unknown operands are. -/
def bitwiseSlice (rec : SymRef → Nat → Window) (op : SymOp) : List SymRef → APInt → Bool →
    Nat → Window
  | [], value, unknown, remaining => (if unknown then none else some value, remaining)
  | child :: rest, value, unknown, remaining =>
    if remaining = 0 then (none, 0)
    else
      match rec child remaining with
      | (none, remaining) => bitwiseSlice rec op rest value true remaining
      | (some part, remaining) =>
        let value := bitAP op value part
        if (op = .and ∧ value.isZero) ∨ (op = .or ∧ value.isAllOnes) then (some value, remaining)
        else bitwiseSlice rec op rest value unknown remaining

def constantBitSlice : Nat → SymRef → Nat → Nat → Nat → Window
  | _, _, _, _, 0 => (none, 0)
  | 0, _, _, _, remaining + 1 => (none, remaining)
  | depth + 1, a, low, w, remaining + 1 =>
    if ctx.isConst a then
      let words := (ctx.width a - 1) / 64 + 1
      if remaining < words then (none, remaining)
      else (some ((ctx.constValue a).extractBits w low), remaining - words)
    else
      match ctx.op a with
      | .extract => constantBitSlice depth (ctx.operand a 0) (low + ctx.aux a) w remaining
      | .concat =>
        ctx.concatSlice (fun child low remaining => constantBitSlice depth child low w remaining)
          low w (ctx.operands a) (ctx.width a) remaining
      | .zext =>
        let inner := ctx.operand a 0
        if ctx.width inner ≤ low then (some (APInt.zero w), remaining)
        else if w ≤ ctx.width inner - low then constantBitSlice depth inner low w remaining
        else (none, remaining)
      | .ite =>
        match constantBitSlice depth (ctx.operand a 1) low w remaining with
        | (none, remaining) => (none, remaining)
        | (some taken, remaining) =>
          match constantBitSlice depth (ctx.operand a 2) low w remaining with
          | (some other, remaining) => (if other = taken then some taken else none, remaining)
          | (none, remaining) => (none, remaining)
      | .not =>
        match constantBitSlice depth (ctx.operand a 0) low w remaining with
        | (some v, remaining) => (some v.not, remaining)
        | (none, remaining) => (none, remaining)
      | .and =>
        bitwiseSlice (fun child remaining => constantBitSlice depth child low w remaining) .and
          (ctx.operands a) (APInt.allOnes w) false remaining
      | .or =>
        bitwiseSlice (fun child remaining => constantBitSlice depth child low w remaining) .or
          (ctx.operands a) (APInt.zero w) false remaining
      | .xor =>
        bitwiseSlice (fun child remaining => constantBitSlice depth child low w remaining) .xor
          (ctx.operands a) (APInt.zero w) false remaining
      | _ => (none, remaining)

/-- `constantWindow` with a budget shared between queries. -/
def constantWindowWithin (a : SymRef) (low w budget : Nat) : Window :=
  if ctx.nodes.length ≤ a ∨ w = 0 ∨ 64 < w ∨ ctx.width a < low ∨ ctx.width a - low < w then
    (none, budget)
  else
    let available := min budget kSymExprStructSymContextConstantWindowAvailable
    let (result, remaining) :=
      ctx.constantBitSlice kSymExprStructConstantBitSliceDepthLimit a low w available
    (result, budget - (available - remaining))

def constantWindow (a : SymRef) (low w : Nat) : Option APInt :=
  (ctx.constantWindowWithin a low w kSymExprStructSymContextConstantWindowRemaining).1

end SymContext

def bitOp (op : SymOp) (x y : Nat) : Nat :=
  match op with
  | .and => x &&& y
  | .or => x ||| y
  | _ => x ^^^ y

lemma testBit_bitOp (op : SymOp) (x y i : Nat) : (bitOp op x y).testBit i = (match op with
      | .and => x.testBit i && y.testBit i
      | .or => x.testBit i || y.testBit i
      | _ => (x.testBit i).xor (y.testBit i)) := by
  unfold bitOp
  split
  · exact testBit_and ..
  · exact testBit_or ..
  · exact testBit_xor ..

lemma bitOp_assoc (op : SymOp) (x y z : Nat) :
    bitOp op (bitOp op x y) z = bitOp op x (bitOp op y z) := by
  cases op with
  | and => exact Nat.and_assoc ..
  | or => exact Nat.or_assoc ..
  | _ => exact Nat.xor_assoc ..

lemma bitOp_comm (op : SymOp) (x y : Nat) : bitOp op x y = bitOp op y x := by
  unfold bitOp
  split
  · exact Nat.and_comm ..
  · exact Nat.or_comm ..
  · exact Nat.xor_comm ..

variable {w low : Nat}

lemma bitOp_lt {op : SymOp} {x y : Nat} (hx : x < 2 ^ w) (hy : y < 2 ^ w) :
    bitOp op x y < 2 ^ w := by
  unfold bitOp
  split
  · exact and_lt_two_pow _ hy
  · exact or_lt_two_pow hx hy
  · exact xor_lt_two_pow hx hy

lemma bitOp_and_ones {y : Nat} (h : y < 2 ^ w) : bitOp .and y (ones w) = y := and_ones h

lemma bitOp_or_zero (y : Nat) : bitOp .or y 0 = y := or_zero y

lemma bitOp_xor_zero (y : Nat) : bitOp .xor y 0 = y := Nat.xor_zero y

lemma bitAP_num {op : SymOp} {w : Nat} {a b : APInt} (ha : a.width = w) (hb : b.width = w) :
    (bitAP op a b).width = w ∧ (bitAP op a b).toNat = bitOp op a.toNat b.toNat := by
  have hab : b.width = a.width := hb.trans ha.symm
  unfold bitAP bitOp
  split
  · exact ⟨ha, toNat_and hab⟩
  · exact ⟨ha, toNat_or hab⟩
  · exact ⟨ha, toNat_xor hab⟩

lemma slice_bitOp (op : SymOp) (x y : Nat) :
    slice low w (bitOp op x y) = bitOp op (slice low w x) (slice low w y) := by
  apply eq_of_bits (slice_lt ..) (bitOp_lt (slice_lt ..) (slice_lt ..))
  intro i hi
  rw [testBit_bitOp, testBit_slice, testBit_bitOp]
  simp [testBit_slice, hi]

lemma slice_andAll {v : Nat} (xs : List Nat) (h : low + w ≤ v) :
    slice low w (andAll v xs) = (xs.map (slice low w)).foldr (bitOp .and) (ones w) := by
  induction xs with
  | nil =>
    apply (slice_eq_iff (ones_lt w)).mpr
    intro i hi
    simp [hi]
    omega
  | cons x xs ih =>
    rw [map_cons, foldr_cons, ← ih]
    exact slice_bitOp .and ..

lemma slice_orAll (xs : List Nat) :
    slice low w (orAll xs) = (xs.map (slice low w)).foldr (bitOp .or) 0 := by
  induction xs with
  | nil => simp [slice]
  | cons x xs ih =>
    rw [map_cons, foldr_cons, ← ih]
    exact slice_bitOp .or ..

lemma slice_xorAll (xs : List Nat) :
    slice low w (xorAll xs) = (xs.map (slice low w)).foldr (bitOp .xor) 0 := by
  induction xs with
  | nil => simp [slice]
  | cons x xs ih =>
    rw [map_cons, foldr_cons, ← ih]
    exact slice_bitOp .xor ..

variable [BlockHash] {last : SymContext} {vals : List APInt} {s : SymBuilder}

omit [BlockHash] in
lemma foldr_bitOp (op : SymOp) (xs : List Nat) (y z : Nat) :
    xs.foldr (bitOp op) (bitOp op y z) = bitOp op y (xs.foldr (bitOp op) z) := by
  induction xs with
  | nil => rfl
  | cons x xs ih =>
    rw [foldr_cons, foldr_cons, ih, ← bitOp_assoc, ← bitOp_assoc, bitOp_comm op x y]

omit [BlockHash] in
lemma foldr_bitOp_lt {op : SymOp} {xs : List Nat} (h : ∀ x ∈ xs, x < 2 ^ w) {z : Nat}
    (hz : z < 2 ^ w) : xs.foldr (bitOp op) z < 2 ^ w := by
  induction xs with
  | nil => exact hz
  | cons x xs ih =>
    exact bitOp_lt (h x (mem_cons_self ..)) (ih fun y hy => h y (mem_cons_of_mem _ hy))

omit [BlockHash] in
theorem bitwiseSlice_spec {rec : SymRef → Nat → Window} {op : SymOp}
    {f : SymRef → Nat} (hf : ∀ r, f r < 2 ^ w) {children : List SymRef}
    (hrec : ∀ child ∈ children, ∀ rem c, (rec child rem).1 = some c → c.width = w ∧
    f child = c.toNat)
    {value : APInt} (hv : value.width = w) {unknown : Bool} {x e : Nat} (hx : x < 2 ^ w)
    (he : ∀ y < 2 ^ w, bitOp op y e = y) (hu : unknown = false → x = e) {rem : Nat}
    (h : (SymContext.bitwiseSlice rec op children value unknown rem).1 = some c) :
    c.width = w ∧ c.toNat = (children.map f).foldr (bitOp op) (bitOp op value.toNat x) := by
  induction children generalizing value unknown x rem with
  | nil =>
    cases unknown with
    | true => cases h
    | false =>
      cases h
      refine ⟨hv, ?_⟩
      rw [hu rfl]
      exact (he _ (by rw [← hv]; exact c.toNat_lt)).symm
  | cons child rest ih =>
    unfold SymContext.bitwiseSlice at h
    have hrest := fun c' hc' => hrec c' (mem_cons_of_mem _ hc')
    have hchild := hrec child (mem_cons_self ..) rem
    rw [map_cons, foldr_cons, foldr_bitOp]
    split at h
    · cases h
    · split at h
      · -- the operand is unknown: it joins the skipped ones
        obtain ⟨h1, h2⟩ := ih hrest hv (bitOp_lt hx (hf child)) (by simp) h
        refine ⟨h1, h2.trans ?_⟩
        rw [foldr_bitOp, bitOp_comm op x, foldr_bitOp, ← bitOp_assoc, ← bitOp_assoc,
          bitOp_comm op value.toNat]
      next part rem' hp =>
        rw [hp] at hchild
        obtain ⟨hpw, hpn⟩ := hchild part rfl
        obtain ⟨hvw, hvn⟩ := @bitAP_num op w value part hv hpw
        rw [hpn, ← bitOp_assoc, bitOp_comm op part.toNat, ← hvn]
        dsimp only at h
        split at h
        next habs =>
          cases h
          refine ⟨hvw, ?_⟩
          have hlt : ((rest.map f).foldr (bitOp op) x) < 2 ^ w := by
            apply foldr_bitOp_lt _ hx
            intro y hy
            obtain ⟨r, -, rfl⟩ := mem_map.mp hy
            exact hf r
          rcases habs with ⟨rfl, hz⟩ | ⟨rfl, hz⟩
          · have hz' : (bitAP .and value part).toNat = 0 := of_decide_eq_true hz
            rw [hz']
            exact (zero_and _).symm
          · have hz' : (bitAP .or value part).toNat = ones w := by
              have hb : (bitAP .or value part).bits = BitVec.allOnes _ := of_decide_eq_true hz
              rw [APInt.toNat, hb, BitVec.toNat_allOnes, hvw]
              rfl
            rw [hz']
            apply eq_of_bits (ones_lt w) (or_lt_two_pow (ones_lt w) hlt)
            intro i hi
            simp [hi]
        · obtain ⟨h1, h2⟩ := ih hrest hvw hx hu h
          exact ⟨h1, h2.trans (foldr_bitOp ..)⟩

variable (h : At last vals s)
include h

theorem concatSlice_spec {rec : SymRef → Nat → Nat → Window}
    (parts : List SymRef) (hparts : ∀ p ∈ parts, p < s.ctx.nodes.length)
    (hrec : ∀ p ∈ parts, ∀ low' rem, low' + w ≤ s.ctx.width p →
      ∀ c, (rec p low' rem).1 = some c → c.width = w ∧ slice low' w (last.num vals p) = c.toNat)
    {rem : Nat} (hc : (s.ctx.concatSlice rec low w parts (parts.map s.ctx.width).sum rem).1 =
    some c) : c.width = w ∧ low + w ≤ (parts.map s.ctx.width).sum ∧
      slice low w (joinAll (parts.map fun p => (s.ctx.width p, last.num vals p))) = c.toNat := by
  induction parts generalizing rem with
  | nil => cases hc
  | cons p ps ih =>
    unfold SymContext.concatSlice at hc
    have hsum : ((p :: ps).map s.ctx.width).sum - s.ctx.width p = (ps.map s.ctx.width).sum := by
      rw [map_cons, sum_cons]
      omega
    have hfst : (ps.map fun p => (s.ctx.width p, last.num vals p)).map Prod.fst =
        ps.map s.ctx.width := by
      rw [map_map]
      rfl
    have hlow : joinAll (ps.map fun p => (s.ctx.width p, last.num vals p)) <
        2 ^ (ps.map s.ctx.width).sum := by
      rw [← hfst]
      apply joinAll_lt
      intro x hx
      obtain ⟨q, hq, rfl⟩ := mem_map.mp hx
      exact h.lt ⟨hparts q (mem_cons_of_mem _ hq), rfl⟩
    have hjoin : joinAll ((p :: ps).map fun p => (s.ctx.width p, last.num vals p)) =
        last.num vals p * 2 ^ (ps.map s.ctx.width).sum +
          joinAll (ps.map fun p => (s.ctx.width p, last.num vals p)) := by
      rw [map_cons, ← singleton_append, joinAll_append, hfst]
      simp [joinAll]
    rw [hjoin]
    split at hc
    · cases hc
    · dsimp only at hc
      rw [hsum] at hc
      split at hc
      next hin =>
        have hle : low - (ps.map s.ctx.width).sum + w ≤ s.ctx.width p ∧
            low + w ≤ ((p :: ps).map s.ctx.width).sum := by
          have h3 := hin.2
          rw [map_cons, sum_cons] at h3 ⊢
          omega
        rw [slice_join_high hin.1 hlow]
        obtain ⟨h1, h2⟩ := hrec p (mem_cons_self ..) _ _ hle.1 c hc
        exact ⟨h1, hle.2, h2⟩
      · obtain ⟨h1, h2, h3⟩ := ih (fun q hq => hparts q (mem_cons_of_mem _ hq))
          (fun q hq => hrec q (mem_cons_of_mem _ hq)) hc
        rw [slice_join_low h2 hlow]
        refine ⟨h1, ?_, h3⟩
        rw [map_cons, sum_cons]
        omega

theorem constantBitSlice_spec {depth : Nat} {r : SymRef} {v rem : Nat}
    (hr : Has s r v) (hw : low + w ≤ v)
    (hc : (s.ctx.constantBitSlice depth r low w rem).1 = some c) :
    c.width = w ∧ slice low w (last.num vals r) = c.toNat := by
  induction depth generalizing r v low rem c with
  | zero =>
    cases rem with
    | zero => cases hc
    | succ rem => cases hc
  | succ depth ih =>
    cases rem with
    | zero => cases hc
    | succ rem =>
      unfold SymContext.constantBitSlice at hc
      split at hc
      next hk =>
        dsimp only at hc
        split at hc
        · cases hc
        · cases hc
          refine ⟨rfl, ?_⟩
          rw [h.const_num hr hk]
          show _ = (BitVec.extractLsb' low w _).toNat
          rw [BitVec.extractLsb'_toNat, shiftRight_eq_div_pow]
          rfl
      · cases hop : s.ctx.op r with
        | extract =>
          rw [hop] at hc
          obtain ⟨-, ha, hle, hn⟩ := h.extract_num hr hop
          obtain ⟨h1, h2⟩ := ih ha (by omega) hc
          refine ⟨h1, ?_⟩
          rw [hn]
          show slice low w (slice (s.ctx.aux r) v _) = _
          rw [slice_slice hw, add_comm, h2]
        | concat =>
          rw [hop] at hc
          obtain ⟨-, hsum, hn⟩ := h.concat_num hr hop
          rw [hr.2, ← hsum] at hc
          have hparts : ∀ p ∈ s.ctx.operands r, p < s.ctx.nodes.length :=
            fun p hp => h.typed.operand_lt hr.1 hp
          obtain ⟨h1, -, h2⟩ := concatSlice_spec h _ hparts
            (fun p hp low' rem' hle c' hc' => ih ⟨hparts p hp, rfl⟩ hle hc') hc
          exact ⟨h1, by rw [hn]; exact h2⟩
        | zext =>
          rw [hop] at hc
          obtain ⟨-, ha, hle, hn⟩ := h.zext_num hr hop
          dsimp only at hc
          split at hc
          next hz =>
            cases hc
            refine ⟨rfl, ?_⟩
            rw [hn, toNat_zero, slice_eq_iff (Nat.two_pow_pos w)]
            intro i _
            rw [testBit_of_lt (h.lt ha) (by omega), zero_testBit]
          · split at hc
            · rw [hn]
              exact ih ha (by omega) hc
            · cases hc
        | ite =>
          rw [hop] at hc
          obtain ⟨-, ha, hb, hn⟩ := h.ite_num hr hop
          dsimp only at hc
          split at hc
          · cases hc
          next taken rem₁ ht =>
            split at hc
            next other rem₂ ho =>
              split at hc
              next heq =>
                cases hc
                obtain ⟨h1, h2⟩ := ih ha hw (by rw [ht])
                obtain ⟨-, h3⟩ := ih hb hw (by rw [ho])
                refine ⟨h1, ?_⟩
                rw [hn]
                split
                · rw [h3, heq]
                · exact h2
              · cases hc
            · cases hc
        | not =>
          rw [hop] at hc
          obtain ⟨ha, hn⟩ := h.not_num hr hop
          dsimp only at hc
          split at hc
          next v' rem' hv =>
            cases hc
            obtain ⟨h1, h2⟩ := ih ha hw (by rw [hv])
            refine ⟨h1, ?_⟩
            rw [hn, slice_notOf (h.lt ha) hw, h2, toNat_not, h1]
          · cases hc
        | and =>
          rw [hop] at hc
          have hn := h.and_num hr hop
          obtain ⟨-, hmem⟩ := h.nary hr (by simp [hop])
          obtain ⟨h1, h2⟩ := bitwiseSlice_spec (f := fun p => slice low w (last.num vals p))
            (fun p => slice_lt ..) (fun p hp rem' c' hc' => ih (hmem p hp) hw hc') rfl (ones_lt w)
            (fun y hy => bitOp_and_ones hy) (fun _ => rfl) hc
          refine ⟨h1, ?_⟩
          rw [h2, hn, slice_andAll _ hw, map_map, toNat_allOnes]
          congr 1
          exact (Nat.and_self _).symm
        | or =>
          rw [hop] at hc
          have hn := h.or_num hr hop
          obtain ⟨-, hmem⟩ := h.nary hr (by simp [hop])
          obtain ⟨h1, h2⟩ := bitwiseSlice_spec (f := fun p => slice low w (last.num vals p))
            (fun p => slice_lt ..) (fun p hp rem' c' hc' => ih (hmem p hp) hw hc') rfl
            (Nat.two_pow_pos w)
            (fun y _ => bitOp_or_zero y) (fun _ => rfl) hc
          refine ⟨h1, ?_⟩
          rw [h2, hn, slice_orAll, map_map, toNat_zero]
          rfl
        | xor =>
          rw [hop] at hc
          have hn := h.xor_num hr hop
          obtain ⟨-, hmem⟩ := h.nary hr (by simp [hop])
          obtain ⟨h1, h2⟩ := bitwiseSlice_spec (f := fun p => slice low w (last.num vals p))
            (fun p => slice_lt ..) (fun p hp rem' c' hc' => ih (hmem p hp) hw hc') rfl
            (Nat.two_pow_pos w)
            (fun y _ => bitOp_xor_zero y) (fun _ => rfl) hc
          refine ⟨h1, ?_⟩
          rw [h2, hn, slice_xorAll, map_map, toNat_zero]
          rfl
        | _ =>
          rw [hop] at hc
          cases hc

lemma constantWindowWithin_spec {r : SymRef} {v budget : Nat} (hr : Has s r v)
    (hc : (s.ctx.constantWindowWithin r low w budget).1 = some c) :
    c.width = w ∧ slice low w (last.num vals r) = c.toNat := by
  unfold SymContext.constantWindowWithin at hc
  split at hc
  · cases hc
  next hin =>
    rw [hr.2] at hin
    exact constantBitSlice_spec h hr (by omega) hc

omit h

end NeverD.Sym
