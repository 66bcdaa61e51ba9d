import NeverD.Mba.BitwiseTable
import NeverD.Sym.Inputs

namespace NeverD.Mba
open Lib NeverD.Sym List
open BitVec (allOnes ofNat toNat_ofNat)

variable {σ : Type} {ids : List Nat} {ok : σ → Prop}

/-- The 64-bit Mersenne Twister, by its last 312 words. -/
structure Mt19937_64 where
  words : List (BitVec 64)

namespace Mt19937_64

def seedWords : Nat → Nat → BitVec 64 → List (BitVec 64)
  | 0, _, _ => []
  | n + 1, i, x =>
    let next := 6364136223846793005 * (x ^^^ (x >>> 62)) + BitVec.ofNat 64 i
    next :: seedWords n (i + 1) next

def seeded (seed : BitVec 64) : Mt19937_64 := ⟨seed :: seedWords 311 1 seed⟩

def twist (x following middle : BitVec 64) : BitVec 64 :=
  let y := (x &&& 0xFFFFFFFF80000000) ||| (following &&& 0x7FFFFFFF)
  middle ^^^ (y >>> 1) ^^^ (if y.getLsbD 0 then 0xB5026F5AA96619E9 else 0)

def temper (x : BitVec 64) : BitVec 64 :=
  let x := x ^^^ ((x >>> 29) &&& 0x5555555555555555)
  let x := x ^^^ ((x <<< 17) &&& 0x71D67FFFEDA60000)
  let x := x ^^^ ((x <<< 37) &&& 0xFFF7EEE000000000)
  x ^^^ (x >>> 43)

def next (g : Mt19937_64) : BitVec 64 × Mt19937_64 :=
  let x := twist (g.words.getD 0 0) (g.words.getD 1 0) (g.words.getD 156 0)
  (temper x, ⟨g.words.drop 1 ++ [x]⟩)

end Mt19937_64

def drawWords : Nat → Mt19937_64 → Nat × Mt19937_64
  | 0, rng => (0, rng)
  | n + 1, rng =>
    let rest := drawWords n rng.next.2
    (rng.next.1.toNat + 2 ^ 64 * rest.1, rest.2)

def randomWord (rng : Mt19937_64) (width : Nat) : APInt × Mt19937_64 :=
  let drawn := drawWords ((width + 63) / 64) rng
  (APInt.ofNat width drawn.1, drawn.2)

/-- The first rounds pin every input to a corner of the space, the others draw its words. -/
def sampleInput (s : Nat) (width : Nat) (rng : Mt19937_64) : APInt × Mt19937_64 :=
  match s with
  | 0 => (APInt.zero width, rng)
  | 1 => (APInt.allOnes width, rng)
  | 2 => (APInt.ofNat width 1, rng)
  | _ => randomWord rng width

def sampleRound (s : Nat) : List Nat → Mt19937_64 → List APInt × Mt19937_64
  | [], rng => ([], rng)
  | width :: widths, rng =>
    let drawn := sampleInput s width rng
    let rest := sampleRound s widths drawn.2
    (drawn.1 :: rest.1, rest.2)

def nativeInput (s : Nat) (mask : BitVec 64) (rng : Mt19937_64) : BitVec 64 × Mt19937_64 :=
  if s = 0 then (0, rng)
  else if s = 1 then (mask, rng)
  else if s = 2 then (1, rng)
  else (rng.next.1 &&& mask, rng.next.2)

def nativeRound (s : Nat) : List (BitVec 64) → Mt19937_64 → List (BitVec 64) × Mt19937_64
  | [], rng => ([], rng)
  | mask :: masks, rng =>
    let drawn := nativeInput s mask rng
    let rest := nativeRound s masks drawn.2
    (drawn.1 :: rest.1, rest.2)

def checkRounds {σ α : Type} (round : Nat → Mt19937_64 → List α × Mt19937_64)
    (check : List α → StateM σ Bool) : Nat → Nat → Mt19937_64 → StateM σ Bool
  | 0, _, _ => pure true
  | n + 1, s, rng => do
    let sample := round s rng
    if ← check sample.1 then checkRounds round check n (s + 1) sample.2 else pure false

/-- Where an input stands among the ordered inputs: a window without gaps needs only its origin. -/
def inputPosition (ids : List Nat) (id : Nat) : Nat :=
  if ids = [] ∨ ids.getLastD 0 - ids.headD 0 = ids.length - 1 then id - ids.headD 0
    else ids.idxOf id

def sampleSeed : Mt19937_64 := Mt19937_64.seeded 0x9E3779B97F4A7C15

/-- Compare on the samples over `vars`, with a check for machine words and one for words of any
width. -/
def agreeOnAssignments {σ : Type} (ctx : SymContext) (vars : List Nat) (samples : Nat)
    (native : Bool)
    (checkNative : (Nat → BitVec 64) → StateM σ Bool) (checkWide : (Nat → Option APInt) →
    StateM σ Bool) : StateM σ Bool :=
  let ids := sortedUnique vars
  if native then
    let masks := ids.map fun id => BitVec.allOnes 64 >>> (64 - ctx.varWidth id)
    checkRounds (fun s rng => nativeRound s masks rng)
      (fun words => checkNative fun id => words.getD (inputPosition ids id) 0) samples 0 sampleSeed
  else
    checkRounds (fun s rng => sampleRound s (ids.map ctx.varWidth) rng)
      (fun words => checkWide fun id => words[inputPosition ids id]?) samples 0 sampleSeed

def rngBefore (widths : List Nat) : Nat → Mt19937_64
  | 0 => sampleSeed
  | s + 1 => (sampleRound s widths (rngBefore widths s)).2

def sampleVals (ctx : SymContext) (ids : List Nat) (s : Nat) : List APInt :=
  assignment ids fun id =>
    (sampleRound s (ids.map ctx.varWidth) (rngBefore (ids.map ctx.varWidth) s)).1.getD
      (ids.idxOf id) (APInt.zero 0)

lemma length_sampleRound (s : Nat) (widths : List Nat) (rng : Mt19937_64) :
    (sampleRound s widths rng).1.length = widths.length := by
  induction widths generalizing rng with
  | nil => rfl
  | cons w widths ih => rw [sampleRound, length_cons, length_cons, ih]

lemma sampleInput_width (s width : Nat) (rng : Mt19937_64) :
    (sampleInput s width rng).1.width = width := by
  unfold sampleInput
  split <;> rfl

lemma sampleRound_width (s : Nat) (widths : List Nat) (rng : Mt19937_64) :
    (sampleRound s widths rng).1.map APInt.width = widths := by
  induction widths generalizing rng with
  | nil => rfl
  | cons w widths ih => rw [sampleRound, map_cons, ih, sampleInput_width]

lemma nativeInput_eq (s : Nat) {width : Nat} (hpos : 0 < width) (hw : width ≤ 64)
    (rng : Mt19937_64) : nativeInput s (allOnes 64 >>> (64 - width)) rng =
      (ofNat 64 (sampleInput s width rng).1.toNat, (sampleInput s width rng).2) := by
  have hpow : 2 ^ width ≤ 2 ^ 64 := Nat.pow_le_pow_right two_pos hw
  have hone : 1 < 2 ^ width := Nat.one_lt_two_pow (ne_of_gt hpos)
  unfold nativeInput sampleInput
  match s with
  | 0 => rfl
  | 1 =>
    rw [if_neg (by decide), if_pos rfl]
    have hmask := toNat_mask64 hw (allOnes 64)
    rw [mask64, BitVec.allOnes_and, BitVec.toNat_allOnes] at hmask
    congr 1
    apply BitVec.eq_of_toNat_eq
    have hones : (APInt.allOnes width).toNat = 2 ^ width - 1 := BitVec.toNat_allOnes
    show _ = (ofNat 64 (APInt.allOnes width).toNat).toNat
    rw [hmask, toNat_ofNat, hones, Nat.mod_eq_of_lt (by omega : 2 ^ width - 1 < 2 ^ 64)]
    apply Nat.eq_of_testBit_eq
    intro i
    rw [Nat.testBit_mod_two_pow, Nat.testBit_two_pow_sub_one, Nat.testBit_two_pow_sub_one,
      ← Bool.decide_and]
    exact decide_eq_decide.mpr ⟨fun h => h.1, fun h => ⟨h, by omega⟩⟩
  | 2 =>
    rw [if_neg (by decide), if_neg (by decide), if_pos rfl]
    congr 1
    show 1#64 = ofNat 64 (ofNat width 1).toNat
    rw [toNat_ofNat, Nat.mod_eq_of_lt hone]
  | s + 3 =>
    rw [if_neg (by omega), if_neg (by omega), if_neg (by omega)]
    have hwords : (width + 63) / 64 = 1 := by omega
    rw [randomWord, hwords]
    show (rng.next.1 &&& _, rng.next.2) =
      (ofNat 64 (ofNat width (rng.next.1.toNat + 2 ^ 64 * 0)).toNat, rng.next.2)
    congr 1
    apply BitVec.eq_of_toNat_eq
    have hmask := toNat_mask64 hw rng.next.1
    rw [mask64] at hmask
    rw [hmask, toNat_ofNat, toNat_ofNat, mul_zero, add_zero]
    exact (Nat.mod_eq_of_lt ((Nat.mod_lt _ (Nat.two_pow_pos _)).trans_le hpow)).symm

lemma nativeRound_eq (s : Nat) {widths : List Nat} (hw : ∀ w ∈ widths, 0 < w ∧ w ≤ 64)
    (rng : Mt19937_64) : nativeRound s (widths.map fun w => allOnes 64 >>> (64 - w)) rng =
      ((sampleRound s widths rng).1.map fun a => ofNat 64 a.toNat,
        (sampleRound s widths rng).2) := by
  induction widths generalizing rng with
  | nil => rfl
  | cons w widths ih =>
    obtain ⟨hpos, hle⟩ := hw w mem_cons_self
    rw [map_cons, nativeRound, nativeInput_eq s hpos hle, sampleRound]
    rw [ih fun v hv => hw v (mem_cons_of_mem _ hv), map_cons]

lemma inputPosition_eq (hsorted : ids.Pairwise (· < ·)) {id : Nat} (hid : id ∈ ids) :
    inputPosition ids id = ids.idxOf id := by
  have hspread : ∀ (ids : List Nat) (first : Nat), (first :: ids).Pairwise (· < ·) →
      first + ids.length ≤ (first :: ids).getLastD 0 ∧
        ((first :: ids).getLastD 0 - first = ids.length → ∀ id ∈ first :: ids,
          id - first = (first :: ids).idxOf id) := by
    intro ids
    induction ids with
    | nil =>
      intro first _
      refine ⟨le_rfl, fun _ id hid => ?_⟩
      rw [mem_singleton.mp hid, idxOf_cons_self, Nat.sub_self]
    | cons second ids ih =>
      intro first h
      obtain ⟨hfirst, hrest⟩ := pairwise_cons.mp h
      obtain ⟨hle, heq⟩ := ih second hrest
      have hlt := hfirst second mem_cons_self
      have hlast : (first :: second :: ids).getLastD 0 = (second :: ids).getLastD 0 := rfl
      rw [hlast, length_cons]
      refine ⟨by omega, ?_⟩
      intro hgap id hid
      rcases mem_cons.mp hid with rfl | hid
      · rw [idxOf_cons_self, Nat.sub_self]
      · have hbelow := hfirst id hid
        rw [idxOf_cons_ne _ (ne_of_lt hbelow), ← heq (by omega) id hid]
        have hsecond : second ≤ id := by
          rcases mem_cons.mp hid with rfl | hin
          · exact le_rfl
          · exact le_of_lt ((pairwise_cons.mp hrest).1 id hin)
        omega
  unfold inputPosition
  split
  next hdense =>
    cases ids with
    | nil => exact nomatch hid
    | cons first ids =>
      exact (hspread ids first hsorted).2 (hdense.resolve_left (cons_ne_nil _ _)) id hid
  · rfl

/-- A check keeps its state in order and accepts exactly if the verdict holds. -/
def Checks {σ : Type} (ok : σ → Prop) (check : StateM σ Bool) (verdict : Prop) : Prop :=
  ∀ st, ok st → ok (check.run st).2 ∧ ((check.run st).1 = true ↔ verdict)

lemma checks_pure {b : Bool} {verdict : Prop} (h : b = true ↔ verdict) :
    Checks ok (pure b) verdict := fun _ hst => ⟨hst, h⟩

lemma Checks.congr {check : StateM σ Bool} {v v' : Prop} (h : Checks ok check v)
    (hv : v ↔ v') : Checks ok check v' := fun st hst => ⟨(h st hst).1, (h st hst).2.trans hv⟩

lemma checks_rounds {α : Type} {round : Nat → Mt19937_64 → List α × Mt19937_64}
    {check : List α → StateM σ Bool} (verdict : Nat → Prop) (rng : Nat → Mt19937_64)
    (hnext : ∀ s, (round s (rng s)).2 = rng (s + 1))
    (hcheck : ∀ s, Checks ok (check (round s (rng s)).1) (verdict s))
    (n s : Nat) : Checks ok (checkRounds round check n s (rng s)) (∀ k < n, verdict (s + k)) := by
  induction n generalizing s with
  | zero => exact checks_pure ⟨fun _ k hk => absurd hk (Nat.not_lt_zero k), fun _ => rfl⟩
  | succ n ih =>
    intro st hst
    obtain ⟨hok, hiff⟩ := hcheck s st hst
    have hrun : (checkRounds round check (n + 1) s (rng s)).run st =
        if ((check (round s (rng s)).1).run st).1 = true then
          (checkRounds round check n (s + 1) (rng (s + 1))).run
            ((check (round s (rng s)).1).run st).2
        else (false, ((check (round s (rng s)).1).run st).2) := by
      rw [← hnext s]
      show (StateT.run (if ((check (round s (rng s)).1).run st).1 = true then _
        else _ : StateM σ Bool) _ : Id _) = _
      split <;> rfl
    rw [hrun]
    have hsplit : (∀ k < n + 1, verdict (s + k)) ↔ verdict s ∧ ∀ k < n, verdict (s + 1 + k) := by
      constructor
      · intro h
        refine ⟨h 0 (Nat.succ_pos n), fun k hk => ?_⟩
        rw [add_assoc, add_comm 1 k]
        exact h (k + 1) (Nat.succ_lt_succ hk)
      · intro ⟨h0, h⟩ k hk
        cases k with
        | zero => exact h0
        | succ k =>
          rw [add_comm k 1, ← add_assoc]
          exact h k (Nat.lt_of_succ_lt_succ hk)
    split
    next hpass =>
      obtain ⟨hok', hiff'⟩ := ih (s + 1) _ hok
      exact ⟨hok', hiff'.trans ⟨fun h => hsplit.mpr ⟨hiff.mp hpass, h⟩, fun h => (hsplit.mp h).2⟩⟩
    next hfail =>
      exact ⟨hok, ⟨fun h => (nomatch h), fun h => absurd (hiff.mpr (hsplit.mp h).1) hfail⟩⟩

/-- Machine words that hold a valuation of the inputs. -/
def ReadsWords (ctx : SymContext) (ids : List Nat) (lookup : Nat → BitVec 64) (vals : List APInt) :
    Prop :=
  ∀ id ∈ ids, vals[id]? = some (APInt.ofNat (ctx.varWidth id) (lookup id).toNat) ∧
    (lookup id).toNat < 2 ^ ctx.varWidth id

lemma sampleVals_get (ctx : SymContext) (s : Nat) {id : Nat} (hid : id ∈ ids) :
      (sampleVals ctx ids s)[id]? =
      (sampleRound s (ids.map ctx.varWidth)
        (rngBefore (ids.map ctx.varWidth) s)).1[ids.idxOf id]? := by
  have hlt : ids.idxOf id <
      (sampleRound s (ids.map ctx.varWidth) (rngBefore (ids.map ctx.varWidth) s)).1.length := by
    rw [length_sampleRound, length_map]
    exact idxOf_lt_length_of_mem hid
  rw [sampleVals, assignment_get hid, getElem?_eq_getElem hlt, List.getD, getElem?_eq_getElem hlt]
  rfl

lemma sampleRound_getElem (ctx : SymContext) (s : Nat) {id : Nat} (hid : id ∈ ids)
    {rng : Mt19937_64} {a : APInt}
    (ha : (sampleRound s (ids.map ctx.varWidth) rng).1[ids.idxOf id]? = some a) :
    a.width = ctx.varWidth id := by
  have hwidths :=
    congrArg (fun l => l[ids.idxOf id]?) (sampleRound_width s (ids.map ctx.varWidth) rng)
  have hget : ids[ids.idxOf id]? = some id := getElem?_idxOf hid
  rw [getElem?_map, getElem?_map, ha, hget] at hwidths
  exact Option.some.inj hwidths

/-- A comparison on the samples is one on every valuation of the stream, in machine words or not. -/
theorem checks_agreeOnAssignments (ok : σ → Prop) (verdict : List APInt → Prop) {ctx : SymContext}
    {vars : List Nat} {samples : Nat} {native : Bool}
    {checkNative : (Nat → BitVec 64) → StateM σ Bool}
    {checkWide : (Nat → Option APInt) → StateM σ Bool}
    (hnarrow : native = true → ∀ id ∈ vars, 0 < ctx.varWidth id ∧ ctx.varWidth id ≤ 64)
    (hnative : native = true → ∀ lookup vals, ReadsWords ctx vars lookup vals →
      Checks ok (checkNative lookup) (verdict vals))
    (hwide : ∀ lookup vals, (∀ id ∈ vars, lookup id = vals[id]?) → Checks ok (checkWide lookup)
    (verdict vals)) : Checks ok (agreeOnAssignments ctx vars samples native checkNative checkWide)
      (∀ s < samples, verdict (sampleVals ctx (sortedUnique vars) s)) := by
  have hmem : ∀ {id}, id ∈ vars → id ∈ sortedUnique vars := mem_sortedUnique.mpr
  have hsorted := sorted_sortedUnique vars
  have hzero : ∀ n : Nat, (∀ s < n, verdict (sampleVals ctx (sortedUnique vars) (0 + s))) ↔
      ∀ s < n, verdict (sampleVals ctx (sortedUnique vars) s) := by
    intro n
    simp only [zero_add]
  unfold agreeOnAssignments
  dsimp only
  split
  next hn =>
    have hwidths : ∀ w ∈ (sortedUnique vars).map ctx.varWidth, 0 < w ∧ w ≤ 64 := by
      intro w hw
      obtain ⟨id, hid, rfl⟩ := mem_map.mp hw
      exact hnarrow hn id (mem_sortedUnique.mp hid)
    have hmasks : (sortedUnique vars).map (fun id => allOnes 64 >>> (64 - ctx.varWidth id)) =
        ((sortedUnique vars).map ctx.varWidth).map fun w => allOnes 64 >>> (64 - w) := by
      rw [map_map]
      rfl
    rw [hmasks]
    refine .congr (checks_rounds (fun s => verdict (sampleVals ctx (sortedUnique vars) s))
      (rngBefore ((sortedUnique vars).map ctx.varWidth)) ?_ ?_ samples 0) (hzero samples)
    · intro s
      rw [nativeRound_eq s hwidths]
      rfl
    · intro s
      apply hnative hn
      intro id hid
      rw [nativeRound_eq s hwidths, sampleVals_get ctx s (hmem hid)]
      dsimp only
      rw [inputPosition_eq hsorted (hmem hid)]
      have hlt : (sortedUnique vars).idxOf id <
          (sampleRound s ((sortedUnique vars).map ctx.varWidth)
          (rngBefore ((sortedUnique vars).map ctx.varWidth) s)).1.length := by
        rw [length_sampleRound, length_map]
        exact idxOf_lt_length_of_mem (hmem hid)
      obtain ⟨a, ha⟩ : ∃ a, (sampleRound s ((sortedUnique vars).map ctx.varWidth)
          (rngBefore ((sortedUnique vars).map ctx.varWidth) s)).1[(sortedUnique vars).idxOf id]? =
          some a :=
        ⟨_, getElem?_eq_getElem hlt⟩
      have hwidth := sampleRound_getElem ctx s (hmem hid) ha
      have hless : a.toNat < 2 ^ ctx.varWidth id := hwidth ▸ a.toNat_lt
      have hword : (ofNat 64 a.toNat).toNat = a.toNat := by
        rw [toNat_ofNat]
        exact Nat.mod_eq_of_lt (hless.trans_le (Nat.pow_le_pow_right two_pos (hnarrow hn id hid).2))
      rw [ha, List.getD, getElem?_map, ha, Option.map_some, Option.getD_some, hword]
      exact ⟨congrArg some (hwidth ▸ a.ofNat_self.symm), hless⟩
  · refine .congr (checks_rounds (fun s => verdict (sampleVals ctx (sortedUnique vars) s))
      (rngBefore ((sortedUnique vars).map ctx.varWidth)) (fun _ => rfl) ?_ samples 0)
      (hzero samples)
    intro s
    apply hwide
    intro id hid
    rw [sampleVals_get ctx s (hmem hid), inputPosition_eq hsorted (hmem hid)]

end NeverD.Mba
