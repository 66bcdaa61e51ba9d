import NeverD.Sbf.Scratch

namespace NeverD.Sbf.MemoryModel
open List BitVec

open NeverD.Lib

def agreement (f g : Nat → Option Byte) (x : Nat) : Option Byte := if f x = g x then f x else none

lemma head_read {m : MemoryModel} (hm : m.Valid) {x : Nat} (hx : x < addressCount) :
    (m.read (BitVec.ofNat 64 x) 1).head? = m.recorded x := by
  have haddress : (BitVec.ofNat 64 x).toNat = x := by
    rw [toNat_ofNat]
    exact Nat.mod_eq_of_lt hx
  obtain ⟨hiff, hbytes⟩ := read_spec hm (BitVec.ofNat 64 x) 1
  rw [haddress] at hiff hbytes
  have hone : (1 : Word).toNat = 1 := rfl
  rw [hone] at hiff hbytes
  cases hrecorded : m.recorded x with
  | none =>
    have hempty : m.read (BitVec.ofNat 64 x) 1 = [] := by
      by_contra hne
      obtain ⟨b, hb⟩ := (hiff.mp hne).2 0 Nat.one_pos
      rw [add_zero, hrecorded] at hb
      cases hb
    rw [hempty]
    rfl
  | some b =>
    have hne : m.read (BitVec.ofNat 64 x) 1 ≠ [] := by
      apply hiff.mpr
      refine ⟨by decide, ?_⟩
      intro i hi
      rw [show i = 0 by omega, add_zero]
      exact ⟨b, hrecorded⟩
    have hfirst := (hbytes hne).2 0 Nat.one_pos
    rw [add_zero, hrecorded] at hfirst
    rw [head?_eq_getElem?]
    exact hfirst

section

variable {m other : MemoryModel} (hother : other.Valid)

structure Kept (m other agreed : MemoryModel) (position left : Nat) : Prop where
  valid : agreed.Valid
  recorded : ∀ x, agreed.recorded x = if x < position then agreement m.recorded other.recorded x
    else none
  room : agreed.trackedBytes + left ≤ maxModeledScratchBytes

lemma Kept.write {agreed : MemoryModel} {position left : Nat} {span : List Byte}
    (h : Kept m other agreed position (span.length + left))
    (htop : position + span.length < addressCount)
    (hspan : ∀ i < span.length, agreement m.recorded other.recorded (position + i) = span[i]?) :
    Kept m other (agreed.write (BitVec.ofNat 64 position) span) (position + span.length) left := by
  have hposition : (BitVec.ofNat 64 position).toNat = position := by
    rw [toNat_ofNat]
    exact Nat.mod_eq_of_lt (show position < 2 ^ 64 by unfold addressCount at htop; omega)
  have hroom := h.room
  obtain ⟨hvalid, htracked, hrecorded⟩ := write_spec h.valid (hposition.symm ▸ htop)
  have herased :=
    (invalidate_spec h.valid (BitVec.ofNat 64 position) (BitVec.ofNat 64 span.length)).2.1
  rw [hposition] at hrecorded
  refine ⟨hvalid, ?_, by omega⟩
  intro x
  rw [hrecorded, h.recorded]
  split
  next hin =>
    rw [if_pos (by omega), if_pos (by omega), ← hspan (x - position) (by omega)]
    congr 1
    omega
  next hout =>
    by_cases hx : x < position
    · rw [if_pos hx, if_pos (by omega)]
    · rw [if_neg hx, if_neg (by omega)]

lemma Kept.skip {agreed : MemoryModel} {position next left : Nat}
    (h : Kept m other agreed position left)
    (hle : position ≤ next) (hnone : ∀ x, position ≤ x → x < next →
    agreement m.recorded other.recorded x = none) : Kept m other agreed next left := by
  refine ⟨h.valid, ?_, h.room⟩
  intro x
  rw [h.recorded]
  by_cases hx : x < position
  · rw [if_pos hx, if_pos (by omega)]
  · rw [if_neg hx]
    split
    · exact (hnone x (by omega) (by assumption)).symm
    · rfl

lemma Kept.flush {agreed : MemoryModel} {position left : Nat} {span : List Byte} {spanStart : Nat}
    (h : Kept m other agreed (position - span.length) (span.length + left))
    (htop : position < addressCount) (hspanStart : span ≠ [] → spanStart + span.length = position)
    (hspan : ∀ i < span.length, agreement m.recorded other.recorded (position - span.length + i) =
    span[i]?) :
    Kept m other (if span = [] then agreed else agreed.write (BitVec.ofNat 64 spanStart) span)
      position left := by
  split
  next hnil =>
    rw [hnil] at h
    simpa using h
  next hne =>
    have hstart := hspanStart hne
    rw [show position - span.length = spanStart by omega] at h hspan
    rw [← hstart]
    exact h.write (by omega) hspan

include hother

-- The induction is on the bytes of the run that are left, with the span that is still to be written
-- before them.
lemma meetRun_kept (start : Nat) (bytes : List Byte) (index : Nat) (agreed : MemoryModel)
    (span : List Byte)
    (spanStart left : Nat) (hspanStart : span ≠ [] → spanStart + span.length = start + index)
    (hlength : span.length ≤ start + index) (htop : start + index + bytes.length < addressCount)
    (hbytes : ∀ i < bytes.length, m.recorded (start + index + i) = bytes[i]?)
    (hspan : ∀ i < span.length,
    agreement m.recorded other.recorded (start + index - span.length + i) = span[i]?)
    (hkept : Kept m other agreed (start + index - span.length)
    (span.length + (bytes.length + left))) :
    Kept m other (meetRun other start bytes index agreed span spanStart)
      (start + index + bytes.length) left := by
  induction bytes generalizing index agreed span spanStart with
  | nil =>
    exact Kept.flush (by simpa using hkept) htop hspanStart hspan
  | cons b bytes ih =>
    rw [length_cons] at htop hkept
    have hb : m.recorded (start + index) = some b := by simpa using hbytes 0 (by simp)
    have hrest : ∀ i < bytes.length, m.recorded (start + (index + 1) + i) = bytes[i]? := by
      intro i hi
      have hi' := hbytes (i + 1) (by simpa using hi)
      rw [getElem?_cons_succ] at hi'
      rw [← hi']
      congr 1
      omega
    have hread := head_read hother (show start + index < addressCount by omega)
    have hposition : start + index + (b :: bytes).length = start + (index + 1) + bytes.length := by
      rw [length_cons]
      omega
    rw [hposition]
    unfold meetRun
    rw [hread]
    split
    · -- The byte is agreed on and joins the span.
      rename_i hagree
      have hat : agreement m.recorded other.recorded (start + index) = some b := by
        unfold agreement
        rw [hb, hagree, if_pos rfl]
      have hjoined : (span ++ [b]).length = span.length + 1 := by simp
      apply ih
      · intro _
        rw [hjoined]
        split
        next hnil =>
          rw [hnil, length_nil]
          omega
        next hne =>
          have := hspanStart hne
          omega
      · omega
      · omega
      · exact hrest
      · intro i hi
        rw [hjoined, show start + (index + 1) - (span.length + 1) =
          start + index - span.length by omega]
        by_cases hlast : i < span.length
        · rw [hspan i hlast, getElem?_append_left hlast]
        · rw [show i = span.length by
            omega, show start + index - span.length + span.length = start + index by omega,
            hat, getElem?_concat_length]
      · rw [hjoined, show start + (index + 1) - (span.length + 1) =
          start + index - span.length by omega,
          show span.length + 1 + (bytes.length + left) = span.length + (bytes.length + 1 + left) by
            omega]
        exact hkept
    next hdiffer =>
      have hat : agreement m.recorded other.recorded (start + index) = none := by
        unfold agreement
        rw [hb, if_neg fun h => hdiffer h.symm]
      -- The span ends here, and the position moves over the byte.
      have hflush : Kept m other (if span = [] then agreed
          else agreed.write (BitVec.ofNat 64 spanStart) span)
          (start + index) (bytes.length + 1 + left) := hkept.flush (by omega) hspanStart hspan
      have hnext : Kept m other (if span = [] then agreed
          else agreed.write (BitVec.ofNat 64 spanStart) span)
          (start + (index + 1)) (bytes.length + left) := by
        have hskip := @Kept.skip _ _ _ _ (start + (index + 1)) _ hflush (by omega) (by
          intro x h1 h2
          rw [show x = start + index by omega]
          exact hat)
        exact ⟨hskip.valid, hskip.recorded, by have := hskip.room; omega⟩
      split
      next hnil =>
        rw [if_pos hnil] at hnext
        exact ih (index + 1) agreed [] spanStart (fun h => (h rfl).elim) (Nat.zero_le _)
          (by omega) hrest (fun i hi => (Nat.not_lt_zero i hi).elim) (by simpa using hnext)
      next hne =>
        rw [if_neg hne] at hnext
        exact ih (index + 1) _ [] spanStart (fun h => (h rfl).elim) (Nat.zero_le _) (by omega) hrest
          (fun i hi => (Nat.not_lt_zero i hi).elim) (by simpa using hnext)

lemma foldl_meetRun_kept (rest : List (Runs.Run Byte)) (agreed : MemoryModel) (position : Nat)
    (hcanonical : Runs.Canonical rest) (hbelow : ∀ r ∈ rest, Runs.stop r < addressCount)
    (hstarts : ∀ r ∈ rest, position ≤ r.1)
    (hrest : ∀ x, position ≤ x → m.recorded x = Runs.get rest x)
    (hkept : Kept m other agreed position (Runs.total rest)) :
      ∃ stop, (∀ x, stop ≤ x → m.recorded x = none) ∧
      Kept m other (rest.foldl (fun agreed r => meetRun other r.1 r.2 0 agreed [] r.1) agreed)
      stop 0 := by
  induction rest generalizing agreed position with
  | nil => exact ⟨position, hrest, hkept⟩
  | cons r rest ih =>
    obtain ⟨hne, hgaps, htail⟩ := Runs.Canonical.cons_iff.mp hcanonical
    have hr := hbelow r mem_cons_self
    have hnone : ∀ x, position ≤ x → x < r.1 → agreement m.recorded other.recorded x = none := by
      intro x h1 h2
      have hx : m.recorded x = none := by
        rw [hrest x h1]
        apply Runs.get_none
        intro s hs
        rcases mem_cons.mp hs with hs | hs
        · rw [hs]
          exact .inl h2
        · have h3 := hgaps s hs
          unfold Runs.stop at h3
          omega
      unfold agreement
      rw [hx]
      split <;> rfl
    have hstart := hkept.skip (hstarts r mem_cons_self) hnone
    rw [Runs.total_cons] at hstart
    have hrun := meetRun_kept hother r.1 r.2 0 agreed [] r.1 (Runs.total rest)
      (fun h => (h rfl).elim) (Nat.zero_le _) hr (by
        intro i hi
        rw [hrest _ (by have := hstarts r mem_cons_self; omega), Runs.get_cons,
          hcanonical.get_tail_none (by unfold Runs.stop; omega), Option.or_none]
        unfold Runs.value
        rw [if_pos (by omega)]
        congr 1
        omega)
      (fun i hi => (Nat.not_lt_zero i hi).elim) (by simpa using hstart)
    rw [foldl_cons]
    apply ih _ (Runs.stop r) htail
    · intro s hs
      exact hbelow s (mem_cons_of_mem _ hs)
    · intro s hs
      exact Nat.le_of_lt (hgaps s hs)
    · intro x hx
      rw [hrest x (by have := hstarts r mem_cons_self; unfold Runs.stop at hx; omega),
        Runs.get_cons, Runs.value_none (.inr hx), Option.none_or]
    · exact hrun

theorem meet_spec (hm : m.Valid) :
    (m.meet other).Valid ∧ (m.meet other).recorded = agreement m.recorded other.recorded := by
  have hinit : Kept m other clear 0 (Runs.total m.runs) := by
    refine ⟨clear_valid, fun x => rfl, ?_⟩
    have h1 := hm.tracked
    have h2 := hm.bounded
    change 0 + _ ≤ _
    omega
  obtain ⟨stop, hbehind, hkept⟩ := foldl_meetRun_kept hother m.runs clear 0 hm.canonical hm.below
    (fun r _ => Nat.zero_le _) (fun x _ => rfl) hinit
  refine ⟨hkept.valid, ?_⟩
  funext x
  change (m.runs.foldl _ clear).recorded x = _
  rw [hkept.recorded]
  split
  · rfl
  · unfold agreement
    rw [hbehind x (by omega)]
    split <;> rfl

end

def regionEnd (address : Nat) : Nat := (address / 2 ^ 32 + 1) * 2 ^ 32

lemma invalidateFrom_size (address : Word) :
    ((address / memoryRegionSize + 1) * memoryRegionSize - address).toNat =
    regionEnd address.toNat - address.toNat := by
  have hregion : memoryRegionSize.toNat = 2 ^ 32 := rfl
  have hlt : address.toNat < 2 ^ 64 := address.isLt
  rw [toNat_sub, BitVec.toNat_mul, BitVec.toNat_add, BitVec.toNat_udiv, hregion]
  unfold regionEnd
  rw [show (1 : Word).toNat = 1 from rfl]
  omega

/-- What a model can come to, with the last byte at each address. No write ends above `top`. -/
inductive Reaches (top : Nat) : MemoryModel → (Nat → Option Byte) → Prop
  | clear : Reaches top clear fun _ => none
  | write {m : MemoryModel} {last : Nat → Option Byte} (h : Reaches top m last) (address : Word)
      (bytes : List Byte) (hend : address.toNat + bytes.length ≤ top) :
      Reaches top (m.write address bytes) fun x =>
        if address.toNat ≤ x ∧ x < address.toNat + bytes.length then bytes[x - address.toNat]?
          else last x
  | invalidate {m : MemoryModel} {last : Nat → Option Byte} (h : Reaches top m last)
      (address size : Word) : Reaches top (m.invalidate address size) fun x =>
        if address.toNat ≤ x ∧ x < address.toNat + size.toNat then none else last x
  | invalidateFrom {m : MemoryModel} {last : Nat → Option Byte} (h : Reaches top m last)
      (address : Word) : Reaches top (m.invalidateFrom address) fun x =>
        if address.toNat ≤ x ∧ x < regionEnd address.toNat then none else last x
  | meet {m other : MemoryModel} {last last' : Nat → Option Byte} (h : Reaches top m last)
      (h' : Reaches top other last') : Reaches top (m.meet other) (agreement last last')

structure Describes (m : MemoryModel) (last : Nat → Option Byte) : Prop where
  nonempty : ∀ r ∈ m.runs, r.2 ≠ []
  -- The runs are disjoint, in order, and not adjacent.
  ordered : m.runs.Pairwise fun r s => Runs.stop r < s.1
  tracked : m.trackedBytes = Runs.total m.runs
  bounded : m.trackedBytes ≤ maxModeledScratchBytes
  read_iff : ∀ address size : Word, m.read address size ≠ [] ↔
    size ≠ 0 ∧ ∀ i < size.toNat, ∃ b, m.recorded (address.toNat + i) = some b
  read_last : ∀ address size : Word, m.read address size ≠ [] →
    (m.read address size).length = size.toNat ∧
    ∀ i < size.toNat, ∃ b, (m.read address size)[i]? = some b ∧ last (address.toNat + i) = some b
  -- Within the budget, what is written is recorded.
  records : ∀ (address : Word) (bytes : List Byte), address.toNat + bytes.length < addressCount →
    m.trackedBytes + bytes.length ≤ maxModeledScratchBytes →
    ∀ i < bytes.length, (m.write address bytes).recorded (address.toNat + i) = bytes[i]?

theorem recorded_invalidate {m : MemoryModel} {last : Nat → Option Byte} (hm : m.Valid)
    (hlast : ∀ x b, m.recorded x = some b → last x = some b) (address size : Word) {x : Nat}
    {b : Byte} (hx : (m.invalidate address size).recorded x = some b) :
    (if address.toNat ≤ x ∧ x < address.toNat + size.toNat then none else last x) = some b := by
  obtain ⟨-, -, hnarrow, hwide⟩ := invalidate_spec hm address size
  rcases Nat.lt_or_ge (address.toNat + size.toNat) addressCount with hlt | hge
  · rw [hnarrow hlt] at hx
    split at hx
    · cases hx
    next hout =>
      rw [if_neg hout]
      exact hlast x b hx
  · have hne : size ≠ 0 := by
      intro hzero
      rw [hzero] at hge
      have := address.isLt
      simp [addressCount] at hge
      omega
    rw [hwide hge hne] at hx
    cases hx

/-- After any sequence of operations the model is valid, and what it records is the last byte. -/
theorem Reaches.valid {m : MemoryModel} {last : Nat → Option Byte}
    (h : Reaches (addressCount - 1) m last) :
    m.Valid ∧ ∀ x b, m.recorded x = some b → last x = some b := by
  induction h with
  | clear => exact ⟨clear_valid, fun x b hx => by cases hx⟩
  | write h address bytes hend ih =>
    have htop : address.toNat + bytes.length < addressCount := by
      have : 0 < addressCount := by decide
      omega
    obtain ⟨hvalid, -, hrecorded⟩ := write_spec ih.1 htop
    refine ⟨hvalid, ?_⟩
    intro x b hx
    dsimp only
    rw [hrecorded] at hx
    split at hx
    next hin =>
      rw [if_pos hin]
      split at hx
      · exact hx
      · cases hx
    next hout =>
      rw [if_neg hout]
      exact ih.2 x b hx
  | invalidate h address size ih =>
    exact ⟨(invalidate_spec ih.1 address size).1,
      fun x b hx => recorded_invalidate ih.1 ih.2 address size hx⟩
  | invalidateFrom h address ih =>
    refine ⟨(invalidate_spec ih.1 address _).1, ?_⟩
    intro x b hx
    have hb := recorded_invalidate ih.1 ih.2 address _ hx
    have hle : address.toNat ≤ regionEnd address.toNat := by unfold regionEnd; omega
    rw [invalidateFrom_size, show address.toNat + (regionEnd address.toNat - address.toNat) =
      regionEnd address.toNat by
      omega] at hb
    exact hb
  | meet h h' ih ih' =>
    obtain ⟨hvalid, hrecorded⟩ := meet_spec ih'.1 ih.1
    refine ⟨hvalid, ?_⟩
    intro x b hx
    rw [hrecorded] at hx
    unfold agreement at hx ⊢
    split at hx
    next heq => rw [ih.2 x b hx, ih'.2 x b (heq ▸ hx), if_pos rfl]
    · cases hx

/-- Models whose writes all end below the top of the address space describe the history of their
bytes, meet in what they agree on, and are equal as soon as their maps are. -/
theorem reaches_describes {m : MemoryModel} {last : Nat → Option Byte}
    (h : Reaches (addressCount - 1) m last) :
    m.Describes last ∧ ∀ (other : MemoryModel) (last' : Nat → Option Byte),
      Reaches (addressCount - 1) other last' →
      (m.meet other).recorded = agreement m.recorded other.recorded ∧
      (m.beq other = true ↔ m.recorded = other.recorded) := by
  obtain ⟨hvalid, hlast⟩ := h.valid
  refine ⟨⟨hvalid.canonical.nonempty, hvalid.canonical.gaps, hvalid.tracked, hvalid.bounded,
    fun address size => (read_spec hvalid address size).1, ?_, ?_⟩, ?_⟩
  · intro address size hne
    obtain ⟨hlength, hbytes⟩ := (read_spec hvalid address size).2 hne
    refine ⟨hlength, ?_⟩
    intro i hi
    obtain ⟨b, hb⟩ := ((read_spec hvalid address size).1.mp hne).2 i hi
    exact ⟨b, (hbytes i hi).trans hb, hlast _ b hb⟩
  · intro address bytes htop hroom i hi
    have herased := (invalidate_spec hvalid address (BitVec.ofNat 64 bytes.length)).2.1
    rw [(write_spec hvalid htop).2.2, if_pos (by omega), if_pos (by omega), Nat.add_sub_cancel_left]
  · intro other last' h'
    have hother := h'.valid.1
    refine ⟨(meet_spec hother hvalid).2, ?_⟩
    unfold beq
    rw [decide_eq_true_eq]
    constructor
    · intro heq
      unfold recorded
      rw [heq]
    · intro heq
      exact hvalid.canonical.ext hother.canonical fun x => congrFun heq x

/-- A write at the stack, partly forgotten. -/
theorem reaches_describes_cut :
    Describes ((clear.write 0x200000000 [1, 2, 3, 4]).invalidate 0x200000001 2) (fun x =>
      if (0x200000001 : Word).toNat ≤ x ∧ x < (0x200000001 : Word).toNat + (2 : Word).toNat then
        none
      else if (0x200000000 : Word).toNat ≤ x ∧
        x < (0x200000000 : Word).toNat + [1, 2, 3, 4].length then
        ([1, 2, 3, 4] : List Byte)[x - (0x200000000 : Word).toNat]?
      else none) :=
  (reaches_describes ((Reaches.clear.write 0x200000000 [1, 2, 3, 4] (by decide)).invalidate
    0x200000001 2)).1

/-- A run that ends at the very top has an end of zero, and is never cut again. -/
theorem reaches_stale :
    ¬∀ (m : MemoryModel) (last : Nat → Option Byte), Reaches addressCount m last →
      m.Describes last := by
  intro hall
  have h :=
    (@Reaches.clear addressCount).write 0xfffffffffffffff8 [1, 2, 3, 4, 5, 6, 7, 8] (by decide)
  have hread :=
    (hall _ _ (h.invalidate 0xfffffffffffffffc 2)).read_last 0xfffffffffffffffc 2 (by decide)
  obtain ⟨b, -, hb⟩ := hread.2 0 (by decide)
  rw [if_pos (by decide)] at hb
  cases hb

end NeverD.Sbf.MemoryModel
