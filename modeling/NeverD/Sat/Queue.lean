import Mathlib.Algebra.GroupWithZero.Nat
import Mathlib.Data.List.Nodup

namespace NeverD.Sat
open List Function Option

abbrev SatVar := Nat

/-- A binary heap, or a sorted run consumed from `front` while `sorted` holds. A `none` position
stands for -1. -/
structure ActivityQueue where
  heap : List SatVar := []
  position : SatVar → Option Nat := fun _ => none
  front : Nat := 0
  sorted : Bool := true

namespace ActivityQueue

def empty (q : ActivityQueue) : Bool := q.front == q.heap.length

def size (q : ActivityQueue) : Nat := q.heap.length - q.front

def contains (q : ActivityQueue) (v : SatVar) : Bool := (q.position v).isSome

def place (q : ActivityQueue) (i : Nat) (v : SatVar) : ActivityQueue :=
  { q with heap := q.heap.set i v, position := Function.update q.position v (some i) }

def push (q : ActivityQueue) (v : SatVar) : ActivityQueue :=
  { q with
    heap := q.heap ++ [v]
    position := Function.update q.position v (some q.heap.length) }

/-- Rewrite the live suffix to positions counted from `base`. -/
def reindex (base : Nat) : List SatVar → (SatVar → Option Nat) → SatVar → Option Nat
  | [], pos => pos
  | v :: vs, pos => reindex (base + 1) vs (Function.update pos v (some base))

def useHeap (q : ActivityQueue) : ActivityQueue :=
  if !q.sorted then q
  else if q.front = 0 then { q with sorted := false }
  else
    { heap := q.heap.drop q.front
      position := reindex 0 (q.heap.drop q.front) q.position
      front := 0
      sorted := false }

variable (higher : SatVar → SatVar → Bool)

/-- The loop of `siftUp` with `V` in hand and slot `i` open. -/
def siftUpFrom (v : SatVar) : Nat → Nat → ActivityQueue → ActivityQueue
  | 0, i, q => q.place i v
  | k + 1, i, q =>
    if i = 0 then q.place i v
    else
      let parent := (i - 1) / 2
      let u := q.heap.getD parent 0
      if higher v u then siftUpFrom v k parent (q.place i u) else q.place i v

def siftUp (q : ActivityQueue) (i : Nat) : ActivityQueue :=
  siftUpFrom higher (q.heap.getD i 0) i i q

def largerChild (q : ActivityQueue) (i : Nat) : Nat :=
  let child := 2 * i + 1
  if child + 1 < q.heap.length && higher (q.heap.getD (child + 1) 0) (q.heap.getD child 0) then
    child + 1
  else child

def siftDownFrom (v : SatVar) : Nat → Nat → ActivityQueue → ActivityQueue
  | 0, i, q => q.place i v
  | k + 1, i, q =>
    if q.heap.length ≤ 2 * i + 1 then q.place i v
    else
      let child := q.largerChild higher i
      let u := q.heap.getD child 0
      if higher u v then siftDownFrom v k child (q.place i u) else q.place i v

def siftDown (q : ActivityQueue) (i : Nat) : ActivityQueue :=
  siftDownFrom higher (q.heap.getD i 0) q.heap.length i q

def insert (q : ActivityQueue) (v : SatVar) : ActivityQueue :=
  if q.contains v then q
  else
    let q := if q.empty then { q with heap := [], front := 0, sorted := true } else q
    if q.sorted && (q.heap.isEmpty || !higher v (q.heap.getLastD 0)) then q.push v
    else
      let q := q.useHeap.push v
      q.siftUp higher (q.heap.length - 1)

def increased (q : ActivityQueue) (v : SatVar) : ActivityQueue :=
  match q.position v with
  | none => q
  | some _ =>
    let q := q.useHeap
    q.siftUp higher ((q.position v).getD 0)

def removeMax (q : ActivityQueue) : SatVar × ActivityQueue :=
  if q.sorted then
    let top := q.heap.getD q.front 0
    (top, { q with front := q.front + 1, position := Function.update q.position top none })
  else
    let top := q.heap.getD 0 0
    let last := q.heap.getLastD 0
    let q := { q with
      heap := q.heap.dropLast, position := Function.update q.position top none }
    if q.heap.isEmpty then (top, q)
    else (top, (q.place 0 last).siftDown higher 0)

structure Ok (q : ActivityQueue) : Prop where
  inverse : ∀ v i, q.position v = some i ↔ q.front ≤ i ∧ q.heap[i]? = some v
  front_le : q.front ≤ q.heap.length
  heap_front : q.sorted = false → q.front = 0

variable {q : ActivityQueue}

lemma contains_iff (h : q.Ok) (v : SatVar) : q.contains v = true ↔ ∃ i, q.front ≤ i ∧
    q.heap[i]? = some v := by
  simp only [contains, isSome_iff_exists, h.inverse]

lemma ok_default : Ok {} := ⟨by simp, by simp, by simp⟩

theorem place_place {i p v : Nat} (h : (q.place i v).Ok)
    (hi : i < q.heap.length) (hf : q.front ≤ p) (hp : p < q.heap.length) (hip : p ≠ i) :
    ((q.place i (q.heap.getD p 0)).place p v).Ok ∧
      ∀ w, ((q.place i (q.heap.getD p 0)).place p v).contains w = (q.place i v).contains w := by
  obtain ⟨u, hu⟩ : ∃ u, q.heap[p]? = some u := ⟨_, getElem?_eq_getElem hp⟩
  have hud : q.heap.getD p 0 = u := by simp [List.getD, hu]
  have hpu : (q.place i v).position u = some p := by
    rw [h.inverse]
    exact ⟨hf, by simp [place, Ne.symm hip, hu]⟩
  have huv : u ≠ v := by
    rintro rfl
    simp [place] at hpu
    exact hip hpu.symm
  have hqu : q.position u = some p := by
    simpa only [place, update_apply, if_neg huv] using hpu
  have hfi : q.front ≤ i := ((h.inverse v i).mp (by simp [place])).1
  have key : ∀ w k, ((q.place i u).place p v).position w = some k ↔
      q.front ≤ k ∧ ((q.place i u).place p v).heap[k]? = some w := by
    intro w k
    have hw := h.inverse w k
    simp only [place, update_apply, getElem?_set, length_set] at hw ⊢
    by_cases hwv : w = v
    · subst hwv
      simp only [if_true, Option.some.injEq] at hw ⊢
      grind
    · by_cases hwu : w = u
      · subst hwu
        simp only [hwv, if_false, if_true, Option.some.injEq] at hw ⊢
        grind
      · grind
  rw [hud]
  refine ⟨⟨key, ?_, h.heap_front⟩, ?_⟩
  · simpa [place] using h.front_le
  · intro w
    simp only [contains, place, update_apply]
    by_cases hwv : w = v
    · simp [hwv]
    · by_cases hwu : w = u
      · simp [hwu, huv, hqu]
      · simp [hwv, hwu]

lemma place_self (h : q.Ok) {i : Nat} (hi : i < q.heap.length)
    (hf : q.front = 0) : q.place i (q.heap.getD i 0) = q := by
  have he : q.heap[i]? = some (q.heap.getD i 0) := by simp [List.getD, hi]
  have hp := (h.inverse _ _).mpr ⟨by omega, he⟩
  have hset : q.heap.set i (q.heap.getD i 0) = q.heap := by simp [List.getD, hi]
  rw [place, hset, update_eq_self_iff.mpr hp.symm]

lemma siftUpFrom_ok (v : SatVar) (k i : Nat) (q : ActivityQueue) (h : (q.place i v).Ok)
    (hi : i < q.heap.length) (hf : q.front = 0) : (siftUpFrom higher v k i q).Ok ∧
      (∀ w, (siftUpFrom higher v k i q).contains w = (q.place i v).contains w) ∧
      (siftUpFrom higher v k i q).sorted = q.sorted ∧
      (siftUpFrom higher v k i q).size = q.size := by
  induction k generalizing i q with
  | zero => exact ⟨h, fun _ => rfl, rfl, by simp [siftUpFrom, size, place]⟩
  | succ k ih =>
    unfold siftUpFrom
    by_cases h0 : i = 0
    · rw [if_pos h0]
      exact ⟨h, fun _ => rfl, rfl, by simp [size, place]⟩
    rw [if_neg h0]
    dsimp only
    split
    · have hpp := place_place h hi (p := (i - 1) / 2) (by omega) (by omega) (by omega)
      obtain ⟨a, b, c, d⟩ := ih ((i - 1) / 2) (q.place i (q.heap.getD ((i - 1) / 2) 0)) hpp.1
        (by simp [place]; omega) hf
      exact ⟨a, fun w => (b w).trans (hpp.2 w), c, by rw [d]; simp [size, place]⟩
    · exact ⟨h, fun _ => rfl, rfl, by simp [size, place]⟩

lemma largerChild_bounds (q : ActivityQueue) (i : Nat) (h : 2 * i + 1 < q.heap.length) :
    i < q.largerChild higher i ∧ q.largerChild higher i < q.heap.length := by
  unfold largerChild
  dsimp only
  split_ifs with hc
  · simp only [Bool.and_eq_true, decide_eq_true_eq] at hc
    omega
  · omega

lemma siftDownFrom_ok (v : SatVar) (k i : Nat) (q : ActivityQueue) (h : (q.place i v).Ok)
    (hi : i < q.heap.length) (hf : q.front = 0) : (siftDownFrom higher v k i q).Ok ∧
      (∀ w, (siftDownFrom higher v k i q).contains w = (q.place i v).contains w) ∧
      (siftDownFrom higher v k i q).sorted = q.sorted ∧
      (siftDownFrom higher v k i q).size = q.size := by
  induction k generalizing i q with
  | zero => exact ⟨h, fun _ => rfl, rfl, by simp [siftDownFrom, size, place]⟩
  | succ k ih =>
    unfold siftDownFrom
    by_cases h0 : q.heap.length ≤ 2 * i + 1
    · rw [if_pos h0]
      exact ⟨h, fun _ => rfl, rfl, by simp [size, place]⟩
    rw [if_neg h0]
    dsimp only
    have hb := largerChild_bounds higher q i (by omega)
    split
    · have hpp := place_place h hi (p := q.largerChild higher i) (by omega) hb.2 (by omega)
      obtain ⟨a, b, c, d⟩ :=
        ih (q.largerChild higher i) (q.place i (q.heap.getD (q.largerChild higher i) 0)) hpp.1
        (by simpa [place] using hb.2) hf
      exact ⟨a, fun w => (b w).trans (hpp.2 w), c, by rw [d]; simp [size, place]⟩
    · exact ⟨h, fun _ => rfl, rfl, by simp [size, place]⟩

lemma siftUp_ok (h : q.Ok) {i : Nat} (hi : i < q.heap.length) (hf : q.front = 0) :
    (q.siftUp higher i).Ok ∧ (∀ w, (q.siftUp higher i).contains w = q.contains w) ∧
      (q.siftUp higher i).sorted = q.sorted ∧ (q.siftUp higher i).size = q.size := by
  have hp := place_self h hi hf
  have := siftUpFrom_ok higher (q.heap.getD i 0) i i q (by rwa [hp]) hi hf
  rwa [hp] at this

lemma siftDown_ok (h : q.Ok) {i : Nat} (hi : i < q.heap.length) (hf : q.front = 0) :
    (q.siftDown higher i).Ok ∧ (∀ w, (q.siftDown higher i).contains w = q.contains w) ∧
      (q.siftDown higher i).sorted = q.sorted ∧ (q.siftDown higher i).size = q.size := by
  have hp := place_self h hi hf
  have := siftDownFrom_ok higher (q.heap.getD i 0) q.heap.length i q (by rwa [hp]) hi hf
  rwa [hp] at this

lemma push_ok (h : q.Ok) {v : SatVar} (hv : q.contains v = false) :
    (q.push v).Ok ∧ ∀ w, (q.push v).contains w = (w == v || q.contains w) := by
  have hn : q.position v = none := by simpa [contains] using hv
  have hfree : ∀ i, q.front ≤ i → q.heap[i]? ≠ some v := by
    intro i hi he
    simp [(h.inverse v i).mpr ⟨hi, he⟩] at hn
  refine ⟨⟨?_, ?_, h.heap_front⟩, ?_⟩
  · intro w i
    have hw := h.inverse w i
    have hl := h.front_le
    simp only [push, update_apply, getElem?_append]
    by_cases hwv : w = v
    · subst hwv
      simp only [if_true, Option.some.injEq]
      grind
    · simp only [if_neg hwv, hw]
      grind
  · have := h.front_le
    simp [push]
    omega
  · intro w
    by_cases hwv : w = v
    · simp [contains, push, hwv]
    · simp [contains, push, hwv]

lemma reindex_of_not_mem (vs : List SatVar) (base : Nat) (pos : SatVar → Option Nat) (w : SatVar)
    (hw : w ∉ vs) : reindex base vs pos w = pos w := by
  induction vs generalizing base pos with
  | nil => rfl
  | cons v vs ih =>
    rw [reindex, ih _ _ (by simp_all)]
    simp_all

lemma reindex_of_getElem (vs : List SatVar) (base : Nat) (pos : SatVar → Option Nat) (w : SatVar)
    (hn : vs.Nodup) (i : Nat) (hi : vs[i]? = some w) : reindex base vs pos w = some (base + i) := by
  induction vs generalizing base pos i with
  | nil => simp at hi
  | cons v vs ih =>
    rw [nodup_cons] at hn
    cases i with
    | zero =>
      simp only [getElem?_cons_zero, Option.some.injEq] at hi
      subst hi
      rw [reindex, reindex_of_not_mem _ _ _ _ hn.1]
      simp
    | succ i =>
      rw [getElem?_cons_succ] at hi
      rw [reindex, ih _ _ hn.2 _ hi]
      congr 1
      omega

variable (h : q.Ok)
include h

lemma Ok.nodup : (q.heap.drop q.front).Nodup := by
  rw [nodup_iff_getElem?_ne_getElem?]
  intro i j hij hj he
  simp only [length_drop, getElem?_drop] at hj he
  obtain ⟨v, hv⟩ : ∃ v, q.heap[q.front + j]? = some v :=
    ⟨_, getElem?_eq_getElem (by omega)⟩
  have hi := (h.inverse v _).mpr ⟨Nat.le_add_right _ _, he.trans hv⟩
  have hj := (h.inverse v _).mpr ⟨Nat.le_add_right _ _, hv⟩
  rw [hi, Option.some.injEq] at hj
  omega

lemma useHeap_ok : q.useHeap.Ok ∧ (∀ w, q.useHeap.contains w = q.contains w) ∧ q.useHeap.front = 0 ∧
      q.useHeap.size = q.size := by
  unfold useHeap
  split_ifs with hs hf
  · exact ⟨h, fun _ => rfl, h.heap_front (by simpa using hs), rfl⟩
  · exact ⟨⟨h.inverse, h.front_le, fun _ => hf⟩, fun _ => rfl, hf, rfl⟩
  have hpos : ∀ w i, reindex 0 (q.heap.drop q.front) q.position w = some i ↔
      (q.heap.drop q.front)[i]? = some w := by
    intro w i
    by_cases hw : w ∈ q.heap.drop q.front
    · obtain ⟨j, hj⟩ := mem_iff_getElem?.mp hw
      rw [reindex_of_getElem _ _ _ _ h.nodup j hj, Option.some.injEq, Nat.zero_add]
      constructor
      · rintro rfl
        exact hj
      · intro hi
        have hlt : j < (q.heap.drop q.front).length := (List.getElem?_eq_some_iff.mp hj).1
        exact (getElem?_inj hlt h.nodup).mp (hj.trans hi.symm)
    · rw [reindex_of_not_mem _ _ _ _ hw]
      constructor
      · intro hi
        obtain ⟨hle, he⟩ := (h.inverse w i).mp hi
        refine absurd (mem_iff_getElem?.mpr ⟨i - q.front, ?_⟩) hw
        rwa [getElem?_drop, Nat.add_sub_cancel' hle]
      · exact fun hi => absurd (mem_iff_getElem?.mpr ⟨i, hi⟩) hw
  refine ⟨⟨fun w i => by simpa using hpos w i, by simp, fun _ => rfl⟩, ?_, rfl, by simp [size]⟩
  intro w
  rw [Bool.eq_iff_iff, contains_iff h]
  simp only [contains, isSome_iff_exists, hpos, getElem?_drop]
  constructor
  · rintro ⟨i, hi⟩
    exact ⟨q.front + i, Nat.le_add_right _ _, hi⟩
  · rintro ⟨i, hi, he⟩
    exact ⟨i - q.front, by rwa [Nat.add_sub_cancel' hi]⟩

lemma insert_ok (v : SatVar) : (q.insert higher v).Ok ∧
      ∀ w, (q.insert higher v).contains w = (w == v || q.contains w) := by
  unfold insert
  by_cases hc : q.contains v = true
  · rw [if_pos hc]
    refine ⟨h, fun w => ?_⟩
    by_cases hw : w = v <;> simp_all
  rw [if_neg hc]
  have hc' : q.contains v = false := by simpa using hc
  -- Clearing an empty queue drops consumed entries only.
  obtain ⟨p, hp, hpo, hpc⟩ : ∃ p, (if q.empty then { q with heap := [], front := 0, sorted := true }
      else q) = p ∧ p.Ok ∧ ∀ w, p.contains w = q.contains w := by
    refine ⟨_, rfl, ?_, ?_⟩
    · split_ifs with he
      · have hnone : ∀ w, q.position w = none := by
          intro w
          rw [eq_none_iff_forall_ne_some]
          intro i hi
          have := (h.inverse w i).mp hi
          simp only [empty, beq_iff_eq] at he
          have := (List.getElem?_eq_some_iff.mp this.2).1
          omega
        exact ⟨by simp [hnone], by simp, by simp⟩
      · exact h
    · intro w
      split_ifs <;> rfl
  simp only [hp]
  split_ifs with hs
  · have := push_ok hpo ((hpc v).trans hc')
    exact ⟨this.1, fun w => by rw [this.2, hpc]⟩
  · obtain ⟨ho, hm, hf, -⟩ := useHeap_ok hpo
    have hpush := push_ok ho (v := v) ((hm v).trans ((hpc v).trans hc'))
    have hup :=
      siftUp_ok higher hpush.1 (i := (p.useHeap.push v).heap.length - 1) (by simp [push]) hf
    exact ⟨hup.1, fun w => by rw [hup.2.1, hpush.2, hm, hpc]⟩

lemma increased_ok (v : SatVar) :
    (q.increased higher v).Ok ∧ ∀ w, (q.increased higher v).contains w = q.contains w := by
  unfold increased
  split
  · exact ⟨h, fun _ => rfl⟩
  · rename_i i hi
    obtain ⟨ho, hm, hf, -⟩ := useHeap_ok h
    have hc : q.useHeap.contains v = true := by rw [hm]; simp [contains, hi]
    obtain ⟨j, hj⟩ := isSome_iff_exists.mp hc
    have hlt : j < q.useHeap.heap.length :=
      (List.getElem?_eq_some_iff.mp ((ho.inverse v j).mp hj).2).1
    have hup := siftUp_ok higher ho hlt hf
    simp only [hj, getD_some]
    exact ⟨hup.1, fun w => by rw [hup.2.1, hm]⟩

theorem moveLast_ok (hf : q.front = 0) {top last : SatVar}
    (htop : q.heap[0]? = some top) (hlast : q.heap[q.heap.length - 1]? = some last)
    (hlen : 2 ≤ q.heap.length) :
    let p : ActivityQueue := { q with
      heap := q.heap.dropLast, position := Function.update q.position top none }
    (p.place 0 last).Ok ∧ ∀ w, (p.place 0 last).contains w = (w != top && q.contains w) := by
  have hpt : q.position top = some 0 := (h.inverse _ _).mpr ⟨by omega, htop⟩
  have hpl := (h.inverse _ _).mpr ⟨by omega, hlast⟩
  have hne : top ≠ last := by
    rintro rfl
    rw [hpt, Option.some.injEq] at hpl
    omega
  refine ⟨⟨?_, by simp [place, hf], fun _ => hf⟩, ?_⟩
  · intro w i
    have hw := h.inverse w i
    simp only [place, update_apply, getElem?_set, getElem?_dropLast, length_dropLast, hf,
      Nat.zero_le, true_and] at hw ⊢
    by_cases hwl : w = last
    · subst hwl
      rw [hpl, Option.some.injEq] at hw
      grind
    · by_cases hwt : w = top
      · subst hwt
        rw [hpt, Option.some.injEq] at hw
        grind
      · grind
  · intro w
    simp only [contains, place, update_apply]
    by_cases hwl : w = last
    · simp [hwl, Ne.symm hne, hpl]
    · by_cases hwt : w = top <;> simp [hwl, hwt, hne]

lemma removeMax_ok (hne : q.empty = false) : (q.removeMax higher).2.Ok ∧
      q.contains (q.removeMax higher).1 = true ∧
      (∀ w, (q.removeMax higher).2.contains w = (w != (q.removeMax higher).1 && q.contains w)) ∧
      (q.removeMax higher).2.size + 1 = q.size := by
  have hlt : q.front < q.heap.length := by
    have := h.front_le
    simp only [empty, beq_eq_false_iff_ne] at hne
    omega
  unfold removeMax
  split_ifs with hs
  · obtain ⟨top, htop⟩ : ∃ top, q.heap[q.front]? = some top := ⟨_, getElem?_eq_getElem hlt⟩
    have hd : q.heap.getD q.front 0 = top := by simp [List.getD, htop]
    have hpt := (h.inverse top q.front).mpr ⟨Nat.le_refl _, htop⟩
    simp only [hd]
    refine ⟨⟨?_, hlt, by simp [hs]⟩, by simp [contains, hpt], ?_, by simp [size]; omega⟩
    · intro w i
      have hw := h.inverse w i
      simp only [update_apply]
      by_cases hwt : w = top
      · subst hwt
        rw [hpt, Option.some.injEq] at hw
        grind
      · grind
    · intro w
      by_cases hwt : w = top <;> simp [contains, hwt]
  · have hf := h.heap_front (by simpa using hs)
    rw [hf] at hlt
    obtain ⟨top, htop⟩ : ∃ top, q.heap[0]? = some top := ⟨_, getElem?_eq_getElem hlt⟩
    have hd : q.heap.getD 0 0 = top := by simp [List.getD, htop]
    have hpt := (h.inverse top 0).mpr ⟨by omega, htop⟩
    simp only [hd]
    split_ifs with he
    · have h1 : q.heap.length = 1 := by
        have := congrArg List.length (List.isEmpty_iff.mp he)
        simp at this
        omega
      refine ⟨⟨?_, by simp [hf], fun _ => hf⟩, by simp [contains, hpt], ?_, by simp [size]; omega⟩
      · intro w i
        have hw := h.inverse w i
        simp only [update_apply, getElem?_dropLast, h1]
        by_cases hwt : w = top
        · simp [hwt]
        · simp only [hf, Nat.zero_le, true_and] at hw
          grind
      · intro w
        by_cases hwt : w = top <;> simp [contains, hwt]
    · have hlen : 2 ≤ q.heap.length := by
        have : q.heap.dropLast.length ≠ 0 := by
          intro h0
          exact he (by simpa using length_eq_zero_iff.mp h0)
        rw [length_dropLast] at this
        omega
      have hl : q.heap[q.heap.length - 1]? = some (q.heap.getLastD 0) := by
        rw [← getLast?_eq_getElem?, getLastD_eq_getLast?,
          getLast?_eq_some_getLast (ne_nil_of_length_pos (by omega))]
        rfl
      have hm := moveLast_ok h hf htop hl hlen
      have hd := siftDown_ok higher hm.1 (i := 0) (by simp [place]; omega) hf
      refine ⟨hd.1, by simp [contains, hpt], fun w => (hd.2.1 w).trans (hm.2 w), ?_⟩
      rw [hd.2.2.2]
      simp [size, place]
      omega

end ActivityQueue

end NeverD.Sat
