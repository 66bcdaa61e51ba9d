import NeverD.Emulation.MonitorRuns

namespace NeverD.Emulation
open Lib Lib.Intervals List RAMInitializationWatch RAMReservation

variable {index : Nat}

namespace MemorySystem

variable {s : MemorySystem}

structure Fresh (r : RAMReservation) : Prop where
  valid : r.valid = true
  registered : r.registered = true
  alive : r.alive = true

structure Blank (w : RAMInitializationWatch) : Prop where
  flags : ∀ i, w.flags i = false
  alive : w.alive = true
  parts : w.parts = RAMInitializationWatch.partsOf w.bytes.slices 0

inductive Monitored (s : MemorySystem) (op : SystemOperation) : Monitors → Prop
  | idle (h : ∀ p, ¬ s.Wrote p op) : Monitored s op s.monitors
  | wrote {parts marks : List Interval} {m : Monitors} (hparts : ∀ p, Covered parts p ↔
      s.Wrote p op) (hmarks : ∀ p, Covered marks p ↔ s.Records p op)
      (hreservations : m.reservations = s.monitors.reservations.map (notified · parts))
      (hwatches : m.watches = s.monitors.watches.map (marked · marks)) : Monitored s op m
  | reserved {more : List RAMReservation} (h : ∀ p, ¬ s.Wrote p op) (hmore : ∀ r ∈ more, Fresh r)
      (hsize : (∀ v ∈ s.views, FullSlices v) → ∀ r ∈ more, 0 < r.granuleSize) :
      Monitored s op { s.monitors with reservations := s.monitors.reservations ++ more }
  | watched {more : List RAMInitializationWatch} (h : ∀ p, ¬ s.Wrote p op) (hmore : ∀ w ∈ more,
      Blank w) : Monitored s op { s.monitors with watches := s.monitors.watches ++ more }
  | droppedReservation (index : Nat) (h : ∀ p, ¬ s.Wrote p op) : Monitored s op { s.monitors with
      reservations := s.monitors.reservations.modify index fun r => { r with alive := false } }
  | droppedWatch (index : Nat) (h : ∀ p, ¬ s.Wrote p op) : Monitored s op { s.monitors with
      watches := s.monitors.watches.modify index fun w => { w with alive := false } }

lemma records_of_not_wrote {op : SystemOperation} (h : ∀ p, ¬ s.Wrote p op) (p : Nat) :
    ¬ s.Records p op :=
  fun hp => h p hp.1

lemma monitored_client (s : MemorySystem) (index : Nat) (op : Operation) :
    Monitored s (.client index op) (s.client index op).monitors := by
  unfold client
  split
  next hout => exact .idle fun _ hp => absurd hp.1 (Nat.not_lt.mpr hout)
  next hin =>
    have hindex := not_le.mp hin
    -- A commit is the one operation that invalidates what it writes and records nothing.
    refine @Monitored.wrote s _ ((s.machine index).invalidated op)
      ((s.machine index).initializes op) _ ?_ ?_ ?_ ?_
    · intro p
      rw [Machine.covered_invalidated]
      exact (and_iff_right hindex).symm
    · intro p
      rw [Machine.covered_initializes]
      constructor
      · rintro ⟨hne, hp⟩
        refine ⟨⟨hindex, hp⟩, ?_⟩
        intro j heq
        cases heq
        exact hne rfl
      · rintro ⟨hp, hne⟩
        refine ⟨?_, hp.2⟩
        intro heq
        exact hne index (by rw [heq])
    · rw [(record_watches _ _).2, (invalidate_reservations _ _).1]
    · rw [(record_watches _ _).1, (invalidate_reservations _ _).2]

lemma monitored_transaction (s : MemorySystem) (index : Nat) (step : TransactionStep) :
    Monitored s (.transaction index step) (s.stepTransaction index step).monitors := by
  unfold stepTransaction
  split
  next hnone =>
    apply Monitored.idle
    intro p hp
    cases step with
    | commit =>
      obtain ⟨t, ht, -⟩ := hp
      rw [hnone] at ht
      cases ht
    | _ => exact hp
  rename_i t ht
  dsimp only
  generalize hnext : ({ s with
    ram := { s.ram with bytes := fun p =>
      (TransactionSession.step ⟨s.memory, t⟩ step).2.memory (projectionReserve + p) }
    transactions :=
      s.transactions.set index (TransactionSession.step ⟨s.memory, t⟩ step).2.transaction } :
      MemorySystem) = next
  have hmonitors : next.monitors = s.monitors := by rw [← hnext]
  clear hnext
  cases step with
  | commit =>
    dsimp only
    split
    next hstaged =>
      obtain ⟨hres, hwatches⟩ := foldl_commitSlice t.slices next
      rw [hmonitors] at hres hwatches
      -- A RAM transaction publishes slice after slice, and its bytes are those of all of them.
      have hparts : ∀ p, Covered (t.slices.map RAMSlice.extent) p ↔
          s.Wrote p (.transaction index .commit) := by
        intro p
        constructor
        · exact fun hp => ⟨t, ht, hstaged, hp⟩
        · rintro ⟨t', ht', -, hp⟩
          rw [ht] at ht'
          cases ht'
          exact hp
      refine .wrote hparts ?_ hres hwatches
      intro p
      rw [hparts]
      exact (and_iff_left fun j heq => by cases heq).symm
    next hstaged =>
      rw [hmonitors]
      apply Monitored.idle
      rintro p ⟨t', ht', hstaged', -⟩
      rw [ht] at ht'
      cases ht'
      exact hstaged hstaged'
  | _ =>
    rw [hmonitors]
    exact .idle fun p hp => hp

lemma monitored_reserveRAM (s : MemorySystem) (address size granule : Nat) :
    Monitored s (.reserveRAM address size granule)
      (s.reserveRAM address size granule).monitors := by
  unfold reserveRAM
  split
  · exact .idle fun _ hp => hp
  rename_i hallowed
  split
  next bytes page _ _ =>
    apply Monitored.reserved
    · exact fun _ hp => hp
    · intro r hr
      rw [mem_singleton.mp hr]
      exact ⟨rfl, rfl, rfl⟩
    · intro _ r hr
      rw [not_or, not_or, not_not, not_not, not_not] at hallowed
      have hgranule := (of_decide_eq_true hallowed.2.2).1
      rw [mem_singleton.mp hr]
      exact Nat.pos_of_ne_zero hgranule
  · exact .idle fun _ hp => hp

lemma full_getD {views : List MemoryView} (h : ∀ v ∈ views, FullSlices v) (index : Nat) :
    FullSlices (views.getD index {}) := by
  rw [getD_eq_getElem?_getD]
  cases hv : views[index]? with
  | none => exact forall_mem_nil _
  | some v => exact h v (mem_of_getElem? hv)

lemma monitored_watchWrites (s : MemorySystem) (view : Nat) :
    Monitored s (.watchWrites view) (s.watchWrites (s.views.getD view {})).monitors := by
  unfold watchWrites
  split
  · exact .idle fun _ hp => hp
  · apply Monitored.reserved
    · exact fun _ hp => hp
    · intro r hr
      obtain ⟨slice, -, rfl⟩ := mem_map.mp hr
      exact ⟨rfl, rfl, rfl⟩
    · intro hfull r hr
      obtain ⟨slice, hs, rfl⟩ := mem_map.mp hr
      exact full_getD hfull view slice hs

lemma monitored_watchInitialization (s : MemorySystem) (view : Nat) :
    Monitored s (.watchInitialization view)
      (s.watchInitialization (s.views.getD view {})).monitors := by
  unfold watchInitialization
  split
  · exact .idle fun _ hp => hp
  · apply Monitored.watched
    · exact fun _ hp => hp
    · intro w hw
      rw [mem_singleton.mp hw]
      exact ⟨fun _ => rfl, rfl, rfl⟩

lemma step_monitored (s : MemorySystem) (op : SystemOperation) :
    Monitored s op (s.step op).monitors := by
  cases op with
  | client index op => exact s.monitored_client index op
  | transaction index step => exact s.monitored_transaction index step
  | reserveRAM address size granule => exact s.monitored_reserveRAM address size granule
  | watchWrites view => exact s.monitored_watchWrites view
  | watchInitialization view => exact s.monitored_watchInitialization view
  | dropReservation index => exact .droppedReservation index fun _ hp => hp
  | dropWatch index => exact .droppedWatch index fun _ hp => hp
  | destroyRegion region => exact .idle fun _ hp => hp
  | writeWatched physical size => exact .idle fun _ hp => hp
  | _ =>
    unfold step
    dsimp only
    split
    · exact .idle fun _ hp => hp
    · exact .idle fun _ hp => hp

lemma step_reservation {r : RAMReservation} (h : s.monitors.reservations[index]? = some r)
    (hr : 0 < r.granuleSize) (op : SystemOperation) :
      ∃ r', (s.step op).monitors.reservations[index]? = some r' ∧
      Follows (∃ p, s.Wrote p op ∧ r.granule ≤ p ∧ p < r.granule + r.granuleSize) r r' := by
  have hstep := s.step_monitored op
  generalize (s.step op).monitors = m at hstep
  have hidle : (∀ p, ¬ s.Wrote p op) →
      Follows (∃ p, s.Wrote p op ∧ r.granule ≤ p ∧ p < r.granule + r.granuleSize) r r := by
    intro hno
    apply (Follows.refl r).congr
    rw [false_iff]
    rintro ⟨p, hp, -⟩
    exact hno p hp
  cases hstep with
  | idle hno => exact ⟨r, h, hidle hno⟩
  | wrote hparts hmarks hreservations hwatches =>
    rw [hreservations, getElem?_map, h]
    refine ⟨_, rfl, (follows_notified hr _).congr ?_⟩
    simp only [hparts]
  | reserved hno hmore hsize =>
    refine ⟨r, ?_, hidle hno⟩
    rw [getElem?_append_left (List.getElem?_eq_some_iff.mp h).1, h]
  | watched hno hmore => exact ⟨r, h, hidle hno⟩
  | droppedReservation j hno =>
    by_cases hj : j = index
    · refine ⟨{ r with alive := false }, ?_, ?_⟩
      · rw [hj, getElem?_modify_eq, h]
        rfl
      · exact ⟨rfl, (fun hal => by cases hal), (fun hal => by cases hal), fun hal => by cases hal⟩
    · refine ⟨r, ?_, hidle hno⟩
      rw [getElem?_modify_ne _ _ hj, h]
  | droppedWatch j hno => exact ⟨r, h, hidle hno⟩

lemma step_watch {w : RAMInitializationWatch} (h : s.monitors.watches[index]? = some w)
    (op : SystemOperation) : ∃ w', (s.step op).monitors.watches[index]? = some w' ∧
      Follows (fun p => s.Records p op) w w' := by
  have hstep := s.step_monitored op
  generalize (s.step op).monitors = m at hstep
  have hidle : (∀ p, ¬ s.Wrote p op) → Follows (fun p => s.Records p op) w w := by
    intro hno
    apply (Follows.refl w).congr
    intro p
    rw [false_iff]
    exact records_of_not_wrote hno p
  cases hstep with
  | idle hno => exact ⟨w, h, hidle hno⟩
  | wrote hparts hmarks hreservations hwatches =>
    rw [hwatches, getElem?_map, h]
    exact ⟨_, rfl, (follows_marked w _).congr hmarks⟩
  | reserved hno hmore hsize => exact ⟨w, h, hidle hno⟩
  | watched hno hmore =>
    refine ⟨w, ?_, hidle hno⟩
    rw [getElem?_append_left (List.getElem?_eq_some_iff.mp h).1, h]
  | droppedReservation j hno => exact ⟨w, h, hidle hno⟩
  | droppedWatch j hno =>
    by_cases hj : j = index
    · refine ⟨{ w with alive := false }, ?_, ?_⟩
      · rw [hj, getElem?_modify_eq, h]
        rfl
      · exact ⟨rfl, rfl, (fun hal => by cases hal), fun hal => by cases hal⟩
    · refine ⟨w, ?_, hidle hno⟩
      rw [getElem?_modify_ne _ _ hj, h]

def Untouched : MemorySystem → List SystemOperation → Interval → Prop
  | _, [], _ => True
  | s, op :: rest, r => (∀ p, r.1 ≤ p → p < r.1 + r.2 → ¬ s.Wrote p op) ∧
      Untouched (s.step op) rest r

def Touched : MemorySystem → List SystemOperation → Nat → Prop
  | _, [], _ => False
  | s, op :: rest, p => s.Wrote p op ∨ Touched (s.step op) rest p

/-- The commits of mapping transactions write no byte of a watch whose flag is not set. -/
def SkipsWatch (index : Nat) : MemorySystem → List SystemOperation → Prop
  | _, [] => True
  | s, op :: rest =>
    (∀ j, op = .client j .commit → ∀ w, s.monitors.watches[index]? = some w →
      ∀ i t, w.bytes.targets[i]? = some t →
      s.Wrote (projectionReserve + t) op → w.flags i = true) ∧ SkipsWatch index (s.step op) rest

lemma run_reservation {r : RAMReservation} (h : s.monitors.reservations[index]? = some r)
    (hr : 0 < r.granuleSize) (hregistered : r.alive = true → r.valid = true → r.registered = true)
    (ops : List SystemOperation) : ∃ r', (s.run ops).monitors.reservations[index]? = some r' ∧
      r'.extent = r.extent ∧
      (r'.alive = true → r.alive = true ∧
        (r'.valid = true ↔ r.valid = true ∧ s.Untouched ops r.extent)) := by
  induction ops generalizing s r with
  | nil => exact ⟨r, h, rfl, fun hal => ⟨hal, (and_iff_left trivial).symm⟩⟩
  | cons op rest ih =>
    obtain ⟨r₁, h₁, hfollows⟩ := step_reservation h hr op
    have hextent := hfollows.extent
    have hparts := hextent
    unfold extent at hparts
    rw [Prod.mk.injEq] at hparts
    obtain ⟨r', h', hextent', hvalid⟩ := ih h₁ (by rw [hparts.2]; exact hr) fun hal =>
      hfollows.registered hal (hregistered (hfollows.alive hal))
    refine ⟨r', h', hextent'.trans hextent, ?_⟩
    intro hal'
    obtain ⟨hal, hiff⟩ := hvalid hal'
    refine ⟨hfollows.alive hal, ?_⟩
    have hcons : s.Untouched (op :: rest) r.extent ↔
        (∀ p, r.granule ≤ p → p < r.granule + r.granuleSize → ¬ s.Wrote p op) ∧
          (s.step op).Untouched rest r.extent := .rfl
    rw [hiff, hfollows.valid hal (hregistered (hfollows.alive hal)), hextent, hcons, and_assoc]
    apply and_congr_right
    intro _
    apply and_congr_left
    intro _
    constructor
    · exact fun hno p hlow hhigh hp => hno ⟨p, hp, hlow, hhigh⟩
    · rintro hno ⟨p, hp, hlow, hhigh⟩
      exact hno p hlow hhigh hp

lemma run_watch {w : RAMInitializationWatch} (h : s.monitors.watches[index]? = some w)
    (hparts : w.parts = partsOf w.bytes.slices 0) {ops : List SystemOperation}
    (hskips : SkipsWatch index s ops) : ∃ w', (s.run ops).monitors.watches[index]? = some w' ∧
      w'.bytes = w.bytes ∧
      (w'.alive = true → w.alive = true ∧ ∀ i, w'.flags i = true ↔ w.flags i = true ∨
        ∃ t, w.bytes.targets[i]? = some t ∧ s.Touched ops (projectionReserve + t)) := by
  induction ops generalizing s w with
  | nil =>
    refine ⟨w, h, rfl, fun hal => ⟨hal, fun i => ?_⟩⟩
    unfold Touched
    simp
  | cons op rest ih =>
    obtain ⟨w₁, h₁, hfollows⟩ := step_watch h op
    have hparts₁ : w₁.parts = partsOf w₁.bytes.slices 0 := by
      rw [hfollows.parts, hfollows.bytes, hparts]
    obtain ⟨w', h', hbytes', hflags⟩ := ih h₁ hparts₁ hskips.2
    refine ⟨w', h', hbytes'.trans hfollows.bytes, ?_⟩
    intro hal'
    obtain ⟨hal, hiff⟩ := hflags hal'
    refine ⟨hfollows.alive hal, ?_⟩
    intro i
    have hcons : ∀ p, s.Touched (op :: rest) p ↔ s.Wrote p op ∨ (s.step op).Touched rest p :=
      fun _ => .rfl
    have hstep := hfollows.flags hal i
    have hbyte := partsOf_iff (P := fun p => s.Records p op) w.bytes.slices 0 i
    rw [Nat.sub_zero, and_iff_right (Nat.zero_le i)] at hbyte
    rw [hparts] at hstep
    replace hstep := hstep.trans (or_congr_right hbyte)
    rw [hiff, hstep, hfollows.bytes]
    constructor
    · rintro ((hflag | ⟨t, ht, hrecords⟩) | ⟨t, ht, htouched⟩)
      · exact .inl hflag
      · exact .inr ⟨t, ht, (hcons _).mpr (.inl hrecords.1)⟩
      · exact .inr ⟨t, ht, (hcons _).mpr (.inr htouched)⟩
    · rintro (hflag | ⟨t, ht, htouched⟩)
      · exact .inl (.inl hflag)
      rcases (hcons _).mp htouched with hwrote | htouched
      · -- A write that is not recorded is a commit, and the flag of its byte is set already.
        by_cases hcommit : ∃ j, op = .client j .commit
        · obtain ⟨j, hj⟩ := hcommit
          exact .inl (.inl (hskips.1 j hj w h i t ht hwrote))
        · exact .inl (.inr ⟨t, ht, hwrote, fun j hj => hcommit ⟨j, hj⟩⟩)
      · exact .inr ⟨t, ht, htouched⟩

end MemorySystem

end NeverD.Emulation
