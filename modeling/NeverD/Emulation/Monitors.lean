import Mathlib.Data.Finset.Sort
import NeverD.Emulation.RAMEffects

namespace NeverD.Emulation
open Lib Lib.Intervals

/-- An interval with its write witness: `registered` while the owner of the memory keeps a
reference, `alive` while somebody else does. -/
structure RAMReservation where
  bytes : MemoryView
  granule : Nat
  granuleSize : Nat
  valid : Bool := true
  registered : Bool := true
  alive : Bool := true

namespace RAMReservation

def overlaps (r : RAMReservation) (physical size : Nat) : Bool :=
  if physical ≤ r.granule then r.granule - physical < size else physical - r.granule < r.granuleSize

def written (physical size : Nat) (r : RAMReservation) : RAMReservation :=
  if ¬ r.registered then r
  else if ¬ r.alive then { r with registered := false }
  else
    let valid := r.valid && !r.overlaps physical size
    { r with valid := valid, registered := valid }

end RAMReservation

structure InitializationPart where
  physical : Nat
  size : Nat
  offset : Nat

structure RAMInitializationWatch where
  bytes : MemoryView
  flags : Nat → Bool := fun _ => false
  parts : List InitializationPart
  alive : Bool := true

namespace RAMInitializationWatch

def partsOf : List MemorySlice → Nat → List InitializationPart
  | [], _ => []
  | slice :: rest, offset =>
    ⟨projectionReserve + slice.region.offset + slice.offset, slice.size, offset⟩ ::
      partsOf rest (offset + slice.size)

def initialized (w : RAMInitializationWatch) (offset : Nat) : Bool :=
  offset < w.bytes.size && w.flags offset

def setFlags (flags : Nat → Bool) (start count : Nat) : Nat → Bool :=
  fun i => (start ≤ i ∧ i < start + count) || flags i

def commitPart (physical size : Nat) (flags : Nat → Bool) (p : InitializationPart) : Nat → Bool :=
  let start := max physical p.physical
  if size ≤ start - physical ∨ p.size ≤ start - p.physical then flags
  else setFlags flags (p.offset + start - p.physical)
    (min (size - (start - physical)) (p.size - (start - p.physical)))

def committed (physical size : Nat) (w : RAMInitializationWatch) : RAMInitializationWatch :=
  if w.alive then { w with flags := w.parts.foldl (commitPart physical size) w.flags } else w

end RAMInitializationWatch

structure Monitors where
  reservations : List RAMReservation := []
  watches : List RAMInitializationWatch := []

namespace Monitors

def invalidateReservations (m : Monitors) (part : Interval) : Monitors :=
  if part.2 = 0 then m
    else { m with reservations := m.reservations.map (RAMReservation.written part.1 part.2) }

def recordInitialization (m : Monitors) (part : Interval) : Monitors :=
  if part.2 = 0 then m
    else { m with watches := m.watches.map (RAMInitializationWatch.committed part.1 part.2) }

end Monitors

/-- The watches of a projection, with the physical ranges behind them for one space and
generation. -/
structure WriteWatches where
  watches : List Interval := []
  physical : List Interval := []
  space : Option Nat := none
  generation : Nat := 0

namespace WriteWatches

def watchParts (pages : Table Page) (w : Interval) : List Interval :=
  let last := w.1 + w.2 - 1
  ((pages.keys.filter fun a => w.1 - w.1 % pageSize ≤ a ∧ a ≤ last).sort (· ≤ ·)).flatMap fun a =>
    match pages.find a with
    | none => []
    | some page =>
      if page.io.isSome then []
      else
        let start := max w.1 a
        let stop := min last (a - a % pageSize + (pageSize - 1))
        [(page.physical + start - a, stop - start + 1)]

def physicalWatches (pages : Table Page) (watches : List Interval) : List Interval :=
  merge (sort (watches.flatMap (watchParts pages)))

def refresh (w : WriteWatches) (bound : Nat) (space : AddressSpace) : WriteWatches :=
  if w.space = some bound ∧ w.generation = space.generation then w
  else { w with
    physical := physicalWatches space.pages w.watches
    space := some bound
    generation := space.generation }

/-- Tests physical bytes, so that writes through another alias still match. -/
def writeWatched (w : WriteWatches) (bound : Nat) (space : AddressSpace) (physical size : Nat) :
    Bool × WriteWatches :=
  if size = 0 ∨ w.watches.isEmpty then (false, w)
  else (hits (w.refresh bound space).physical physical size, w.refresh bound space)

def setWriteWatches (w : WriteWatches) (watches : List Interval) : WriteWatches :=
  if w.watches = watches then w else { w with watches := watches, space := none }

end WriteWatches

/-- The parts that a write through an address space notifies, page by page. -/
def writeParts (pages : Table Page) : Nat → Nat → Nat → List Interval
  | _, _, 0 => []
  | 0, _, _ + 1 => []
  | fuel + 1, address, n + 1 =>
    let offset := address % pageSize
    match pages.find (address - offset) with
    | none => []
    | some page =>
      let count := min (n + 1) (pageSize - offset)
      (page.physical + offset, count) :: writeParts pages fuel (address + count) (n + 1 - count)

/-- The parts that a write through a view notifies, slice by slice. -/
def sliceParts : List MemorySlice → Nat → Nat → List Interval
  | [], _, _ => []
  | slice :: rest, offset, n =>
    if n = 0 then []
    else if slice.size ≤ offset then sliceParts rest (offset - slice.size) n
    else
      let count := min n (slice.size - offset)
      (projectionReserve + slice.region.offset + slice.offset + offset, count) ::
        sliceParts rest 0 (n - count)

namespace Machine

def publication (m : Machine) : List Patch :=
  match m.pending with
  | none => []
  | some t => if t.committed ∨ t.metadataOnly then [] else t.patches

def invalidated (m : Machine) (op : Operation) : List Interval :=
  match (m.perform op).1 with
  | .error _ => []
  | .ok _ => match op with
    | .write address data => writeParts m.space.pages data.length address data.length
    | .writeBacking address data => writeParts m.space.pages data.length address data.length
    | .writeView index offset data => sliceParts (m.views.getD index {}).slices offset data.length
    | .commit => m.publication.map fun q => (q.physical, q.bytes.length)
    | _ => []

/-- The parts that an operation records as initialized. The commit of a mapping transaction records
none. -/
def initializes (m : Machine) (op : Operation) : List Interval :=
  match (m.perform op).1 with
  | .error _ => []
  | .ok _ => match op with
    | .write address data => writeParts m.space.pages data.length address data.length
    | .writeBacking address data => writeParts m.space.pages data.length address data.length
    | .writeView index offset data => sliceParts (m.views.getD index {}).slices offset data.length
    | _ => []

end Machine

/-- Address spaces over one memory, a projection bound to one of them, and what is pending. -/
structure MemorySystem where
  ram : PhysicalMemory
  spaces : List AddressSpace := []
  pending : Option (Nat × MappingTransaction) := none
  views : List MemoryView := []
  handles : List MemoryRegion := []
  bound : Nat := 0
  writeWatches : WriteWatches := {}
  watchedWrite : Bool := false
  monitors : Monitors := {}
  transactions : List RAMTransaction := []
  inRun : Bool := false
  declared : Bool := false

inductive SystemOperation
  | createSpace (limit : Nat)
  | bind (index : Nat)
  | client (index : Nat) (op : Operation)
  | destroyRegion (region : MemoryRegion)
  | setWriteWatches (watches : List Interval)
  | writeWatched (physical size : Nat)
  | reserveRAM (address size granule : Nat)
  | watchWrites (view : Nat)
  | watchInitialization (view : Nat)
  | dropReservation (index : Nat)
  | dropWatch (index : Nat)
  | beginRun
  | endRun
  | beginTransaction (writes : List RAMWriteRange) (byteBudget : Nat) (permissions : Permissions)
  | transaction (index : Nat) (step : TransactionStep)
  | endTransaction (index : Nat)

namespace MemorySystem

def space (s : MemorySystem) (index : Nat) : AddressSpace := s.spaces.getD index { limit := 0 }

def machine (s : MemorySystem) (index : Nat) : Machine where
  ram := s.ram
  space := s.space index
  pending := s.pending.bind fun e => if e.1 = index then some e.2 else none
  views := s.views
  handles := s.handles

def stillPending (s : MemorySystem) (index : Nat) : Option MappingTransaction →
    Option (Nat × MappingTransaction)
  | some t => some (index, t)
  | none => s.pending.bind fun e => if e.1 = index then none else some e

def client (s : MemorySystem) (index : Nat) (op : Operation) : MemorySystem :=
  if s.spaces.length ≤ index then s
  else
    let m := s.machine index
    let next := (m.perform op).2
    let monitors := (m.invalidated op).foldl Monitors.invalidateReservations s.monitors
    { s with
      ram := next.ram
      spaces := s.spaces.set index next.space
      pending := s.stillPending index next.pending
      views := next.views
      handles := next.handles
      monitors := (m.initializes op).foldl Monitors.recordInitialization monitors }

def memory (s : MemorySystem) : Nat → UInt8 :=
  fun physical => s.ram.bytes (physical - projectionReserve)

def recordRAMWrite (s : MemorySystem) (part : Interval) : MemorySystem :=
  let watched := s.writeWatches.writeWatched s.bound (s.space s.bound) part.1 part.2
  { s with
    monitors := s.monitors.invalidateReservations part
    watchedWrite := s.watchedWrite || watched.1
    writeWatches := watched.2 }

def recordRAMInitialization (s : MemorySystem) (part : Interval) : MemorySystem :=
  { s with monitors := s.monitors.recordInitialization part }

def commitSlice (s : MemorySystem) (slice : RAMSlice) : MemorySystem :=
  (s.recordRAMWrite slice.extent).recordRAMInitialization slice.extent

def stepTransaction (s : MemorySystem) (index : Nat) (step : TransactionStep) : MemorySystem :=
  match s.transactions[index]? with
  | none => s
  | some t =>
    let session := (TransactionSession.step ⟨s.memory, t⟩ step).2
    let next := { s with
      ram := { s.ram with bytes := fun p => session.memory (projectionReserve + p) }
      transactions := s.transactions.set index session.transaction }
    match step with
    | .commit => if t.phase = .staged then t.slices.foldl commitSlice next else next
    | _ => next

/-- A power of two that holds the operand, which does not leave it. -/
def validGranule (address size granule : Nat) : Bool :=
  granule ≠ 0 ∧ granule &&& (granule - 1) = 0 ∧ granule ≤ pageSize ∧ size ≠ 0 ∧ size ≤ granule ∧
    address % granule ≤ granule - size

def reserveRAM (s : MemorySystem) (address size granule : Nat) : MemorySystem :=
  if ¬ s.ram.running ∨ ¬ s.declared ∨ ¬ validGranule address size granule then s
  else match (s.space s.bound).pinBacking s.ram address size,
    (s.space s.bound).pages.find (pageOf address) with
    | .ok bytes, some page =>
      let physical := page.physical + address % pageSize
      { s with monitors := { s.monitors with
          reservations := s.monitors.reservations ++
            [⟨bytes, physical - physical % granule, granule, true, true, true⟩] } }
    | _, _ => s

def watchWrites (s : MemorySystem) (view : MemoryView) : MemorySystem :=
  if ¬ view.memory.isSome ∨ view.size = 0 ∨ s.ram.running then s
  else { s with monitors := { s.monitors with
    reservations := s.monitors.reservations ++ view.slices.map fun slice =>
      ⟨{ view with size := slice.size, slices := [slice] },
        projectionReserve + slice.region.offset + slice.offset, slice.size, true, true, true⟩ } }

def watchInitialization (s : MemorySystem) (view : MemoryView) : MemorySystem :=
  if ¬ view.memory.isSome ∨ view.size = 0 ∨ s.ram.running then s
  else { s with monitors := { s.monitors with
    watches := s.monitors.watches ++
      [⟨view, fun _ => false, RAMInitializationWatch.partsOf view.slices 0, true⟩] } }

def step (s : MemorySystem) : SystemOperation → MemorySystem
  | .createSpace limit => match AddressSpace.create limit with
    | .error _ => s
    | .ok space => { s with spaces := s.spaces ++ [space] }
  | .bind index => if s.ram.running ∨ s.spaces.length ≤ index then s else { s with bound := index }
  | .client index op => s.client index op
  | .destroyRegion region => { s with ram := s.ram.release region }
  | .setWriteWatches watches =>
    if s.ram.running ∨ watches.any fun w => w.2 = 0 ∨ uint64Max - w.1 < w.2 - 1 then s
    else { s with writeWatches := s.writeWatches.setWriteWatches watches }
  | .writeWatched physical size =>
    { s with
      writeWatches := (s.writeWatches.writeWatched s.bound (s.space s.bound) physical size).2 }
  | .reserveRAM address size granule => s.reserveRAM address size granule
  | .watchWrites view => s.watchWrites (s.views.getD view {})
  | .watchInitialization view => s.watchInitialization (s.views.getD view {})
  | .dropReservation index => { s with monitors := { s.monitors with
      reservations := s.monitors.reservations.modify index fun r => { r with alive := false } } }
  | .dropWatch index => { s with monitors := { s.monitors with
      watches := s.monitors.watches.modify index fun w => { w with alive := false } } }
  | .beginRun =>
    if s.ram.running then s
    else { s with
        ram := { s.ram with running := true }, inRun := true, declared := true, watchedWrite :=
          false }
  | .endRun => if s.inRun then { s with ram := { s.ram with running := false }, inRun := false }
      else s
  | .beginTransaction writes byteBudget permissions =>
    match RAMTransaction.create (s.space s.bound).pages s.ram.running s.memory writes byteBudget
      permissions with
    | .error _ => s
    | .ok t => { s with transactions := s.transactions ++ [t] }
  | .transaction index step => s.stepTransaction index step
  | .endTransaction index => match s.transactions[index]? with
    | none => s
    | some t => { s with
      ram := { s.ram with
          bytes := fun p => TransactionSession.destroy ⟨s.memory, t⟩ (projectionReserve + p) }
      transactions := s.transactions.eraseIdx index }

def run (s : MemorySystem) (ops : List SystemOperation) : MemorySystem := ops.foldl step s

def start (ram : PhysicalMemory) : MemorySystem := { ram := ram }

end MemorySystem

end NeverD.Emulation
