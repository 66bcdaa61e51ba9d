import NeverD.Emulation.Space

namespace NeverD.Emulation
open Lib

structure InitializedMapping where
  address : Nat
  permissions : Permissions
  bytes : List UInt8

structure BackingPatch where
  address : Nat
  bytes : List UInt8

structure Patch where
  physical : Nat
  bytes : List UInt8

structure MappingTransaction where
  pages : Table Page := Table.empty
  patches : List Patch := []
  used : Nat := 0
  committed : Bool := false
  metadataOnly : Bool := false

namespace MappingTransaction

def reservePages : Table Page → List Nat → Option (Table Page)
  | next, [] => some next
  | next, a :: rest => if (next.find a).isSome then none else reservePages (next.insert a {}) rest

def reserve (limit : Nat) : List InitializedMapping → Table Page → Nat →
    Except Diagnostic (Table Page × Nat)
  | [], next, used => .ok (next, used)
  | m :: rest, next, used =>
    if ¬ valid m.address m.bytes.length m.permissions then .error .invalidMapping
    else if limit - used < m.bytes.length then .error .memoryLimit
    else match reservePages next (pageAddresses m.address m.bytes.length) with
      | none => .error .invalidMapping
      | some next => reserve limit rest next (used + m.bytes.length)

def regionPages (m : InitializedMapping) (region : MemoryRegion) : List (Nat × Page) :=
  (pageAddresses m.address m.bytes.length).map fun a =>
    (a, ⟨projectionReserve + region.offset + (a - m.address), m.permissions, some region, none⟩)

/-- Allocate and initialize the memory of every mapping; a failure leaves none of it referred to. -/
def populate : List InitializedMapping → Table Page → PhysicalMemory →
    Except Diagnostic (Table Page) × PhysicalMemory
  | [], next, ram => (.ok next, ram)
  | m :: rest, next, ram =>
    match ram.allocate m.bytes.length with
    | .error e => (.error e, ram)
    | .ok (region, ram) =>
      populate rest (next.insertAll (regionPages m region))
        { ram with bytes := memcpy ram.bytes region.offset m.bytes }

def splitPatch (pages : Table Page) : Nat → Nat → List UInt8 → Except Diagnostic (List Patch)
  | _, _, [] => .ok []
  | 0, _, _ :: _ => .error .memoryAccess
  | fuel + 1, address, b :: rest =>
    let offset := address % pageSize
    match pages.find (address - offset) with
    | none => .error .memoryAccess
    | some page =>
      if page.io.isSome then .error .memoryAccess
      else
        let count := min (rest.length + 1) (pageSize - offset)
        (splitPatch pages fuel (address + count) ((b :: rest).drop count)).map
          (⟨page.physical + offset, (b :: rest).take count⟩ :: ·)

def splitPatches (pages : Table Page) (ramLimit : Nat) : List BackingPatch → Nat →
    Except Diagnostic (List Patch)
  | [], _ => .ok []
  | p :: rest, patchBytes =>
    if p.bytes.isEmpty ∨ uint64Max - p.address < p.bytes.length - 1 ∨
      ramLimit - patchBytes < p.bytes.length then
      .error .invalidMapping
    else match splitPatch pages p.bytes.length p.address p.bytes with
      | .error e => .error e
      | .ok parts => (splitPatches pages ramLimit rest (patchBytes + p.bytes.length)).map
          (parts ++ ·)

def sortPatches (patches : List Patch) : List Patch :=
  patches.insertionSort fun a b => a.physical ≤ b.physical

def overlapping : List Patch → Bool
  | a :: b :: rest => b.physical - a.physical < a.bytes.length || overlapping (b :: rest)
  | _ => false

def prepare (space : AddressSpace) (ram : PhysicalMemory) (mappings : List InitializedMapping)
    (patches : List BackingPatch) : Except Diagnostic MappingTransaction × PhysicalMemory :=
  if ram.running then (.error .running, ram)
  else if mappings.isEmpty ∧ patches.isEmpty then (.error .invalidMapping, ram)
  else match reserve space.limit mappings space.pages space.used with
    | .error e => (.error e, ram)
    | .ok (next, used) => match populate mappings next ram with
      | (.error e, ram) => (.error e, ram)
      | (.ok next, ram) => match splitPatches next ram.limit patches 0 with
        | .error e => (.error e, ram)
        | .ok parts =>
          if overlapping (sortPatches parts) then (.error .invalidMapping, ram)
          else (.ok { pages := next, patches := sortPatches parts, used := used },
            { ram with running := true })

def applyPatches (patches : List Patch) (bytes : Nat → UInt8) : Nat → UInt8 :=
  patches.foldl (fun bytes p => memcpy bytes (p.physical - projectionReserve) p.bytes) bytes

end MappingTransaction

structure Machine where
  ram : PhysicalMemory
  space : AddressSpace
  pending : Option MappingTransaction := none
  views : List MemoryView := []
  handles : List MemoryRegion := []

namespace Machine

def pageRegions (pages : Table Page) (region : MemoryRegion) : Prop :=
  ∃ a ∈ pages.keys, (pages.find a).bind Page.region = some region

instance (pages : Table Page) (region : MemoryRegion) : Decidable (pageRegions pages region) :=
  inferInstanceAs (Decidable (∃ a ∈ pages.keys, (pages.find a).bind Page.region = some region))

def holds (m : Machine) (region : MemoryRegion) : Prop :=
  region ∈ m.handles ∨ ∃ v ∈ m.views, ∃ s ∈ v.slices, s.region = region

instance (m : Machine) (region : MemoryRegion) : Decidable (m.holds region) :=
  inferInstanceAs (Decidable (region ∈ m.handles ∨ ∃ v ∈ m.views, ∃ s ∈ v.slices,
    s.region = region))

def refers (m : Machine) (region : MemoryRegion) : Prop :=
  pageRegions m.space.pages region ∨ (∃ t ∈ m.pending, pageRegions t.pages region) ∨ m.holds region

instance (m : Machine) (region : MemoryRegion) : Decidable (m.refers region) :=
  inferInstanceAs (Decidable (pageRegions m.space.pages region ∨
    (∃ t ∈ m.pending, pageRegions t.pages region) ∨ m.holds region))

def settle (m : Machine) : Machine :=
  { m with
    ram := m.ram.regions.foldl
      (fun ram region => if m.refers region then ram else ram.release region) m.ram }

end Machine

inductive Operation
  | map (address size : Nat) (permissions : Permissions)
  | mapRegion (address : Nat) (region : Option MemoryRegion) (offset size : Nat)
      (permissions : Permissions)
  | unmap (address size : Nat)
  | replaceAliases (remove : List AddressSpace.GuestAliasRange)
      (add : List AddressSpace.GuestAliasMapping)
  | protect (address size : Nat) (permissions : Permissions)
  | mapMmio (address size : Nat) (callbacks : AddressSpace.GuestMMIOCallbacks)
  | unmapMmio (address size : Nat)
  | prepareMappings (mappings : List InitializedMapping) (patches : List BackingPatch)
  | prepareMetadataPublication
  | commit
  | drop
  | read (address n : Nat)
  | write (address : Nat) (data : List UInt8)
  | readBacking (address n : Nat)
  | writeBacking (address : Nat) (data : List UInt8)
  | allocate (size : Nat)
  | releaseRegion (index : Nat)
  | allocateBacking (size : Nat)
  | pinBacking (address size : Nat)
  | subview (index offset length : Nat)
  | releaseView (index : Nat)
  | readView (index offset n : Nat)
  | writeView (index offset : Nat) (data : List UInt8)

namespace Machine

abbrev Answer := Except Diagnostic (List UInt8)

def edit (m : Machine) : Except Diagnostic AddressSpace → Answer × Machine
  | .error e => (.error e, m)
  | .ok space => (.ok [], { m with space := space })

def store (m : Machine) : Except Diagnostic PhysicalMemory → Answer × Machine
  | .error e => (.error e, m)
  | .ok ram => (.ok [], { m with ram := ram })

def keepView (m : Machine) : Except Diagnostic MemoryView → Answer × Machine
  | .error e => (.error e, m)
  | .ok view => (.ok [], { m with views := m.views ++ [view] })

def commit (m : Machine) : Answer × Machine :=
  match m.pending with
  | none => (.error .invalidMapping, m)
  | some t =>
    if t.committed then (.error .invalidMapping, m)
    else if t.metadataOnly then (.ok [], { m with pending := some { t with committed := true } })
    else (.ok [], { m with
      ram := { m.ram with bytes := MappingTransaction.applyPatches t.patches m.ram.bytes }
      space := { m.space with
          pages := t.pages, used := t.used, generation := m.space.generation + 1 }
      pending := some { t with pages := m.space.pages, committed := true } })

/-- The answer of an operation, and the state before unused regions are destroyed. -/
def perform (m : Machine) : Operation → Answer × Machine
  | .map address size permissions =>
    match m.space.map m.ram address size permissions with
    | .error e => (.error e, m)
    | .ok (space, ram) => (.ok [], { m with space := space, ram := ram })
  | .mapRegion address region offset size permissions =>
    m.edit (m.space.mapRegion m.ram address region offset size permissions)
  | .unmap address size => m.edit (m.space.unmap m.ram address size)
  | .replaceAliases remove add => m.edit (m.space.replaceAliases m.ram remove add)
  | .protect address size permissions => m.edit (m.space.protect m.ram address size permissions)
  | .mapMmio address size callbacks => m.edit (m.space.mapMmio m.ram address size callbacks)
  | .unmapMmio address size => m.edit (m.space.unmapMmio m.ram address size)
  | .prepareMappings mappings patches =>
    match MappingTransaction.prepare m.space m.ram mappings patches with
    | (.error e, ram) => (.error e, { m with ram := ram })
    | (.ok t, ram) => (.ok [], { m with ram := ram, pending := some t })
  | .prepareMetadataPublication =>
    if m.ram.running then (.error .running, m)
    else (.ok [], { m with
      ram := { m.ram with running := true }, pending := some { metadataOnly := true } })
  | .commit => m.commit
  | .drop =>
    match m.pending with
    | none => (.ok [], m)
    | some _ => (.ok [], { m with ram := { m.ram with running := false }, pending := none })
  | .read address n => (m.space.readWithPermissions m.ram address n permissionRead, m)
  | .write address data => m.store (m.space.writeWithPermissions m.ram address data permissionWrite)
  | .readBacking address n =>
    if m.ram.running then (.error .running, m)
      else (m.space.readWithPermissions m.ram address n 0, m)
  | .writeBacking address data => m.store (m.space.writeWithPermissions m.ram address data 0)
  | .allocate size =>
    match m.ram.allocate size with
    | .error e => (.error e, m)
    | .ok (region, ram) => (.ok [], { m with ram := ram, handles := m.handles ++ [region] })
  | .releaseRegion index => (.ok [], { m with handles := m.handles.eraseIdx index })
  | .allocateBacking size =>
    match m.ram.allocate size with
    | .error e => (.error e, m)
    | .ok (region, ram) => (.ok [], { m with
        ram := ram
        views := m.views ++ [{ memory := some ram.identity, size := size,
                               slices := [⟨region, 0, size⟩] }] })
  | .pinBacking address size => m.keepView (m.space.pinBacking m.ram address size)
  | .subview index offset length => m.keepView ((m.views.getD index {}).subview offset length)
  | .releaseView index => (.ok [], { m with views := m.views.eraseIdx index })
  | .readView index offset n => ((m.views.getD index {}).read m.ram offset n, m)
  | .writeView index offset data => m.store ((m.views.getD index {}).write m.ram offset data)

def step (m : Machine) (op : Operation) : Answer × Machine :=
  ((m.perform op).1, (m.perform op).2.settle)

end Machine

/-- A region of this memory is only passed by a client that keeps it. -/
def Operation.Owned (m : Machine) : Operation → Prop
  | .mapRegion _ (some region) _ _ _ => region.owner = m.ram.identity → m.holds region
  | _ => True

end NeverD.Emulation
