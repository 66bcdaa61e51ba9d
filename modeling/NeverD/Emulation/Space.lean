import NeverD.Emulation.Memory
import Mathlib.Data.List.Sort

namespace NeverD.Emulation
open Lib

abbrev Permissions := BitVec 32

def permissionRead : Permissions := 1

def permissionWrite : Permissions := 2

/-- Read, write, execute and user-accessible. -/
def guestPermissionMask : Permissions := 15

def uint64Max : Nat := 2 ^ 64 - 1

structure Device where
  address : Nat
  size : Nat
deriving DecidableEq

structure Page where
  physical : Nat := 0
  permissions : Permissions := 0
  region : Option MemoryRegion := none
  io : Option Device := none

structure AddressSpace where
  limit : Nat
  used : Nat := 0
  generation : Nat := 1
  pages : Table Page := Table.empty
  aliases : List (Nat × Nat) := []
  devices : List (Nat × Device) := []

/-- A nonempty range of whole pages inside the address space, and permissions that exist. -/
def valid (address size : Nat) (permissions : Permissions) : Bool :=
  size ≠ 0 ∧ address % pageSize = 0 ∧ size % pageSize = 0 ∧ size - 1 ≤ uint64Max - address ∧
    permissions &&& ~~~guestPermissionMask = 0

def pageAddresses (address size : Nat) : List Nat :=
  (List.range ((size + (pageSize - 1)) / pageSize)).map fun n => address + n * pageSize

/-- Two ranges meet, by subtraction so that no end overflows. -/
def intersects (address size base length : Nat) : Bool :=
  if address ≤ base then base - address < size else address - base < length

def emplace {β : Type} (entries : List (Nat × β)) (key : Nat) (value : β) : List (Nat × β) :=
  if entries.any (·.1 = key) then entries else entries ++ [(key, value)]

inductive BackendFaultKind
  | invalidMemoryRange
  | unmappedMemory
  | protection
deriving DecidableEq

structure MemoryAccessFailure where
  kind : BackendFaultKind
  address : Nat
  size : Nat

namespace AddressSpace

/-- The pages from `va` to `last`, in `n` steps at most. -/
def firstFailureFrom (pages : Table Page) (address size : Nat) (permissions : Permissions)
    (last : Nat) : Nat → Nat → Option MemoryAccessFailure
  | 0, _ => none
  | n + 1, va =>
    let first := max address va
    let count := min (size - (first - address)) (pageSize - first % pageSize)
    match pages.find va with
    | none => some ⟨.unmappedMemory, first, count⟩
    | some page =>
      if page.permissions &&& permissions ≠ permissions then some ⟨.protection, first, count⟩
      else if va = last then none
      else firstFailureFrom pages address size permissions last n (va + pageSize)

def firstAccessFailure (pages : Table Page) (address size : Nat) (permissions : Permissions) :
    Option MemoryAccessFailure :=
  if size = 0 then none
  else if uint64Max - address < size - 1 then some ⟨.invalidMemoryRange, address, size⟩
  else
    let first := address - address % pageSize
    let last := (address + size - 1) - (address + size - 1) % pageSize
    firstFailureFrom pages address size permissions last ((last - first) / pageSize + 1) first

def check (space : AddressSpace) (address size : Nat) (permissions : Permissions) :
    Option BackendFaultKind :=
  (firstAccessFailure space.pages address size permissions).map MemoryAccessFailure.kind

def overlapsDevice (space : AddressSpace) (address size : Nat) : Bool :=
  size ≠ 0 ∧ space.devices.any fun e => intersects address size e.1 e.2.size

def create (limit : Nat) : Except Diagnostic AddressSpace :=
  if limit = 0 ∨ maxRAM < limit then .error .addressSpace else .ok { limit := limit }

def mapRegion (space : AddressSpace) (ram : PhysicalMemory) (address : Nat)
    (region : Option MemoryRegion)
    (offset size : Nat) (permissions : Permissions) : Except Diagnostic AddressSpace :=
  if ram.running then .error .running
  else if ¬ valid address size permissions then .error .invalidMapping
  else match region with
    | none => .error .memoryRegion
    | some region =>
      if offset % pageSize ≠ 0 ∨ region.size < offset ∨ region.size - offset < size then
        .error .memoryRegion
      else if region.owner ≠ ram.identity then .error .memoryOwner
      else if space.limit - space.used < size then .error .memoryLimit
      else if (pageAddresses address size).any fun a => (space.pages.find a).isSome then
        .error .invalidMapping
      else .ok { space with
        pages := space.pages.insertAll ((pageAddresses address size).map fun a =>
          (a, ⟨projectionReserve + region.offset + offset + (a - address), permissions,
            some region, none⟩))
        used := space.used + size
        generation := space.generation + 1 }

def map (space : AddressSpace) (ram : PhysicalMemory) (address size : Nat)
    (permissions : Permissions) : Except Diagnostic (AddressSpace × PhysicalMemory) :=
  if ram.running then .error .running
  else if ¬ valid address size permissions then .error .invalidMapping
  else if space.limit - space.used < size then .error .memoryLimit
  else if (pageAddresses address size).any fun a => (space.pages.find a).isSome then
    .error .invalidMapping
  else match ram.allocate size with
    | .error e => .error e
    | .ok (region, ram') => match space.mapRegion ram' address (some region) 0 size permissions with
      | .error e => .error e
      | .ok space' => .ok (space', ram')

def cutAlias (address size : Nat) (kept : List (Nat × Nat)) (e : Nat × Nat) : List (Nat × Nat) :=
  if ¬ intersects address size e.1 e.2 then emplace kept e.1 e.2
  else
    let kept := if e.1 < address then emplace kept e.1 (address - e.1) else kept
    let removed :=
      if address ≤ e.1 then min e.2 (size - (e.1 - address))
      else address - e.1 + min size (e.2 - (address - e.1))
    if removed < e.2 then emplace kept (e.1 + removed) (e.2 - removed) else kept

def withoutRange (address size : Nat) (aliases : List (Nat × Nat)) : List (Nat × Nat) :=
  aliases.foldl (cutAlias address size) []

def unmap (space : AddressSpace) (ram : PhysicalMemory) (address size : Nat) :
    Except Diagnostic AddressSpace :=
  if ram.running then .error .running
  else if ¬ valid address size 0 ∨ (space.check address size 0).isSome ∨
    space.overlapsDevice address size then
    .error .invalidMapping
  else .ok { space with
    pages := space.pages.eraseAll (pageAddresses address size)
    aliases := withoutRange address size space.aliases
    used := space.used - size
    generation := space.generation + 1 }

structure GuestAliasRange where
  address : Nat
  size : Nat

structure GuestAliasMapping where
  address : Nat
  source : Nat
  size : Nat
  permissions : Permissions

def removeAliases (space : AddressSpace) : List GuestAliasRange → Except Diagnostic AddressSpace
  | [] => .ok space
  | r :: rest =>
    match space.aliases.lookup r.address with
    | none => .error .invalidMapping
    | some length =>
      if length ≠ r.size then .error .invalidMapping
      else removeAliases { space with
        pages := space.pages.eraseAll (pageAddresses r.address r.size)
        aliases := space.aliases.erase (r.address, length)
        used := space.used - r.size } rest

def aliasPages (sources : Table Page) (r : GuestAliasMapping) : List Nat → Table Page →
    Except Diagnostic (Table Page)
  | [], next => .ok next
  | a :: rest, next =>
    match sources.find (r.source + (a - r.address)) with
    | none => .error .invalidMapping
    | some page =>
      if page.io.isSome ∨ (next.find a).isSome then .error .invalidMapping
      else aliasPages sources r rest (next.insert a { page with permissions := r.permissions })

def addAliases (sources : Table Page) (space : AddressSpace) : List GuestAliasMapping →
    Except Diagnostic AddressSpace
  | [] => .ok space
  | r :: rest =>
    if ¬ valid r.address r.size r.permissions ∨ ¬ valid r.source r.size r.permissions then
      .error .invalidMapping
    else if space.limit - space.used < r.size then .error .memoryLimit
    else match aliasPages sources r (pageAddresses r.address r.size) space.pages with
      | .error e => .error e
      | .ok pages => addAliases sources { space with
          pages := pages
          aliases := emplace space.aliases r.address r.size
          used := space.used + r.size } rest

def replaceAliases (space : AddressSpace) (ram : PhysicalMemory) (remove : List GuestAliasRange)
    (add : List GuestAliasMapping) : Except Diagnostic AddressSpace :=
  if ram.running then .error .running
  else match space.removeAliases remove with
    | .error e => .error e
    | .ok next => match addAliases next.pages next add with
      | .error e => .error e
      | .ok next => .ok { next with generation := space.generation + 1 }

def protect (space : AddressSpace) (ram : PhysicalMemory) (address size : Nat)
    (permissions : Permissions) : Except Diagnostic AddressSpace :=
  if ram.running then .error .running
  else if ¬ valid address size permissions ∨ (space.check address size 0).isSome then
    .error .invalidMapping
  else if space.overlapsDevice address size then .error .deviceProtection
  else .ok { space with
    pages := (pageAddresses address size).foldl (fun pages a => match pages.find a with
      | some page => pages.insert a { page with permissions := permissions }
      | none => pages) space.pages
    generation := space.generation + 1 }

structure GuestMMIOCallbacks where
  validate : Bool
  read : Bool
  write : Bool

def mapMmio (space : AddressSpace) (ram : PhysicalMemory) (address size : Nat)
    (callbacks : GuestMMIOCallbacks) : Except Diagnostic AddressSpace :=
  if ram.running then .error .running
  else if ¬ valid address size (permissionRead ||| permissionWrite) then .error .invalidMapping
  else if ¬ (callbacks.validate ∧ callbacks.read ∧ callbacks.write) then .error .deviceCallbacks
  else if space.limit - space.used < size then .error .memoryLimit
  else if (pageAddresses address size).any fun a => (space.pages.find a).isSome then
    .error .invalidMapping
  else .ok { space with
    pages := space.pages.insertAll ((pageAddresses address size).map fun a =>
      (a, ⟨0, permissionRead ||| permissionWrite, none, some ⟨address, size⟩⟩))
    devices := emplace space.devices address ⟨address, size⟩
    used := space.used + size
    generation := space.generation + 1 }

def unmapMmio (space : AddressSpace) (ram : PhysicalMemory) (address size : Nat) :
    Except Diagnostic AddressSpace :=
  if ram.running then .error .running
  else match space.devices.lookup address with
    | none => .error .deviceRetirement
    | some device =>
      if device.size ≠ size then .error .deviceRetirement
      else .ok { space with
        pages := space.pages.eraseAll (pageAddresses address size)
        devices := space.devices.erase (address, device)
        used := space.used - size
        generation := space.generation + 1 }

def target (pages : Table Page) (address : Nat) : Nat :=
  match pages.find (address - address % pageSize) with
  | some page => page.physical - projectionReserve + address % pageSize
  | none => 0

/-- Copy `n` bytes out, page by page, in at most `fuel` pages. -/
def readPages (pages : Table Page) (bytes : Nat → UInt8) : Nat → Nat → Nat → Option (List UInt8)
  | _, _, 0 => some []
  | 0, _, _ + 1 => none
  | fuel + 1, address, n + 1 =>
    let offset := address % pageSize
    match pages.find (address - offset) with
    | none => none
    | some page =>
      let count := min (n + 1) (pageSize - offset)
      (readPages pages bytes fuel (address + count) (n + 1 - count)).map
        (bytesAt bytes (page.physical - projectionReserve + offset) count ++ ·)

def writePages (pages : Table Page) : Nat → Nat → List UInt8 → (Nat → UInt8) → Option (Nat → UInt8)
  | _, _, [], bytes => some bytes
  | 0, _, _ :: _, _ => none
  | fuel + 1, address, b :: rest, bytes =>
    let offset := address % pageSize
    match pages.find (address - offset) with
    | none => none
    | some page =>
      let count := min (rest.length + 1) (pageSize - offset)
      writePages pages fuel (address + count) ((b :: rest).drop count)
        (memcpy bytes (page.physical - projectionReserve + offset) ((b :: rest).take count))

def accessFails (space : AddressSpace) (address size : Nat) (permissions : Permissions) : Bool :=
  (space.check address size permissions).isSome || space.overlapsDevice address size

/-- A page that is missing after the check would throw. -/
def readWithPermissions (space : AddressSpace) (ram : PhysicalMemory) (address n : Nat)
    (permissions : Permissions) : Except Diagnostic (List UInt8) :=
  if space.accessFails address n permissions then .error .memoryAccess
  else match readPages space.pages ram.bytes n address n with
    | some bytes => .ok bytes
    | none => .error .memoryAccess

def writeWithPermissions (space : AddressSpace) (ram : PhysicalMemory) (address : Nat)
    (data : List UInt8) (permissions : Permissions) : Except Diagnostic PhysicalMemory :=
  if ram.running then .error .running
  else if space.accessFails address data.length permissions then .error .memoryAccess
  else match writePages space.pages data.length address data ram.bytes with
    | some bytes => .ok { ram with bytes := bytes }
    | none => .error .memoryAccess

/-- Retain the memory behind a range, with adjacent parts of one region joined. -/
def pinSlices (pages : Table Page) : Nat → Nat → Nat → List MemorySlice → Option (List MemorySlice)
  | _, _, 0, slices => some slices
  | 0, _, _ + 1, _ => none
  | fuel + 1, address, n + 1, slices =>
    let inPage := address % pageSize
    match pages.find (address - inPage) with
    | none => none
    | some page => match page.region with
      | none => none
      | some region =>
        let offset := page.physical - projectionReserve - region.offset + inPage
        let count := min (n + 1) (pageSize - inPage)
        let slices := match slices.getLast? with
          | some last =>
            if last.region = region ∧ last.offset + last.size = offset then
              slices.dropLast ++ [{ last with size := last.size + count }]
            else slices ++ [⟨region, offset, count⟩]
          | none => [⟨region, offset, count⟩]
        pinSlices pages fuel (address + count) (n + 1 - count) slices

def pinBacking (space : AddressSpace) (ram : PhysicalMemory) (address size : Nat) :
    Except Diagnostic MemoryView :=
  if space.accessFails address size 0 then .error .memoryAccess
  else match pinSlices space.pages size address size [] with
    | some slices => .ok { memory := some ram.identity, size := size, slices := slices }
    | none => .error .memoryAccess

end AddressSpace

end NeverD.Emulation
