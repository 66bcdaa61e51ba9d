import NeverD.Lib.Table

namespace NeverD.Emulation
open Lib

def pageSize : Nat := 4096

/-- Physical addresses are numbered from here on, bytes of the backing block from zero on. -/
def projectionReserve : Nat := 8 * 1024 * 1024

def maxRAM : Nat := 1024 * 1024 * 1024

inductive Diagnostic
  | invalidMapping
  | memoryLimit
  | memoryAccess
  | running
  | memoryOwner
  | memoryRegion
  | addressSpace
  | deviceCallbacks
  | deviceRetirement
  | deviceProtection
deriving DecidableEq

/-- An allocation. The offset identifies one among its owner's. -/
structure MemoryRegion where
  owner : Nat
  offset : Nat
  size : Nat
deriving DecidableEq

/-- `running` holds while a transaction is prepared; `regions` are the allocations in use. -/
structure PhysicalMemory where
  identity : Nat
  limit : Nat
  used : Nat := 0
  free : List (Nat × Nat)
  bytes : Nat → UInt8 := fun _ => 0
  running : Bool := false
  regions : List MemoryRegion := []

def memcpy (bytes : Nat → UInt8) (base : Nat) : List UInt8 → Nat → UInt8
  | [] => bytes
  | b :: rest => memcpy (Function.update bytes base b) (base + 1) rest

def bytesAt (bytes : Nat → UInt8) (base n : Nat) : List UInt8 :=
  (List.range n).map fun i => bytes (base + i)

def zeroFill (bytes : Nat → UInt8) (base n : Nat) : Nat → UInt8 :=
  fun p => if base ≤ p ∧ p < base + n then 0 else bytes p

namespace PhysicalMemory

def create (identity limit : Nat) : Except Diagnostic PhysicalMemory :=
  if limit = 0 ∨ maxRAM < limit then .error .memoryLimit
  else .ok { identity := identity, limit := limit, free := [(0, limit)] }

def emplaceFree (free : List (Nat × Nat)) (range : Nat × Nat) : List (Nat × Nat) :=
  free.takeWhile (·.1 < range.1) ++ range :: free.dropWhile (·.1 < range.1)

def allocate (ram : PhysicalMemory) (size : Nat) :
    Except Diagnostic (MemoryRegion × PhysicalMemory) :=
  if ram.running then .error .running
  else if size = 0 ∨ size % pageSize ≠ 0 then .error .invalidMapping
  else match ram.free.find? fun range => size ≤ range.2 with
    | none => .error .memoryLimit
    | some (offset, available) =>
      let rest := ram.free.erase (offset, available)
      let region : MemoryRegion := ⟨ram.identity, offset, size⟩
      .ok (region, { ram with
        free := if size < available then emplaceFree rest (offset + size, available - size)
          else rest
        bytes := zeroFill ram.bytes offset size
        used := ram.used + size
        regions := region :: ram.regions })

def joinPrevious (before : List (Nat × Nat)) (offset size : Nat) : List (Nat × Nat) × Nat × Nat :=
  match before.getLast? with
  | some previous =>
    if previous.1 + previous.2 = offset then (before.dropLast, previous.1, size + previous.2)
    else (before, offset, size)
  | none => (before, offset, size)

def joinNext (base length : Nat) : List (Nat × Nat) → List (Nat × Nat) × Nat
  | next :: rest => if base + length = next.1 then (rest, length + next.2)
    else (next :: rest, length)
  | [] => ([], length)

def release (ram : PhysicalMemory) (region : MemoryRegion) : PhysicalMemory :=
  let (before, base, length) :=
    joinPrevious (ram.free.filter (·.1 < region.offset)) region.offset region.size
  let (after, length) := joinNext base length (ram.free.filter (region.offset ≤ ·.1))
  { ram with
    free := before ++ (base, length) :: after
    used := ram.used - region.size
    regions := ram.regions.erase region }

end PhysicalMemory

structure MemorySlice where
  region : MemoryRegion
  offset : Nat
  size : Nat
deriving DecidableEq

/-- A view without a memory is the default one, which answers nothing. -/
structure MemoryView where
  memory : Option Nat := none
  size : Nat := 0
  slices : List MemorySlice := []

namespace MemoryView

def validate (view : MemoryView) (offset length : Nat) : Bool :=
  view.memory.isSome ∧ offset ≤ view.size ∧ length ≤ view.size - offset

def cut : List MemorySlice → Nat → Nat → List MemorySlice
  | [], _, _ => []
  | slice :: rest, offset, length =>
    if length = 0 then []
    else if slice.size ≤ offset then cut rest (offset - slice.size) length
    else
      let count := min length (slice.size - offset)
      ⟨slice.region, slice.offset + offset, count⟩ :: cut rest 0 (length - count)

def subview (view : MemoryView) (offset length : Nat) : Except Diagnostic MemoryView :=
  if view.validate offset length then
    .ok { memory := view.memory, size := length, slices := cut view.slices offset length }
  else .error .memoryRegion

def readSlices (bytes : Nat → UInt8) : List MemorySlice → Nat → Nat → List UInt8
  | [], _, _ => []
  | slice :: rest, offset, n =>
    if n = 0 then []
    else if slice.size ≤ offset then readSlices bytes rest (offset - slice.size) n
    else
      let count := min n (slice.size - offset)
      bytesAt bytes (slice.region.offset + slice.offset + offset) count ++
        readSlices bytes rest 0 (n - count)

def writeSlices (bytes : Nat → UInt8) : List MemorySlice → Nat → List UInt8 → Nat → UInt8
  | [], _, _ => bytes
  | slice :: rest, offset, data =>
    if data.isEmpty then bytes
    else if slice.size ≤ offset then writeSlices bytes rest (offset - slice.size) data
    else
      let count := min data.length (slice.size - offset)
      writeSlices (memcpy bytes (slice.region.offset + slice.offset + offset) (data.take count))
        rest 0 (data.drop count)

def read (view : MemoryView) (ram : PhysicalMemory) (offset n : Nat) :
    Except Diagnostic (List UInt8) :=
  if ¬ view.validate offset n then .error .memoryRegion
  else if ram.running then .error .running
  else .ok (readSlices ram.bytes view.slices offset n)

def write (view : MemoryView) (ram : PhysicalMemory) (offset : Nat) (data : List UInt8) :
    Except Diagnostic PhysicalMemory :=
  if ¬ view.validate offset data.length then .error .memoryRegion
  else if ram.running then .error .running
  else .ok { ram with bytes := writeSlices ram.bytes view.slices offset data }

end MemoryView

end NeverD.Emulation
