import NeverD.Emulation.Space
import NeverD.Lib.Intervals

namespace NeverD.Emulation
open Lib Lib.Intervals

inductive TransactionDiagnostic
  | lease
  | budget
  | range
  | phase
  | function
deriving DecidableEq

structure RAMWriteRange where
  address : Nat
  size : Nat

inductive TransactionPhase
  | executing
  | staged
  | committed
deriving DecidableEq

structure RAMSlice where
  physical : Nat
  before : List UInt8
  after : List UInt8

structure RAMTransaction where
  slices : List RAMSlice
  phase : TransactionPhase := .executing

namespace RAMTransaction

def splitWrite (pages : Table Page) (permissions : Permissions) :
    Nat → Nat → Nat → Except TransactionDiagnostic (List Interval)
  | _, _, 0 => .ok []
  | 0, _, _ + 1 => .error .range
  | fuel + 1, address, remaining + 1 =>
    let offset := address % pageSize
    match pages.find (address - offset) with
    | none => .error .range
    | some page =>
      if page.io.isSome ∨ page.permissions &&& permissions ≠ permissions then .error .range
      else
        let size := min (remaining + 1) (pageSize - offset)
        (splitWrite pages permissions fuel (address + size) (remaining + 1 - size)).map
          ((page.physical + offset, size) :: ·)

def splitWrites (pages : Table Page) (permissions : Permissions) (byteBudget : Nat) :
    List RAMWriteRange → Except TransactionDiagnostic (List Interval)
  | [] => .ok []
  | w :: rest =>
    if w.size = 0 ∨ byteBudget < w.size ∨ uint64Max - w.address < w.size - 1 then .error .range
    else match splitWrite pages permissions w.size w.address w.size with
      | .error e => .error e
      | .ok parts => (splitWrites pages permissions byteBudget rest).map (parts ++ ·)

def withinBudget (byteBudget : Nat) : List Interval → Nat → Bool
  | [], _ => true
  | r :: rest, total => r.2 ≤ byteBudget - total && withinBudget byteBudget rest (total + r.2)

/-- Aliases may overlap or repeat the same physical bytes, so the snapshot is of their union. -/
def create (pages : Table Page) (running : Bool) (memory : Nat → UInt8)
    (writes : List RAMWriteRange)
    (byteBudget : Nat) (permissions : Permissions) : Except TransactionDiagnostic RAMTransaction :=
  if ¬ running then .error .lease
  else if byteBudget = 0 ∨ maxRAM < byteBudget ∨ byteBudget < writes.length ∨
    permissions &&& permissionWrite = 0 then
    .error .budget
  else match splitWrites pages permissions byteBudget writes with
    | .error e => .error e
    | .ok ranges =>
      if withinBudget byteBudget (merge (sort ranges)) 0 then
        .ok { slices := (merge (sort ranges)).map fun r => ⟨r.1, bytesAt memory r.1 r.2,
                List.replicate r.2 0⟩ }
      else .error .budget

def restore (t : RAMTransaction) (memory : Nat → UInt8) : Nat → UInt8 :=
  t.slices.foldl (fun memory s => memcpy memory s.physical s.before) memory

def publish (t : RAMTransaction) (memory : Nat → UInt8) : Nat → UInt8 :=
  t.slices.foldl (fun memory s => memcpy memory s.physical s.after) memory

def overlay (buffer : List UInt8) (position : Nat) (data : List UInt8) : List UInt8 :=
  buffer.take position ++ data ++ buffer.drop (position + data.length)

/-- Walk over the requested bytes, slice by slice, and copy them out or only validate them. -/
def transfer (pages : Table Page) (slices : List RAMSlice) (copy : Bool) :
    Nat → Nat → Nat → List UInt8 → Except TransactionDiagnostic Unit × List UInt8
  | 0, _, _, buffer => (.ok (), buffer)
  | fuel + 1, current, copied, buffer =>
    if buffer.length ≤ copied then (.ok (), buffer)
    else
      let offset := current % pageSize
      match pages.find (current - offset) with
      | none => (.error .range, buffer)
      | some page =>
        if page.io.isSome then (.error .range, buffer)
        else
          let physical := page.physical + offset
          match (slices.takeWhile (·.physical ≤ physical)).getLast? with
          | none => (.error .range, buffer)
          | some s =>
            let inSlice := physical - s.physical
            if s.after.length ≤ inSlice then (.error .range, buffer)
            else
              let size :=
                min (buffer.length - copied) (min (pageSize - offset) (s.after.length - inSlice))
              transfer pages slices copy fuel (current + size) (copied + size)
                (if copy then overlay buffer copied ((s.after.drop inSlice).take size) else buffer)

/-- The whole read is validated before any byte is published to the caller. -/
def read (t : RAMTransaction) (pages : Table Page) (address : Nat) (buffer : List UInt8) :
    Except TransactionDiagnostic Unit × List UInt8 :=
  if t.phase ≠ .staged then (.error .phase, buffer)
  else if buffer.isEmpty ∨ uint64Max - address < buffer.length - 1 then (.error .range, buffer)
  else match transfer pages t.slices false buffer.length address 0 buffer with
    | (.error e, buffer) => (.error e, buffer)
    | (.ok _, buffer) => transfer pages t.slices true buffer.length address 0 buffer

end RAMTransaction

abbrev Executed := (Nat → UInt8) → Except TransactionDiagnostic Unit × (Nat → UInt8)

inductive TransactionStep
  | execute (function : Executed)
  | stage
  | read (pages : Table Page) (address : Nat) (buffer : List UInt8)
  | commit

structure TransactionSession where
  memory : Nat → UInt8
  transaction : RAMTransaction

namespace TransactionSession

def step (s : TransactionSession) :
    TransactionStep → Except TransactionDiagnostic Unit × TransactionSession
  | .execute function =>
    if s.transaction.phase ≠ .executing then (.error .phase, s)
    else ((function s.memory).1, { s with memory := (function s.memory).2 })
  | .stage =>
    if s.transaction.phase ≠ .executing then (.error .phase, s)
    else (.ok (), {
      memory := s.transaction.restore s.memory
      transaction := {
        slices := s.transaction.slices.map fun slice =>
          { slice with after := bytesAt s.memory slice.physical slice.after.length }
        phase := .staged } })
  | .read pages address buffer => ((s.transaction.read pages address buffer).1, s)
  | .commit =>
    if s.transaction.phase ≠ .staged then (.error .phase, s)
    else (.ok (), {
      memory := s.transaction.publish s.memory
      transaction := { s.transaction with phase := .committed } })

def run (s : TransactionSession) (steps : List TransactionStep) : TransactionSession :=
  steps.foldl (fun s step => (s.step step).2) s

def destroy (s : TransactionSession) : Nat → UInt8 :=
  if s.transaction.phase = .executing then s.transaction.restore s.memory else s.memory

end TransactionSession

end NeverD.Emulation
