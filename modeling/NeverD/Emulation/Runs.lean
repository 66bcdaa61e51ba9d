import NeverD.Emulation.Refine

namespace NeverD.Emulation
open Lib List

structure Run where
  machine : Machine
  history : List Event := []
  staged : List (Nat × UInt8) := []

namespace Run

def step (s : Run) (op : Operation) : Run where
  machine := (s.machine.step op).2
  history := s.machine.events s.staged op ++ s.history
  staged := s.machine.stage s.staged op

inductive Reaches (limit : Nat) : Run → Prop
  | start {identity ramLimit : Nat} {ram : PhysicalMemory} {space : AddressSpace}
      (hram : PhysicalMemory.create identity ramLimit = .ok ram)
      (hspace : AddressSpace.create limit = .ok space) :
      Reaches limit { machine := { ram := ram, space := space } }
  | step {s : Run} {op : Operation} (h : Reaches limit s) (ho : op.Owned s.machine) :
      Reaches limit (s.step op)

structure Ok (limit : Nat) (s : Run) : Prop where
  sound : s.machine.Sound s.staged
  remembers : Remembers s.machine.ram s.history
  settled : ∀ r ∈ s.machine.ram.regions, s.machine.refers r
  limit : s.machine.space.limit = limit

lemma ok_start {limit identity ramLimit : Nat} {ram : PhysicalMemory} {space : AddressSpace}
    (hram : PhysicalMemory.create identity ramLimit = .ok ram)
    (hspace : AddressSpace.create limit = .ok space) :
    Ok limit { machine := { ram := ram, space := space } } := by
  have hok := PhysicalMemory.create_ok hram
  have hsp : SpaceOk (· ∈ ram.regions) space := spaceOk_create hspace
  unfold PhysicalMemory.create at hram
  split at hram
  · cases hram
  unfold AddressSpace.create at hspace
  split at hspace
  · cases hspace
  cases hram
  cases hspace
  refine ⟨?_, forall_mem_nil _, forall_mem_nil _, rfl⟩
  exact ⟨hok, hsp, forall_mem_nil _, forall_mem_nil _, rfl, fun t ht => (nomatch ht),
    fun t ht => (nomatch ht)⟩

lemma Ok.step {limit : Nat} {s : Run} (h : Ok limit s) {op : Operation} (ho : op.Owned s.machine) :
    Ok limit (s.step op) := by
  have hsound := h.sound.perform ho
  refine ⟨hsound.settle, hsound.remembers_settle (h.sound.recalls_perform h.remembers ho), ?_, ?_⟩
  · intro r hr
    exact ((Machine.mem_settle hsound.ram r).mp hr).2
  · exact (h.sound.perform_limit op).trans h.limit

lemma Reaches.ok {limit : Nat} {s : Run} (h : Reaches limit s) : Ok limit s := by
  induction h with
  | start hram hspace => exact ok_start hram hspace
  | step _ ho ih => exact ih.step ho

structure Consistent (limit : Nat) (s : Run) : Prop where
  used : s.machine.space.used = pageSize * s.machine.space.pages.size ∧ s.machine.space.used ≤ limit
  aliases : s.machine.space.aliases.Pairwise Apart
  aliasPages : ∀ e ∈ s.machine.space.aliases, ∀ a ∈ pageAddresses e.1 e.2, ∃ page r,
    s.machine.space.pages.find a = some page ∧ page.Backed r ∧ r ∈ s.machine.ram.regions
  devicePages : ∀ a, (∃ page, s.machine.space.pages.find a = some page ∧ page.io.isSome) ↔
    ∃ e ∈ s.machine.space.devices, a ∈ pageAddresses e.1 e.2.size
  failed : ∀ op e, (s.machine.step op).1 = .error e →
    (s.machine.step op).2.space = s.machine.space ∧
    ∀ r ∈ s.machine.ram.regions, ∀ p, r.offset ≤ p → p < r.offset + r.size →
      (s.machine.step op).2.ram.bytes p = s.machine.ram.bytes p
  read : ∀ address n,
    (Machine.Granted s.machine.space.pages permissionRead address n →
      (s.machine.step (.read address n)).1 =
      .ok ((targets s.machine.space.pages address n).map (lastWritten s.history))) ∧
    (¬ Machine.Granted s.machine.space.pages permissionRead address n →
      (s.machine.step (.read address n)).1 = .error .memoryAccess)
  readBacking : s.machine.ram.running = false → ∀ address n,
    (Machine.Granted s.machine.space.pages 0 address n →
      (s.machine.step (.readBacking address n)).1 =
      .ok ((targets s.machine.space.pages address n).map (lastWritten s.history))) ∧
    (¬ Machine.Granted s.machine.space.pages 0 address n →
      (s.machine.step (.readBacking address n)).1 = .error .memoryAccess)
  write : s.machine.ram.running = false → ∀ address data,
    (Machine.Granted s.machine.space.pages permissionWrite address data.length →
      (s.machine.step (.write address data)).1 = .ok []) ∧
    (¬ Machine.Granted s.machine.space.pages permissionWrite address data.length →
      (s.machine.step (.write address data)).1 = .error .memoryAccess)
  writeBacking : s.machine.ram.running = false → ∀ address data,
    (Machine.Granted s.machine.space.pages 0 address data.length →
      (s.machine.step (.writeBacking address data)).1 = .ok []) ∧
    (¬ Machine.Granted s.machine.space.pages 0 address data.length →
      (s.machine.step (.writeBacking address data)).1 = .error .memoryAccess)
  readView : s.machine.ram.running = false → ∀ index v offset n, s.machine.views[index]? = some v →
    offset + n ≤ v.size → (s.machine.step (.readView index offset n)).1 =
      .ok (((v.targets.drop offset).take n).map (lastWritten s.history))

namespace Ok

variable {limit : Nat} {s : Run}

variable (h : Ok limit s)
include h

lemma devicePages (a : Nat) : (∃ page, s.machine.space.pages.find a = some page ∧ page.io.isSome) ↔
      ∃ e ∈ s.machine.space.devices, a ∈ pageAddresses e.1 e.2.size := by
  constructor
  · intro ⟨page, hf, hio⟩
    obtain ⟨d, hd⟩ := Option.isSome_iff_exists.mp hio
    obtain ⟨-, hmem, hin⟩ := h.sound.space.device a page d hf hd
    exact ⟨_, hmem, hin⟩
  · intro ⟨e, he, hin⟩
    obtain ⟨hkey, -, hpages⟩ := h.sound.space.devices e he
    rw [hkey] at hin
    obtain ⟨page, hf, hio⟩ := hpages a hin
    refine ⟨page, hf, ?_⟩
    rw [hio]
    rfl

lemma aliasPages (e : Nat × Nat) (he : e ∈ s.machine.space.aliases) (a : Nat)
    (ha : a ∈ pageAddresses e.1 e.2) : ∃ page r, s.machine.space.pages.find a = some page ∧
      page.Backed r ∧ r ∈ s.machine.ram.regions := by
  obtain ⟨page, hf, hio⟩ := (h.sound.space.aliasPages e he).2 a ha
  obtain ⟨r, hb, hr⟩ := h.sound.space.memory a page hf hio
  exact ⟨page, r, hf, hb, hr⟩

lemma failed {op : Operation} {e : Diagnostic} (he : (s.machine.step op).1 = .error e) :
    (s.machine.step op).2.space = s.machine.space ∧
      ∀ r ∈ s.machine.ram.regions, ∀ p, r.offset ≤ p → p < r.offset + r.size →
        (s.machine.step op).2.ram.bytes p = s.machine.ram.bytes p := by
  unfold Machine.step at *
  rcases Machine.perform_error he with heq | ⟨mappings, patches, ram, -, hprep, heq⟩
  · rw [heq, Machine.settle_self h.settled]
    exact ⟨rfl, fun _ _ _ _ _ => rfl⟩
  · have hpres := prepare_error h.sound.ram hprep
    rw [heq]
    refine ⟨rfl, ?_⟩
    intro r hr p hlow hhigh
    rw [(Machine.settle_released (m := { s.machine with ram := ram }) hpres.ok).bytes]
    exact hpres.bytes r hr p hlow hhigh

lemma readView (hrun : s.machine.ram.running = false) {index : Nat} {v : MemoryView}
    {offset n : Nat} (hv : s.machine.views[index]? = some v) (hn : offset + n ≤ v.size) :
    (s.machine.step (.readView index offset n)).1 =
      .ok (((v.targets.drop offset).take n).map (lastWritten s.history)) := by
  unfold Machine.step
  rw [Machine.perform, getD_eq_getElem?_getD, hv]
  exact h.sound.readView_answer h.remembers hrun (mem_of_getElem? hv) hn

omit h

end Ok

/-- Every state of every run is consistent. -/
theorem Reaches.consistent {limit : Nat} {s : Run} (h : Reaches limit s) : Consistent limit s := by
  have hok := h.ok
  refine ⟨⟨hok.sound.space.used, ?_⟩, hok.sound.space.aliases, hok.aliasPages, hok.devicePages,
    fun op e => hok.failed, ?_, ?_, ?_, ?_, fun hrun index v offset n => hok.readView hrun⟩
  · rw [← hok.limit]
    exact hok.sound.space.limit
  · intro address n
    exact hok.sound.read_answer hok.remembers permissionRead address n
  · intro hrun address n
    unfold Machine.step
    rw [Machine.perform, hrun]
    exact hok.sound.read_answer hok.remembers 0 address n
  · intro hrun address data
    exact hok.sound.write_answer hrun permissionWrite address data
  · intro hrun address data
    exact hok.sound.write_answer hrun 0 address data

/-- The smallest memory, with one page at the top of the address space. -/
def created : Run where
  machine :=
    { ram := { identity := 7, limit := 4096, free := [(0, 4096)] }, space := { limit := 8192 } }

theorem Reaches.consistent_topByte :
    Consistent 8192 ((created.step (.map (2 ^ 64 - 4096) 4096 3)).step (.write (2 ^ 64 - 1) [9])) :=
  Reaches.consistent (.step (.step (@Reaches.start 8192 7 4096 _ _ rfl rfl) trivial) trivial)

end Run

end NeverD.Emulation
