import WaveDb.Storage.Directory
import WaveDb.Storage.Disk

-- The addressing log: every settle window has a chunk that names what it changed and
-- the chunk before it. A commit frame holds the chain by its head.
namespace WaveDb.Storage

open WaveDb.Lib WaveDb.Core

-- Chunks between two snapshots, and the edit blocks that make one worth it.
def maxEditChunks : Nat := 1024

def compactFloorBlocks : Nat := 16

-- The last full snapshot and the delta chunks written since, oldest first.
structure MetaLog where
  snapshot : BlockDescriptor
  edits : List BlockDescriptor
  editBlocks : Nat
  deriving DecidableEq

namespace MetaLog

def new : MetaLog := ⟨.empty, [], 0⟩

def restored (chain : List BlockDescriptor) : MetaLog :=
  ⟨chain.headD .empty, chain.tail, (chain.tail.map (·.count)).sum⟩

def wantsSnapshot (log : MetaLog) : Bool :=
  maxEditChunks ≤ log.edits.length || max log.snapshot.count compactFloorBlocks ≤ log.editBlocks

def record (log : MetaLog) (chunk : BlockDescriptor) (full : Bool) : MetaLog × List Run :=
  if full then
    (⟨chunk, [], 0⟩, log.edits.map (·.run) ++
      if log.snapshot.isAllocated then [log.snapshot.run] else [])
  else (⟨log.snapshot, log.edits ++ [chunk], log.editBlocks + chunk.count⟩, [])

def head (log : MetaLog) : Nat := (log.edits.getLastD log.snapshot).raw

end MetaLog

-- One type's share of a round: its directory, the pages to write by bucket, the
-- dictionary if it grew, and the ids whose tombstones the pages make good.
structure SlotPlan (Blk : Type) where
  structHash : Nat
  dir : Directory
  pages : Table Nat (Image Blk)
  dict : Option (Image Blk)
  cleared : List Id

variable {Blk M : Type}

section Chunk

-- Machine integers of the chunk: bucket numbers are cut to 32 bits.
def everyBucket (slots : List BlockDescriptor) : List (Nat × Nat) :=
  slots.zipIdx.map fun (desc, bucket) => (bucket % 2 ^ 32, desc.raw)

-- On the reservation pass `dict` is not known, and a placeholder keeps the
-- shape.
def plannedEdit (slot : StructStorage) (plan : SlotPlan Blk) (full : Bool)
    (dict : Option BlockDescriptor) : SlotEdit where
  structHash := plan.structHash
  buckets := plan.dir.len % 2 ^ 32
  changed :=
    if full then everyBucket plan.dir.slots
    else plan.pages.map fun (bucket, _) => (bucket % 2 ^ 32, (plan.dir.descriptor bucket).raw)
  dict :=
    if plan.dict.isSome then some ((dict.map (·.raw)).getD 0)
    else if full then some slot.dict.desc.raw
    else none

def residentEdit (hash : Nat) (slot : StructStorage) : Option SlotEdit :=
  slot.dir.map fun dir => ⟨hash, dir.len % 2 ^ 32, everyBucket dir.slots, some slot.dict.desc.raw⟩

def chunkOf (hashes : List Nat) (slots : Nat → StructStorage) (plans : List (SlotPlan Blk))
    (full : Bool) (dicts : Nat → Option BlockDescriptor) (prev : Nat) : EditChunk where
  prev := prev
  slots :=
    (plans.map fun plan => plannedEdit (slots plan.structHash) plan full (dicts plan.structHash)) ++
      if full then
        (hashes.filter fun hash => plans.all fun plan => plan.structHash ≠ hash).filterMap
          fun hash => residentEdit hash (slots hash)
      else []

end Chunk

section Walk

variable [Media Blk]

def readChunk (run : Run) : Io Blk M EditChunk := do
  let blocks ← readRun run
  Act.lift (Media.readChunk blocks)

-- Newest first. It gives up on a chain that is longer than any the writer leaves.
def walkFrom : Nat → BlockDescriptor → Io Blk M (List BlockDescriptor)
  | 0, cursor =>
    if cursor.isAllocated then Act.fail (.corrupt "edit chain too long") else return []
  | room + 1, cursor =>
    if cursor.isAllocated then do
      let chunk ← readChunk cursor.run
      let older ← walkFrom room ⟨chunk.prev⟩
      return cursor :: older
    else return []

def walk (head : BlockDescriptor) : Io Blk M (List BlockDescriptor) := do
  let chain ← walkFrom (maxEditChunks + 1) head
  return chain.reverse

end Walk

-- Chunks folded on in write order: the addresses and the dictionary of each
-- type named so far.
structure Replay where
  slots : Table Nat (List Nat)
  dicts : Table Nat Nat

namespace Replay

def new : Replay := ⟨[], []⟩

def setAll : List Nat → List (Nat × Nat) → Except StorageError (List Nat)
  | addresses, [] => .ok addresses
  | addresses, (bucket, raw) :: changed =>
    if bucket < addresses.length then setAll (addresses.set bucket raw) changed
    else .error (.corrupt "edit chunk bucket out of range")

def resize (addresses : List Nat) (buckets : Nat) : List Nat :=
  addresses ++ List.replicate (buckets - addresses.length) 0

def applySlot (replay : Replay) (edit : SlotEdit) : Except StorageError Replay := do
  let addresses ← setAll (resize ((replay.slots.get edit.structHash).getD []) edit.buckets)
    edit.changed
  return ⟨replay.slots.put edit.structHash addresses,
    (edit.dict.map fun raw => replay.dicts.put edit.structHash raw).getD replay.dicts⟩

def applySlots : Replay → List SlotEdit → Except StorageError Replay
  | replay, [] => .ok replay
  | replay, edit :: edits => do
      let replay ← replay.applySlot edit
      replay.applySlots edits

def apply (replay : Replay) (chunk : EditChunk) : Except StorageError Replay :=
  replay.applySlots chunk.slots

end Replay

end WaveDb.Storage
