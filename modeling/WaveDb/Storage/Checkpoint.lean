import WaveDb.Storage.PageStore

-- A settle round: plan what each touched type writes, place it in one window with the
-- addressing chunk at its end, publish.
namespace WaveDb.Storage

open WaveDb.Lib WaveDb.Core

variable {Blk : Type} [Media Blk] (cfg : Config)

section Plan

def maxSplitsPerRound : Nat := 64

def targetBlocksPerBucket : Nat := 8

abbrev Staged := Table Nat SlotPage

def stagedPage (hash : Nat) (dir : Directory) (staged : Staged) (bucket : Nat) :
    Engine Blk SlotPage :=
  match staged.get bucket with
  | some page => return page
  | none => do
      let m ← mem
      readPage (m.slots hash) hash dir bucket

def sampleRecord (hash : Nat) (bytes : Bytes) : Engine Blk Bool := do
  let m ← mem
  setMem fun m => m.setSlot hash fun slot => { slot with dict := (slot.dict.sample bytes).1 }
  return ((m.slots hash).dict.sample bytes).2

structure Draft where
  staged : Staged
  cleared : List Id
  dictGrew : Bool

def draftRecord (hash bucket : Nat) (page : SlotPage) (draft : Draft) (id : Id) :
    Option Bytes → Engine Blk Draft
  | some bytes => do
      let grew ← sampleRecord hash bytes
      return ⟨draft.staged.put bucket (page.upsert id bytes), draft.cleared,
        draft.dictGrew || grew⟩
  | none => return ⟨draft.staged.put bucket (page.remove id), draft.cleared ++ [id], draft.dictGrew⟩

def draftIds (hash : Nat) (dir : Directory) : List Id → Draft → Engine Blk Draft
  | [], draft => return draft
  | id :: ids, draft => do
      let m ← mem
      let bucket := dir.bucketOf (cfg.hashOf m.seed id)
      let page ← stagedPage hash dir draft.staged bucket
      let draft ← draftRecord hash bucket page draft id ((m.slots hash).cache.get id)
      draftIds hash dir ids draft

def plannedBlocks (dir : Directory) (pages : Table Nat (Image Blk)) (bucket : Nat) : Nat :=
  ((pages.get bucket).map fun image => image.blocks.length).getD (dir.descriptor bucket).count

def splitPage (hash seed level : Nat) (page : SlotPage) : SlotPage × SlotPage :=
  (⟨hash, page.records.filter fun r => cfg.hashOf seed r.1 / 2 ^ level % 2 = 0⟩,
    ⟨hash, page.records.filter fun r => cfg.hashOf seed r.1 / 2 ^ level % 2 ≠ 0⟩)

structure Layout (Blk : Type) where
  dir : Directory
  staged : Staged
  pages : Table Nat (Image Blk)

def splitOnce (seed hash : Nat) (dict : DictState) (layout : Layout Blk) (page : SlotPage) :
    Layout Blk :=
  let source := nextSplitBucket layout.dir.len
  let target := layout.dir.len
  let halves := splitPage cfg hash seed (splitBit layout.dir.len) page
  { dir := layout.dir.pushBucket .empty
    staged := (layout.staged.put source halves.1).put target halves.2
    pages := (layout.pages.put source (halves.1.toBytes dict.buf dict.enabled)).put target
      (halves.2.toBytes dict.buf dict.enabled) }

def planSplits (hash : Nat) : Nat → Layout Blk → Engine Blk (Layout Blk)
  | 0, layout => return layout
  | rounds + 1, layout =>
    if plannedBlocks layout.dir layout.pages (nextSplitBucket layout.dir.len) ≤
        targetBlocksPerBucket then return layout
    else do
      let m ← mem
      let page ← stagedPage hash layout.dir layout.staged (nextSplitBucket layout.dir.len)
      planSplits hash rounds (splitOnce cfg m.seed hash (m.slots hash).dict layout page)

def planSlot (hash : Nat) (ids : List Id) : Engine Blk (SlotPlan Blk) := do
  let m ← mem
  let dir := (m.slots hash).dir.getD .new
  let draft ← draftIds cfg hash dir ids ⟨[], [], false⟩
  let m ← mem
  let dict := (m.slots hash).dict
  let layout ← planSplits cfg hash maxSplitsPerRound
    ⟨dir, draft.staged, draft.staged.map fun (bucket, page) => (bucket, page.toBytes dict.buf dict.enabled)⟩
  return ⟨hash, layout.dir, layout.pages,
    if draft.dictGrew then some (Media.dictionary dict.buf) else none, draft.cleared⟩

end Plan

section Place

inductive Placement
  | bestFit
  | tail

-- What the window holds, in order. The chunk comes last, reserved by its size.
inductive Target (Blk : Type)
  | page (hash bucket : Nat) (image : Image Blk)
  | dict (hash : Nat) (image : Image Blk)
  | edit (reserved : Image Blk)

namespace Target

def image : Target Blk → Image Blk
  | .page _ _ image => image
  | .dict _ image => image
  | .edit image => image

def size (t : Target Blk) : Nat := t.image.blocks.length

end Target

def SlotPlan.targets (plan : SlotPlan Blk) : List (Target Blk) :=
  (plan.pages.map fun (bucket, image) => .page plan.structHash bucket image) ++
    (plan.dict.map fun image => .dict plan.structHash image).toList

def targetsOf (plans : List (SlotPlan Blk)) : List (Target Blk) := plans.flatMap SlotPlan.targets

def totalSize (targets : List (Target Blk)) : Nat := (targets.map Target.size).sum

-- Every target holds at least a block, so every target gets a run.
def carve : Nat → List (Target Blk) → List (Target Blk × Run)
  | _, [] => []
  | cursor, t :: targets => (t, ⟨cursor, t.size⟩) :: carve (cursor + t.size) targets

def installOne (hash : Nat) (dir : Directory) : Target Blk × Run → Directory
  | (.page h bucket image, run) =>
    if h = hash then dir.setDescriptor bucket (.fromRunUsed run image.len) else dir
  | _ => dir

def SlotPlan.install (placed : List (Target Blk × Run)) (plan : SlotPlan Blk) : SlotPlan Blk :=
  { plan with dir := placed.foldl (installOne plan.structHash) plan.dir }

def SlotPlan.freed (plan : SlotPlan Blk) : List Run :=
  plan.pages.filterMap fun (bucket, _) =>
    if (plan.dir.descriptor bucket).isAllocated then some (plan.dir.descriptor bucket).run else none

def dictOf (hash : Nat) : Target Blk × Run → Option BlockDescriptor
  | (.dict h image, run) => if h = hash then some (.fromRunUsed run image.len) else none
  | _ => none

def dictDescriptors (placed : List (Target Blk × Run)) (hash : Nat) : Option BlockDescriptor :=
  placed.findSome? (dictOf hash)

def contentOf (chunk : Image Blk) : Target Blk × Run → List Blk
  | (.edit _, run) => chunk.blocks ++ List.replicate (run.count - chunk.blocks.length) Media.zero
  | (t, _) => t.image.blocks

def assemble (placed : List (Target Blk × Run)) (chunk : Image Blk) : List Blk :=
  placed.flatMap (contentOf chunk)

def repoint (dicts : Nat → Option BlockDescriptor) (m : Mem) (plan : SlotPlan Blk) : Mem :=
  match dicts plan.structHash with
  | none => m
  | some desc =>
    let old := (m.slots plan.structHash).dict.desc
    let m := m.setSlot plan.structHash fun slot => { slot with dict := { slot.dict with desc } }
    if old.isAllocated then { m with alloc := m.alloc.free old.run } else m

def publishDir (m : Mem) (plan : SlotPlan Blk) : Mem :=
  m.setSlot plan.structHash fun slot =>
    { slot with dir := some plan.dir, dead := slot.dead \ plan.cleared.toFinset }

def publish (dicts : Nat → Option BlockDescriptor) (plans : List (SlotPlan Blk)) (m : Mem) : Mem :=
  plans.foldl publishDir (plans.foldl (repoint dicts) m)

-- Once the window is written: the old runs are freed, the chunk is recorded,
-- and the plans become the directories.
def finishRound (freed : List Run) (plans : List (SlotPlan Blk)) (chunk : BlockDescriptor)
    (full : Bool) (dicts : Nat → Option BlockDescriptor) (m : Mem) : Mem :=
  let (log, stale) := m.metaLog.record chunk full
  publish dicts plans
    { m with alloc := stale.foldl .free (freed.foldl .free m.alloc), metaLog := log }

def takeWindow (total : Nat) : Placement → BlockAllocator → Run × BlockAllocator
  | .bestFit, alloc => alloc.alloc total
  | .tail, alloc => alloc.allocTail total

def editRun (placed : List (Target Blk × Run)) : Run := (placed.getLast?.map Prod.snd).getD ⟨0, 0⟩

def writeWindow (plans : List (SlotPlan Blk)) (full : Bool) (prev : Nat) (reserved : Image Blk)
    (window : Run) : Engine Blk Unit := do
  let m ← mem
  let placed := carve window.start (targetsOf plans ++ [.edit reserved])
  let installed := plans.map (SlotPlan.install placed)
  let dicts := dictDescriptors placed
  let chunk : Image Blk := Media.chunk (chunkOf cfg.hashes m.slots installed full dicts prev)
  if reserved.len < chunk.len then Act.fail (.corrupt "edit chunk outgrew its window")
  else
    writeRun window (assemble placed chunk)
    setMem (finishRound (plans.flatMap SlotPlan.freed) installed
      (.fromRunUsed (editRun placed) chunk.len) full dicts)

def placeIn (plans : List (SlotPlan Blk)) (placement : Placement) : Engine Blk Unit :=
  if (targetsOf plans).isEmpty then return ()
  else do
    let m ← mem
    let full := m.metaLog.wantsSnapshot
    let prev := if full then 0 else m.metaLog.head
    let reserved : Image Blk := Media.chunk
      (chunkOf cfg.hashes m.slots plans full (fun _ => none) prev)
    let taken := takeWindow (totalSize (targetsOf plans ++ [.edit reserved])) placement m.alloc
    setMem fun m => { m with alloc := taken.2 }
    writeWindow cfg plans full prev reserved taken.1

end Place

section Settle

def settle (touched : Touched) : Engine Blk Unit := do
  let plans ← Act.collect (fun (hash, ids) => planSlot cfg hash ids) touched
  placeIn cfg plans .bestFit

-- `pop` and `split_off` from the end of the queue, up to `room` ids.
def takeFrom : Nat → Touched → Touched × Touched
  | _, [] => ([], [])
  | room, (hash, ids) :: rest =>
    -- `rest` is what stands before this entry in the queue.
    if room = 0 then ([], (hash, ids) :: rest)
    else if ids.length ≤ room then
      let (round, left) := takeFrom (room - ids.length) rest
      ((hash, ids) :: round, left)
    else ([(hash, ids.drop (ids.length - room))], (hash, ids.take (ids.length - room)) :: rest)

-- A budget of `none` is `usize::MAX`: the whole queue.
def takeRound (budget : Option Nat) (pending : Touched) : Touched × Touched :=
  match budget with
  | none => (pending, [])
  | some room => ((takeFrom room pending.reverse).1, (takeFrom room pending.reverse).2.reverse)

def requeueOne (pending : Touched) (entry : Nat × List Id) : Touched :=
  if pending.any fun t => t.1 = entry.1 then
    pending.map fun t => if t.1 = entry.1 then (t.1, t.2 ++ entry.2) else t
  else pending ++ [entry]

def requeue (pending round : Touched) : Touched := round.foldl requeueOne pending

inductive Progress
  | settled
  | done
  deriving DecidableEq

def settleStep (budget : Option Nat) : Engine Blk Progress := do
  let m ← mem
  let taken := takeRound budget m.pending
  setMem fun m => { m with pending := taken.2 }
  if taken.1.isEmpty then return .done
  else
    (settle cfg taken.1).onError fun w =>
      { w with mem := { w.mem with pending := requeue w.mem.pending taken.1 } }
    return .settled

def evictUpTo : Nat → Records → Nat × Records
  | _, [] => (0, [])
  | target, (id, bytes) :: cache =>
    if 0 < target then
      let (freed, left) := evictUpTo (target - bytes.length) cache
      (bytes.length + freed, left)
    else (0, (id, bytes) :: cache)

end Settle

end WaveDb.Storage
