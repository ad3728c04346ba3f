import WaveDb.Storage.Checkpoint

-- Opening a store: `data.bin`, the journals, and the root a commit frame names.
namespace WaveDb.Storage

open WaveDb.Lib WaveDb.Core

variable {Blk : Type} [Media Blk] (cfg : Config)

section Restore

def freshAlloc : Engine Blk BlockAllocator := do
  truncateToBlocks reservedBlocks
  return (BlockAllocator.new.alloc reservedBlocks).2

def replayChain : Replay → List BlockDescriptor → Engine Blk Replay
  | replay, [] => return replay
  | replay, desc :: chain => do
      let chunk ← readChunk desc.run
      let replay ← Act.lift (replay.apply chunk)
      replayChain replay chain

def registeredOr (hash : Nat) : Engine Blk Unit :=
  if cfg.registered hash then return () else Act.fail (.unregisteredStructHash hash)

def dirOf (addresses : List Nat) : Option Directory :=
  if h : 0 < addresses.length then some ⟨addresses.map BlockDescriptor.mk, by simpa using h⟩
  else none

def loadDir : Nat × List Nat → Engine Blk (List Run)
  | (hash, addresses) => do
      registeredOr cfg hash
      match dirOf addresses with
      | none => return []
      | some dir =>
        setMem fun m => m.setSlot hash fun slot => { slot with dir := some dir }
        return dir.runs

def loadDict : Nat × Nat → Engine Blk (List Run)
  | (hash, raw) => do
      registeredOr cfg hash
      if (BlockDescriptor.mk raw).isAllocated then
        let blocks ← readRun (BlockDescriptor.mk raw).run
        let buf ← Act.lift (Media.readDictionary blocks)
        setMem fun m => m.setSlot hash fun slot =>
          { slot with dict := { slot.dict with buf := buf, desc := ⟨raw⟩ } }
        return [(BlockDescriptor.mk raw).run]
      else return []

def loadCommit (commit : CommitFrame) : Engine Blk Unit := do
  let chain ← walk ⟨commit.head⟩
  let replay ← replayChain .new chain
  let dirs ← Act.collect (loadDir cfg) replay.slots
  let dicts ← Act.collect (loadDict cfg) replay.dicts
  let used := ⟨0, reservedBlocks⟩ :: chain.map (·.run) ++ dirs.flatten ++ dicts.flatten
  let len ← lenBlocks
  setMem fun m =>
    { m with alloc := (BlockAllocator.fromLayout len used).setProtected used, metaLog := .restored chain }

def scan : Engine Blk (List Nat) := do
  let _ ← attempt
  Act.read fun w => (w.disk.journals.map (·.ts)).insertionSort (· ≤ ·)

-- Open and decode a journal; a torn tail is cut off, durably.
def openJournal (ts : Nat) : Engine Blk (Nat × List JournalFrame) := do
  let _ ← attempt
  let _ ← attempt
  let file ← Act.read fun w => w.disk.journals.find? fun j => j.ts = ts
  if (file.map (·.torn)).getD false then
    let _ ← attempt
    onDisk fun d => d.setJournal ts fun j => { j with torn := false }
    syncFile ts
    return (ts, (file.map (·.frames)).getD [])
  else return (ts, (file.map (·.frames)).getD [])

def newestCommit (opened : List (Nat × List JournalFrame)) : Option CommitFrame :=
  (opened.flatMap fun j => commitsOf j.2).getLast?

def covered (newest : Option CommitFrame) (ts : Nat) : Bool :=
  newest.any fun commit => ts ≤ commit.journalTs

-- Covered journals are cleaned up; the batches of the others are to replay.
def cleanUp (newest : Option CommitFrame) :
    List (Nat × List JournalFrame) → Engine Blk (List (Nat × List JournalFrame))
  | [] => return []
  | j :: opened =>
    if covered newest j.1 then do
      unlinkFile j.1
      cleanUp newest opened
    else do
      let rest ← cleanUp newest opened
      return j :: rest

def loadRoot : Option CommitFrame → Engine Blk Unit
  | some commit => loadCommit cfg commit
  | none => do
      let alloc ← freshAlloc
      setMem fun m => { m with alloc := alloc, metaLog := .new }

def currentJournal (newest : Option CommitFrame) (kept : List (Nat × List JournalFrame)) :
    Engine Blk Journal :=
  match kept.getLast? with
  | some j => return ⟨j.1, 0⟩
  | none => do
      let ts ← nextTs ((newest.map (·.journalTs)).getD 0)
      Journal.create ts

def restore (dataBinExisted : Bool) : Engine Blk (List (List (Write Bytes))) := do
  let found ← scan
  if dataBinExisted && found.isEmpty then
    Act.fail (.corrupt "data.bin present but no journal — recovery root lost")
  else if found.isEmpty then
    let ts ← nextTs 0
    let journal ← Journal.create ts
    let alloc ← freshAlloc
    setMem fun m => { m with alloc := alloc, metaLog := .new, journal := journal }
    return []
  else
    let opened ← Act.collect openJournal found
    loadRoot cfg (newestCommit opened)
    let kept ← cleanUp (newestCommit opened) opened
    let journal ← currentJournal (newestCommit opened) kept
    setMem fun m => { m with journal := journal }
    return kept.flatMap fun j => batchesOf j.2

def formatVersion : Nat := 1

def checkSuperblock (f : DataFile Blk) : Engine Blk Nat := do
  let _ ← attempt
  let s ← Act.lift (Media.readSuperblock (f.blocks 0))
  if s.version = formatVersion then return s.seed else Act.fail (.badVersion s.version)

-- A file of no length gets its superblock; the seed of the id hash.
def openData : Engine Blk Nat := do
  let _ ← attempt
  onDisk fun d => { d with data := some (d.data.getD .fresh) }
  let f ← dataFile
  if f.len = 0 then
    let v ← ask
    ensureLen reservedBlocks
    writeAt 0 [Media.superblock ⟨formatVersion, v.seed⟩]
    syncData
    return v.seed
  else checkSuperblock f

def blank : Mem :=
  ⟨⟨0, 0⟩, .new, .new, none, cfg.freshSlots, 0, [], .idle⟩

-- `open_with` up to the batches it replays.
def openStore : Engine Blk (List (List (Write Bytes))) := do
  let _ ← attempt
  let existed ← Act.read fun w => w.disk.data.isSome
  let seed ← openData
  setMem fun _ => { blank cfg with seed := seed }
  restore cfg existed

end Restore

end WaveDb.Storage
