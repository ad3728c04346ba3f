import WaveDb.Lib.Act
import WaveDb.Storage.Media

-- The data directory: `data.bin` and the journal files, what has reached the
-- disk, and the file operations the engine uses. Every operation may fail.
namespace WaveDb.Storage

open WaveDb.Lib WaveDb.Core

-- The root of a checkpoint. It covers the journals up to `journalTs`.
structure CommitFrame where
  journalTs : Nat
  head : Nat
  deriving DecidableEq

inductive JournalFrame
  | batch (writes : List (Write Bytes))
  | commit (frame : CommitFrame)

def JournalFrame.commit? : JournalFrame → Option CommitFrame
  | .batch _ => none
  | .commit frame => some frame

def JournalFrame.batch? : JournalFrame → Option (List (Write Bytes))
  | .batch writes => some writes
  | .commit _ => none

-- A journal file: its whole frames in order, how many of them an fsync has
-- covered, and whether bytes that are no frame follow them.
structure JournalFile where
  ts : Nat
  frames : List JournalFrame
  synced : Nat
  torn : Bool

def commitsOf (frames : List JournalFrame) : List CommitFrame := frames.filterMap (·.commit?)

def batchesOf (frames : List JournalFrame) : List (List (Write Bytes)) := frames.filterMap (·.batch?)

-- `data.bin` in blocks. A block is dirty when written after the last fsync;
-- `lens` are the other lengths the file has had since then.
structure DataFile (Blk : Type) where
  blocks : Nat → Blk
  len : Nat
  dirty : Nat → Bool
  lens : List Nat

-- `removed` is a history of the unlinks: the timestamp of the journal, and the
-- commit frames that were on disk for good at that moment.
structure Disk (Blk : Type) where
  data : Option (DataFile Blk)
  journals : List JournalFile
  removed : List (Nat × List CommitFrame)

-- What happens to one file operation, and what the clock and the random
-- source say. A failed write may leave `kept` blocks or a torn frame behind.
structure Verdict where
  fails : Bool := false
  torn : Bool := false
  kept : Nat := 0
  now : Nat := 0
  seed : Nat := 0
  elapsed : Bool := false

structure World (Blk M : Type) where
  disk : Disk Blk
  script : List Verdict
  mem : M

variable {Blk M : Type}

abbrev Io (Blk M α : Type) := Act (World Blk M) StorageError α

def Disk.durable (d : Disk Blk) : List CommitFrame :=
  d.journals.flatMap fun j => commitsOf (j.frames.take j.synced)

def Disk.setJournal (d : Disk Blk) (ts : Nat) (f : JournalFile → JournalFile) : Disk Blk :=
  { d with journals := d.journals.map fun j => if j.ts = ts then f j else j }

def Disk.setData (d : Disk Blk) (f : DataFile Blk → DataFile Blk) : Disk Blk :=
  { d with data := d.data.map f }

def World.setDisk (w : World Blk M) (f : Disk Blk → Disk Blk) : World Blk M :=
  { w with disk := f w.disk }

def ask : Io Blk M Verdict := fun w => (.ok (w.script.headD {}), { w with script := w.script.tail })

def attempt : Io Blk M Verdict := do
  let v ← ask
  if v.fails then Act.fail .io else return v

def onDisk (f : Disk Blk → Disk Blk) : Io Blk M Unit := Act.modify fun w => w.setDisk f

section Journals

-- `create_new`: an existing file is an error.
def createFile (ts : Nat) : Io Blk M Unit := do
  let _ ← attempt
  let taken ← Act.read fun w => w.disk.journals.any fun j => j.ts = ts
  if taken then Act.fail .io
  else onDisk fun d => { d with journals := d.journals ++ [⟨ts, [], 0, false⟩] }

def JournalFile.sync (j : JournalFile) : JournalFile := { j with synced := j.frames.length }

def syncFile (ts : Nat) : Io Blk M Unit := do
  let _ ← attempt
  onDisk fun d => d.setJournal ts JournalFile.sync

def Disk.unlink (d : Disk Blk) (ts : Nat) : Disk Blk :=
  { d with
    journals := d.journals.filter fun j => j.ts ≠ ts
    removed := d.removed ++ [(ts, d.durable)] }

def unlinkFile (ts : Nat) : Io Blk M Unit := do
  let _ ← attempt
  onDisk fun d => d.unlink ts

end Journals

section Data

variable [Media Blk]

def DataFile.fresh : DataFile Blk := ⟨fun _ => Media.zero, 0, fun _ => false, []⟩

-- Cut blocks are gone, and grown blocks read as zero.
def DataFile.setLen (f : DataFile Blk) (len : Nat) : DataFile Blk where
  blocks n := if n < min f.len len then f.blocks n else Media.zero
  len := len
  dirty n := f.dirty n || decide (min f.len len ≤ n)
  lens := f.len :: f.lens

def DataFile.write (f : DataFile Blk) (start : Nat) (image : List Blk) : DataFile Blk :=
  { f with
    blocks := fun n => if start ≤ n then image.getD (n - start) (f.blocks n) else f.blocks n
    dirty := fun n => f.dirty n || (decide (start ≤ n) && decide (n < start + image.length)) }

def DataFile.sync (f : DataFile Blk) : DataFile Blk := { f with dirty := fun _ => false, lens := [] }

def DataFile.read (f : DataFile Blk) (run : Run) : List Blk :=
  (List.range' run.start run.count).map f.blocks

-- `data.bin` as opened: every operation on it follows its creation.
def dataFile : Io Blk M (DataFile Blk) := Act.read fun w => w.disk.data.getD .fresh

def lenBlocks : Io Blk M Nat := do
  let f ← dataFile
  return f.len

def readRun (run : Run) : Io Blk M (List Blk) := do
  let f ← dataFile
  if f.len < run.stop then Act.fail (.outOfBounds (run.stop * blockSize) (f.len * blockSize))
  else
    let _ ← attempt
    return f.read run

def ensureLen (len : Nat) : Io Blk M Unit := do
  let f ← dataFile
  if f.len < len then
    let _ ← attempt
    onDisk fun d => d.setData fun f => f.setLen len
  else return ()

def writeAt (start : Nat) (image : List Blk) : Io Blk M Unit := do
  let v ← ask
  if v.fails then
    onDisk fun d => d.setData fun f => f.write start (image.take v.kept)
    Act.fail .io
  else onDisk fun d => d.setData fun f => f.write start image

def writeRun (run : Run) (image : List Blk) : Io Blk M Unit := do
  if run.count < image.length then
    Act.fail (.runOverflow (image.length * blockSize) (run.count * blockSize))
  else
    ensureLen run.stop
    writeAt run.start image

def syncData : Io Blk M Unit := do
  let _ ← attempt
  onDisk fun d => d.setData DataFile.sync

def truncateToBlocks (blocks : Nat) : Io Blk M Unit := do
  let _ ← attempt
  onDisk fun d => d.setData fun f => f.setLen blocks

end Data

section Loss

-- A power loss keeps what an fsync has covered. Of the rest, a journal keeps whole
-- frames up to some point, a dirty block may hold anything, and the length is any the
-- file has had since.
structure DataFile.Loses (f f' : DataFile Blk) : Prop where
  len : f'.len = f.len ∨ f'.len ∈ f.lens
  kept : ∀ n, f.dirty n = false → f'.blocks n = f.blocks n
  clean : f'.dirty = fun _ => false
  settled : f'.lens = []

structure JournalFile.Loses (j j' : JournalFile) : Prop where
  ts : j'.ts = j.ts
  kept : ∃ k, j.synced ≤ k ∧ j'.frames = j.frames.take k
  durable : j'.synced = j'.frames.length

structure Disk.Loses (d d' : Disk Blk) : Prop where
  data : Option.Rel DataFile.Loses d.data d'.data
  journals : List.Forall₂ JournalFile.Loses d.journals d'.journals
  removed : d'.removed = d.removed

end Loss

end WaveDb.Storage
