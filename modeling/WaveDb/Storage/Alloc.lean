import WaveDb.Storage.Block
import WaveDb.Lib.Keyed

-- The free-space manager over the blocks of `data.bin`. Ordered maps are sorted lists.
namespace WaveDb.Storage

open WaveDb.Lib

def realRuns (runs : List Run) : List Run := runs.filter fun r => 0 < r.count

def sizeKey (e : Run) : Nat ×ₗ Nat := toLex (e.count, e.start)

-- `byPos` and `bySize` are the free extents by position and by size.
-- `protected` is what the newest checkpoint names, `previous` what the one
-- before it names, and `pending` the frees held back by either.
structure BlockAllocator where
  byPos : List Run
  bySize : List Run
  totalBlocks : Nat
  «protected» : List Run
  previous : List Run
  pending : List Run
  deriving DecidableEq

namespace BlockAllocator

def new : BlockAllocator := ⟨[], [], 0, [], [], []⟩

def insertExtent (a : BlockAllocator) (start count : Nat) : BlockAllocator :=
  { a with
    byPos := putKey Span.start ⟨start, count⟩ a.byPos
    bySize := putKey sizeKey ⟨start, count⟩ a.bySize }

def removeExtent (a : BlockAllocator) (start count : Nat) : BlockAllocator :=
  { a with
    byPos := dropKey Span.start start a.byPos
    bySize := dropKey sizeKey (toLex (count, start)) a.bySize }

def fillGaps (a : BlockAllocator) (cursor : Nat) : List Run → BlockAllocator
  | [] => if cursor < a.totalBlocks then a.insertExtent cursor (a.totalBlocks - cursor) else a
  | run :: runs =>
    (if cursor < run.start then a.insertExtent cursor (run.start - cursor) else a).fillGaps
      run.stop runs

def fromLayout (totalBlocks : Nat) (used : List Run) : BlockAllocator :=
  fillGaps { new with totalBlocks } 0
    ((realRuns used).insertionSort fun r s => r.start ≤ s.start)

-- Whether one generation covers a block of `run`. A generation's runs do not
-- overlap, so the last one that starts before the end of `run` decides.
def covers (set : List Run) (run : Run) : Bool :=
  (below Span.start run.stop set).getLast?.any fun s => run.start < s.stop

def isProtected (a : BlockAllocator) (run : Run) : Bool :=
  covers a.protected run || covers a.previous run

-- Best fit; the file grows if there is none. A count of zero is refused by an
-- assertion.
def alloc (a : BlockAllocator) (count : Nat) : Run × BlockAllocator :=
  match a.bySize.find? fun e => decide (toLex (count, 0) ≤ sizeKey e) with
  | some e =>
    let taken := a.removeExtent e.start e.count
    (⟨e.start, count⟩,
      if 0 < e.count - count then taken.insertExtent (e.start + count) (e.count - count)
      else taken)
  | none => (⟨a.totalBlocks, count⟩, { a with totalBlocks := a.totalBlocks + count })

def growTail (a : BlockAllocator) (count : Nat) : Run × BlockAllocator :=
  (⟨a.totalBlocks, count⟩, { a with totalBlocks := a.totalBlocks + count })

-- At the tail, starting with the trailing free extent if there is one.
def allocTail (a : BlockAllocator) (count : Nat) : Run × BlockAllocator :=
  match a.byPos.getLast? with
  | some e =>
    if e.stop = a.totalBlocks ∧ a.isProtected ⟨e.start, min count e.count⟩ = false then
      let taken := a.removeExtent e.start e.count
      (⟨e.start, count⟩,
        if count < e.count then taken.insertExtent (e.start + count) (e.count - count)
        else { taken with totalBlocks := e.start + count })
    else a.growTail count
  | none => a.growTail count

def joinBefore (a : BlockAllocator) (run : Run) : Run × BlockAllocator :=
  match (below Span.start run.start a.byPos).getLast? with
  | some p =>
    if p.stop = run.start then (⟨p.start, run.count + p.count⟩, a.removeExtent p.start p.count)
    else (run, a)
  | none => (run, a)

def joinAfter (a : BlockAllocator) (run : Run) : Run × BlockAllocator :=
  match a.byPos.find? fun e => e.start = run.stop with
  | some s => (⟨run.start, run.count + s.count⟩, a.removeExtent s.start s.count)
  | none => (run, a)

def free (a : BlockAllocator) (run : Run) : BlockAllocator :=
  if run.count = 0 then a
  else if a.isProtected run then { a with pending := a.pending ++ [run] }
  else
    let (run, a) := a.joinBefore run
    let (run, a) := a.joinAfter run
    a.insertExtent run.start run.count

def retryPending (a : BlockAllocator) : BlockAllocator :=
  a.pending.foldl free { a with pending := [] }

def generation (runs : List Run) : List Run :=
  (realRuns runs).foldl (fun set r => putKey Span.start r set) []

def setProtected (a : BlockAllocator) (runs : List Run) : BlockAllocator :=
  retryPending { a with «protected» := generation runs, previous := a.protected }

def releasePrevious (a : BlockAllocator) : BlockAllocator :=
  retryPending { a with previous := [] }

def truncate (a : BlockAllocator) : Nat × BlockAllocator :=
  match a.byPos.getLast? with
  | some e =>
    if e.stop = a.totalBlocks then
      (e.count, { a.removeExtent e.start e.count with totalBlocks := e.start })
    else (0, a)
  | none => (0, a)

end BlockAllocator

end WaveDb.Storage
