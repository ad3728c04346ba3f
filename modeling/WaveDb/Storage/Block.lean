import WaveDb.Lib.Spans

-- `data.bin` is an array of fixed-size blocks. A run is a stretch of it.
namespace WaveDb.Storage

open WaveDb.Lib

abbrev Run := Span

def blockSize : Nat := 4096

def reservedBlocks : Nat := 1

def blocksFor (bytes : Nat) : Nat := (bytes + blockSize - 1) / blockSize

-- A page, dictionary or chunk address in 64 bits: 40 bits of start, 20 bits of
-- count, 4 bits of occupation. Wider fields are masked.
structure BlockDescriptor where
  raw : Nat
  deriving DecidableEq, Repr

-- A 1/16th fill gauge.
def occupationOf (used capacity : Nat) : Nat :=
  if capacity = 0 then 0 else min (min (used * 16) (2 ^ 64 - 1) / capacity) 15

namespace BlockDescriptor

def empty : BlockDescriptor := ⟨0⟩

def new (start count occupation : Nat) : BlockDescriptor :=
  ⟨start % 2 ^ 40 * 2 ^ 24 + count % 2 ^ 20 * 2 ^ 4 + occupation % 2 ^ 4⟩

def fromRunUsed (run : Run) (used : Nat) : BlockDescriptor :=
  new run.start run.count (occupationOf used (run.count * blockSize))

def start (d : BlockDescriptor) : Nat := d.raw / 2 ^ 24 % 2 ^ 40

def count (d : BlockDescriptor) : Nat := d.raw / 2 ^ 4 % 2 ^ 20

def isAllocated (d : BlockDescriptor) : Bool := d.count != 0

def run (d : BlockDescriptor) : Run := ⟨d.start, d.count⟩

@[simp] theorem isAllocated_empty : empty.isAllocated = false := by decide

end BlockDescriptor

end WaveDb.Storage
