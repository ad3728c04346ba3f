import WaveDb.Storage.Media

-- The pages of one type: linear hashing over a vector of descriptors, the dictionary,
-- and the codec of a page.
namespace WaveDb.Storage

open WaveDb.Lib WaveDb.Core

section Addressing

def splitBit (dirLen : Nat) : Nat := Nat.log2 dirLen

def nextSplitBucket (dirLen : Nat) : Nat := dirLen - 2 ^ splitBit dirLen

def bucketIndex (dirLen hash : Nat) : Nat :=
  let base := 2 ^ splitBit dirLen
  if hash % base < dirLen - base then hash % (2 * base) else hash % base

theorem splitBit_spec {dirLen : Nat} (h : 0 < dirLen) :
    2 ^ splitBit dirLen ≤ dirLen ∧ dirLen < 2 * 2 ^ splitBit dirLen := by
  have hle := Nat.log2_self_le h.ne'
  have hlt := Nat.lt_log2_self (n := dirLen)
  rw [Nat.pow_succ, Nat.mul_comm] at hlt
  exact ⟨hle, hlt⟩

theorem splitBit_unique {dirLen level : Nat} (hle : 2 ^ level ≤ dirLen)
    (hlt : dirLen < 2 * 2 ^ level) : splitBit dirLen = level := by
  rw [splitBit, Nat.log2_eq_iff (by have := Nat.two_pow_pos level; omega)]
  exact ⟨hle, by rw [Nat.pow_succ, Nat.mul_comm]; exact hlt⟩

theorem mod_two_mul (hash base : Nat) :
    hash % (2 * base) = hash % base + base * (hash / base % 2) := by
  rw [Nat.mul_comm 2 base, Nat.mod_mul]

theorem bucketIndex_lt {dirLen hash : Nat} (h : 0 < dirLen) : bucketIndex dirLen hash < dirLen := by
  obtain ⟨hle, hlt⟩ := splitBit_spec h
  have hbase : 0 < 2 ^ splitBit dirLen := Nat.two_pow_pos _
  have hmod := Nat.mod_lt hash hbase
  have hparts := mod_two_mul hash (2 ^ splitBit dirLen)
  have hbit : hash / 2 ^ splitBit dirLen % 2 < 2 := Nat.mod_lt _ (by decide)
  rw [bucketIndex]
  split
  · rename_i hsplit
    rcases Nat.lt_or_ge (hash / 2 ^ splitBit dirLen % 2) 1 with hb | hb
    · have : hash / 2 ^ splitBit dirLen % 2 = 0 := by omega
      rw [this] at hparts
      omega
    · have : hash / 2 ^ splitBit dirLen % 2 = 1 := by omega
      rw [this] at hparts
      omega
  · omega

theorem bucketIndex_succ {dirLen hash : Nat} (h : 0 < dirLen) :
    bucketIndex (dirLen + 1) hash =
      if bucketIndex dirLen hash = nextSplitBucket dirLen ∧ hash / 2 ^ splitBit dirLen % 2 = 1
      then dirLen else bucketIndex dirLen hash := by
  obtain ⟨hle, hlt⟩ := splitBit_spec h
  have hbase : 0 < 2 ^ splitBit dirLen := Nat.two_pow_pos _
  have hmod := Nat.mod_lt hash hbase
  have hparts := mod_two_mul hash (2 ^ splitBit dirLen)
  have hbit : hash / 2 ^ splitBit dirLen % 2 = 0 ∨ hash / 2 ^ splitBit dirLen % 2 = 1 := by omega
  -- The level changes when the last bucket of the level has been split.
  by_cases hlast : dirLen + 1 < 2 * 2 ^ splitBit dirLen
  · have hlevel : splitBit (dirLen + 1) = splitBit dirLen := splitBit_unique (by omega) hlast
    simp only [bucketIndex, nextSplitBucket, hlevel]
    rcases hbit with hb | hb <;> rw [hb] at hparts ⊢ <;> split <;> split <;> split <;> omega
  · have hlevel : splitBit (dirLen + 1) = splitBit dirLen + 1 :=
      splitBit_unique (by rw [Nat.pow_succ]; omega) (by rw [Nat.pow_succ]; omega)
    have htwo : 2 ^ (splitBit dirLen + 1) = 2 * 2 ^ splitBit dirLen := by
      rw [Nat.pow_succ, Nat.mul_comm]
    simp only [bucketIndex, nextSplitBucket, hlevel, htwo]
    rcases hbit with hb | hb <;> rw [hb] at hparts ⊢ <;> split <;> split <;> split <;> omega

end Addressing

-- At least one bucket; a bucket without a page holds the empty descriptor.
structure Directory where
  slots : List BlockDescriptor
  pos : 0 < slots.length
  deriving DecidableEq

namespace Directory

def new : Directory := ⟨[.empty], by simp⟩

def len (dir : Directory) : Nat := dir.slots.length

def bucketOf (dir : Directory) (hash : Nat) : Nat := bucketIndex dir.len hash

def descriptor (dir : Directory) (bucket : Nat) : BlockDescriptor := dir.slots.getD bucket .empty

def setDescriptor (dir : Directory) (bucket : Nat) (desc : BlockDescriptor) : Directory :=
  ⟨dir.slots.set bucket desc, by rw [List.length_set]; exact dir.pos⟩

def pushBucket (dir : Directory) (desc : BlockDescriptor) : Directory :=
  ⟨dir.slots ++ [desc], by simp⟩

def runs (dir : Directory) : List Run := (dir.slots.filter (·.isAllocated)).map (·.run)

end Directory

def dictCap : Nat := 64 * 1024

-- The buffer only grows, so a state of it is known by its length.
structure DictState where
  enabled : Bool
  buf : Bytes
  desc : BlockDescriptor
  deriving DecidableEq

namespace DictState

def new (enabled : Bool) : DictState := ⟨enabled, [], .empty⟩

-- Appends what the cap leaves room for; whether the buffer grew.
def sample (dict : DictState) (record : Bytes) : DictState × Bool :=
  if dict.enabled then
    let buf := dict.buf ++ record.take (dictCap - dict.buf.length)
    ({ dict with buf }, buf.length != dict.buf.length)
  else (dict, false)

def state (buf : Bytes) (len : Nat) : Option Bytes :=
  if len ≤ buf.length then some (buf.take len) else none

end DictState

namespace SlotPage

variable {Blk : Type} [Media Blk]

def new (structHash : Nat) : SlotPage := ⟨structHash, []⟩

def upsert (page : SlotPage) (id : Id) (bytes : Bytes) : SlotPage :=
  { page with records := page.records.put id bytes }

def get (page : SlotPage) (id : Id) : Option Bytes := page.records.get id

def remove (page : SlotPage) (id : Id) : SlotPage :=
  { page with records := page.records.erase id }

def payload (page : SlotPage) (dict : Bytes) (compress : Bool) :
    PagePayload (Media.Frame Blk) :=
  if compress then
    match (Media.compress dict page.records : Option (Media.Frame Blk)) with
    | some frame => .zstd dict.length frame
    | none => .raw page.records
  else .raw page.records

def toBytes (page : SlotPage) (dict : Bytes) (compress : Bool) : Image Blk :=
  Media.page ⟨page.structHash, page.payload dict compress⟩

def body (dict : Bytes) : PagePayload (Media.Frame Blk) → Except StorageError Records
  | .raw records => .ok records
  | .zstd dictLen frame =>
    match DictState.state dict dictLen with
    | none => .error (.corrupt "page dictionary state unknown")
    | some state =>
      match Media.decompress state frame with
      | none => .error (.corrupt "page decompress")
      | some records => .ok records

def fromBytes (blocks : List Blk) (dict : Bytes) : Except StorageError SlotPage := do
  let envelope ← Media.readPage blocks
  let records ← body dict envelope.payload
  return ⟨envelope.structHash, records⟩

end SlotPage

structure StructStorage where
  cache : Records
  dir : Option Directory
  dict : DictState
  dead : Finset Id

namespace StructStorage

def fresh (compress : Bool) : StructStorage := ⟨[], none, .new compress, ∅⟩

end StructStorage

end WaveDb.Storage
